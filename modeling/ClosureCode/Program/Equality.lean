import ClosureCode.Program

/-! Equality of nodes is decidable: `same` walks both trees and answers `true`
exactly on equal ones. -/
namespace ClosureCode

mutual

def Expr.same : Expr → Expr → Bool
  | .name a s, .name b t => a == b && s == t
  | .integer a s, .integer b t => a == b && s == t
  | .string a s, .string b t => a == b && s == t
  | .boolean a s, .boolean b t => a == b && s == t
  | .unary op a s, .unary op' b t => op == op' && a.same b && s == t
  | .binary op a b s, .binary op' a' b' t => op == op' && a.same a' && b.same b' && s == t
  | .conditional c a b s, .conditional c' a' b' t =>
      c.same c' && a.same a' && sameOptional b b' && s == t
  | .function n ps a s, .function n' ps' a' t => n == n' && ps == ps' && a.same a' && s == t
  | .call f es s, .call f' es' t => f.same f' && sameExprs es es' && s == t
  | .array es s, .array es' t => sameExprs es es' && s == t
  | .hash ps s, .hash ps' t => samePairs ps ps' && s == t
  | .index a i s, .index a' i' t => a.same a' && i.same i' && s == t
  | _, _ => false

def sameExprs : List Expr → List Expr → Bool
  | [], [] => true
  | a :: as, b :: bs => a.same b && sameExprs as bs
  | _, _ => false

def samePairs : List (Expr × Expr) → List (Expr × Expr) → Bool
  | [], [] => true
  | (k, v) :: as, (k', v') :: bs => k.same k' && v.same v' && samePairs as bs
  | _, _ => false

def sameOptional : Option Block → Option Block → Bool
  | none, none => true
  | some a, some b => a.same b
  | _, _ => false

def Stmt.same : Stmt → Stmt → Bool
  | .binding x a s, .binding y b t => x == y && a.same b && s == t
  | .returning a s, .returning b t => a.same b && s == t
  | .expression a s, .expression b t => a.same b && s == t
  | _, _ => false

def Block.same : Block → Block → Bool
  | ⟨a, s⟩, ⟨b, t⟩ => sameStmts a b && s == t

def sameStmts : List Stmt → List Stmt → Bool
  | [], [] => true
  | a :: as, b :: bs => a.same b && sameStmts as bs
  | _, _ => false

end

mutual

theorem Expr.sameIff : (a b : Expr) → (a.same b = true ↔ a = b)
  | .name .., b => by cases b <;> simp [Expr.same]
  | .integer .., b => by cases b <;> simp [Expr.same]
  | .string .., b => by cases b <;> simp [Expr.same]
  | .boolean .., b => by cases b <;> simp [Expr.same]
  | .unary _ a _, b => by cases b <;> simp [Expr.same, a.sameIff, and_assoc]
  | .binary _ a a' _, b => by cases b <;> simp [Expr.same, a.sameIff, a'.sameIff, and_assoc]
  | .conditional c a a' _, b => by
      cases b <;> simp [Expr.same, c.sameIff, a.sameIff, sameOptionalIff a', and_assoc]
  | .function _ _ a _, b => by cases b <;> simp [Expr.same, a.sameIff, and_assoc]
  | .call f es _, b => by cases b <;> simp [Expr.same, f.sameIff, sameExprsIff es, and_assoc]
  | .array es _, b => by cases b <;> simp [Expr.same, sameExprsIff es]
  | .hash ps _, b => by cases b <;> simp [Expr.same, samePairsIff ps]
  | .index a i _, b => by cases b <;> simp [Expr.same, a.sameIff, i.sameIff, and_assoc]

theorem sameExprsIff : (as bs : List Expr) → (sameExprs as bs = true ↔ as = bs)
  | [], bs => by cases bs <;> simp [sameExprs]
  | a :: as, bs => by cases bs <;> simp [sameExprs, a.sameIff, sameExprsIff as]

theorem samePairsIff : (as bs : List (Expr × Expr)) → (samePairs as bs = true ↔ as = bs)
  | [], bs => by cases bs <;> simp [samePairs]
  | (k, v) :: as, [] => by simp [samePairs]
  | (k, v) :: as, (k', v') :: bs => by simp [samePairs, k.sameIff, v.sameIff, samePairsIff as]

theorem sameOptionalIff : (a b : Option Block) → (sameOptional a b = true ↔ a = b)
  | none, b => by cases b <;> simp [sameOptional]
  | some a, b => by cases b <;> simp [sameOptional, a.sameIff]

theorem Stmt.sameIff : (a b : Stmt) → (a.same b = true ↔ a = b)
  | .binding _ a _, b => by cases b <;> simp [Stmt.same, a.sameIff, and_assoc]
  | .returning a _, b => by cases b <;> simp [Stmt.same, a.sameIff]
  | .expression a _, b => by cases b <;> simp [Stmt.same, a.sameIff]

theorem Block.sameIff : (a b : Block) → (a.same b = true ↔ a = b)
  | ⟨a, _⟩, ⟨b, _⟩ => by simp [Block.same, sameStmtsIff a b]

theorem sameStmtsIff : (as bs : List Stmt) → (sameStmts as bs = true ↔ as = bs)
  | [], bs => by cases bs <;> simp [sameStmts]
  | a :: as, bs => by cases bs <;> simp [sameStmts, a.sameIff, sameStmtsIff as]

end

def Node.same : Node → Node → Bool
  | .program a, .program b => sameStmts a b
  | .statement a, .statement b => a.same b
  | .block a, .block b => a.same b
  | .expression a, .expression b => a.same b
  | _, _ => false

theorem Node.sameIff (a b : Node) : a.same b = true ↔ a = b := by
  cases a <;> cases b <;>
    simp [Node.same, Expr.sameIff, Stmt.sameIff, Block.sameIff, sameStmtsIff]

instance : DecidableEq Expr := fun a b => decidable_of_iff _ (Expr.sameIff a b)
instance : DecidableEq Stmt := fun a b => decidable_of_iff _ (Stmt.sameIff a b)
instance : DecidableEq Block := fun a b => decidable_of_iff _ (Block.sameIff a b)
instance : DecidableEq Node := fun a b => decidable_of_iff _ (Node.sameIff a b)

end ClosureCode
