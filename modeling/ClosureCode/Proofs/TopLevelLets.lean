import ClosureCode.Compiler
import ClosureCode.Proofs.Scopes

/-! The `let`s that a run of the compiler reaches outside of all functions, whether it succeeds
or fails, with the symbols that they are given; and what a run does to the symbol table beside them. -/
namespace ClosureCode
namespace Compile

def noLets (_ : Compiler) : List Symbol := []

/- The `let`s of `x`, then those of the rest, which is reached if `x` succeeds. -/
def followed {α : Type} (x : Compile α) (first rest : Compiler → List Symbol) (c : Compiler) : List Symbol :=
  first c ++ match x c with
    | .ok _ c' => rest c'
    | .error _ _ => []

/- The first arm of a conditional between its two jumps, of which the second is not yet patched. -/
def firstArm (node : Node) (arm : Compile Unit) : Compile Nat := do
  let toAlternative ← emitJump node .jumpUnlessTruthy
  arm
  let toEnd ← emitJump node .jump
  patchJump node .jumpUnlessTruthy toAlternative
  return toEnd

end Compile

open Compile (noLets followed)

mutual

/- The `let`s reached outside of functions: those whose value compiled, in order. -/
def Expr.lets : Expr → Compiler → List Symbol
  | .name _ _ | .integer _ _ | .string _ _ | .boolean _ _ | .function _ _ _ _ => noLets
  | .unary _ operand _ => operand.lets
  | .binary _ left right _ => followed (Compile.expr left) left.lets right.lets
  | e@(.conditional condition consequence alternative _) =>
      let node := Node.expression e
      let arm := do
        Compile.block consequence
        Compile.finishBranch node
      followed (Compile.expr condition) condition.lets
        (followed (Compile.firstArm node arm)
          (followed (Compile.emitJump node .jumpUnlessTruthy) noLets consequence.lets)
          (alternativeLets alternative))
  | .call callee arguments _ => followed (Compile.expr callee) callee.lets (exprsLets arguments)
  | .array elements _ => exprsLets elements
  | .hash pairs _ => pairsLets pairs
  | .index collection position _ => followed (Compile.expr collection) collection.lets position.lets

def alternativeLets : Option Block → Compiler → List Symbol
  | none => noLets
  | some alternative => alternative.lets

def exprsLets : List Expr → Compiler → List Symbol
  | [] => noLets
  | e :: rest => followed (Compile.expr e) e.lets (exprsLets rest)

def pairsLets : List (Expr × Expr) → Compiler → List Symbol
  | [] => noLets
  | (key, value) :: rest =>
      followed (Compile.expr key) key.lets (followed (Compile.expr value) value.lets (pairsLets rest))

def Stmt.lets : Stmt → Compiler → List Symbol
  | .binding target value _ => followed (Compile.expr value) value.lets fun c => [(c.table.define target.name).1]
  | .returning value _ | .expression value _ => value.lets

def Block.lets : Block → Compiler → List Symbol
  | ⟨statements, _⟩ => stmtsLets statements

def stmtsLets : List Stmt → Compiler → List Symbol
  | [] => noLets
  | s :: rest => followed (Compile.stmt s) s.lets (stmtsLets rest)

end

def Node.lets : Node → Compiler → List Symbol
  | .program p => stmtsLets p
  | .statement s => s.lets
  | .block b => b.lets
  | .expression e => e.lets

/- The symbols are those that one definition after the other gives. -/
inductive Defines : SymbolTable → List Symbol → SymbolTable → Prop where
  | nil {table} : Defines table [] table
  | cons {table name rest table'} (more : Defines (table.define name).2 rest table') :
      Defines table ((table.define name).1 :: rest) table'

theorem Defines.append {a b c : SymbolTable} {first second : List Symbol} (h : Defines a first b)
    (h' : Defines b second c) : Defines a (first ++ second) c := by
  induction h with
  | nil => exact h'
  | cons more ih => exact .cons (ih h')

theorem Defines.one (table : SymbolTable) (name : String) :
    Defines table [(table.define name).1] (table.define name).2 := .cons .nil

/- New symbols are globals, and each has the slot after that of the one before. -/
theorem Defines.slots {table table' : SymbolTable} {symbols : List Symbol} (h : Defines table symbols table')
    (top : table.outer = []) :
    table'.outer = [] ∧ table'.definitions = table.definitions + symbols.length ∧
      (∀ symbol ∈ symbols, symbol.storage = .global) ∧
      symbols.map (·.index) = List.range' table.definitions symbols.length := by
  induction h with
  | nil => exact ⟨top, rfl, fun symbol member => (by cases member), rfl⟩
  | @cons table name rest table' more ih =>
      obtain ⟨top', count, globals, slots⟩ := ih top
      have next : (table.define name).2.definitions = table.definitions + 1 := rfl
      have first : (table.define name).1 = ⟨name, .global, table.definitions⟩ := by
        simp [SymbolTable.define, SymbolTable.isGlobal, top, Scope.define, SymbolTable.definitions]
      refine ⟨top', ?_, ?_, ?_⟩
      · rw [count, next, List.length_cons]
        omega
      · intro symbol member
        rcases List.mem_cons.mp member with rfl | later
        · rw [first]
        · exact globals symbol later
      · rw [List.map_cons, slots, next, first, List.length_cons, List.range'_succ]

theorem Defines.increasing {table table' : SymbolTable} {symbols : List Symbol} (h : Defines table symbols table')
    (top : table.outer = []) :
    (symbols.Pairwise fun a b => a.index < b.index) ∧ table.definitions ≤ table'.definitions ∧
      ∀ symbol ∈ symbols, table.definitions ≤ symbol.index ∧ symbol.index < table'.definitions := by
  obtain ⟨-, count, -, slots⟩ := h.slots top
  refine ⟨?_, by omega, fun symbol member => ?_⟩
  · have ascending : (symbols.map (·.index)).Pairwise (· < ·) := slots ▸ List.pairwise_lt_range'
    exact List.pairwise_map.mp ascending
  · have slot : symbol.index ∈ symbols.map (·.index) := List.mem_map_of_mem member
    rw [slots, List.mem_range'_1] at slot
    omega

theorem resolveTop {table : SymbolTable} (top : table.outer = []) (name : String) :
    table.resolve name = (table.inner.find? name, table) := by
  obtain ⟨inner, outer⟩ := table
  cases top
  rfl

/- A name that is not defined anew keeps its meaning. -/
theorem Defines.other {table table' : SymbolTable} {symbols : List Symbol} (h : Defines table symbols table')
    (top : table.outer = []) {name : String} (absent : name ∉ symbols.map (·.name)) :
    (table'.resolve name).1 = (table.resolve name).1 := by
  induction h with
  | nil => rfl
  | @cons table other rest table' more ih =>
      rw [List.map_cons, List.mem_cons, not_or] at absent
      rw [ih top absent.2, resolveTop top, resolveTop (show (table.define other).2.outer = [] from top)]
      exact (Scope.findDefine _ _ _ _).trans (if_neg fun same => absent.1 same.symm)

/- What a run does to the names: at the top level only its `let`s count, and inside a function
the top level stays as it is. -/
structure TableKept (table table' : SymbolTable) (symbols : List Symbol) : Prop where
  depth : table'.outer.length = table.outer.length
  root : table.outer ≠ [] → table'.scopes.getLast? = table.scopes.getLast?
  lets : table.outer = [] → Defines table symbols table'

namespace TableKept
variable {table table' table'' : SymbolTable}

theorem refl (table : SymbolTable) : TableKept table table [] := ⟨rfl, fun _ => rfl, fun _ => .nil⟩

theorem trans {first second : List Symbol} (h : TableKept table table' first) (h' : TableKept table' table'' second) :
    TableKept table table'' (first ++ second) := by
  refine ⟨h'.depth.trans h.depth, fun inside => ?_, fun top => (h.lets top).append (h'.lets ?_)⟩
  · refine (h'.root fun none => inside ?_).trans (h.root inside)
    exact List.length_eq_zero_iff.mp (h.depth ▸ List.length_eq_zero_iff.mpr none)
  · exact List.length_eq_zero_iff.mp (h.depth.trans (List.length_eq_zero_iff.mpr top))

theorem define (table : SymbolTable) (name : String) : TableKept table (table.define name).2 [(table.define name).1] := by
  refine ⟨rfl, fun inside => ?_, fun _ => .one table name⟩
  obtain ⟨inner, outer⟩ := table
  cases outer with
  | nil => exact absurd rfl inside
  | cons next rest => rfl

theorem resolvesKeeps {name : String} {scope scope' : Scope} {outer outer' : List Scope} {result : Option Symbol}
    (look : SymbolTable.Resolves name scope outer result scope' outer') :
    outer'.length = outer.length ∧ (scope' :: outer').getLast? = (scope :: outer).getLast? := by
  induction look with
  | here found => exact ⟨rfl, rfl⟩
  | nowhere absent => exact ⟨rfl, rfl⟩
  | pass absent further passes ih => exact ⟨congrArg (· + 1) ih.1, by simpa using ih.2⟩
  | capture absent further inside ih => exact ⟨congrArg (· + 1) ih.1, by simpa using ih.2⟩

/- Captures never concern the top level. -/
theorem resolve (table : SymbolTable) (name : String) : TableKept table (table.resolve name).2 [] := by
  obtain ⟨inner, outer⟩ := table
  obtain ⟨depth, root⟩ := resolvesKeeps (SymbolTable.resolveInResolves name inner outer)
  refine ⟨depth, fun _ => root, fun top => ?_⟩
  rw [resolveTop top]
  exact .nil

theorem enterScopes (c : Compiler) (name : Option String) (parameters : List Binder) :
    (c.enterFunction name parameters).table.outer = c.table.scopes := by
  have bound : ∀ table : SymbolTable,
      (parameters.foldl (fun table p => (table.define p.name).2) table).outer = table.outer := by
    induction parameters with
    | nil => exact fun _ => rfl
    | cons p rest ih => exact fun table => ih (table.define p.name).2
  unfold Compiler.enterFunction
  rw [bound]
  cases name <;> rfl

/- The scopes around a function, when it is left. -/
theorem leave {inside inside' : SymbolTable} {symbols : List Symbol} (h : TableKept inside inside' symbols)
    (around : inside.outer = table.scopes) : TableKept table (inside'.takeOuter.1.getD .empty) [] := by
  obtain ⟨own, outer⟩ := inside'
  have depth := h.depth
  have root := h.root (by rw [around]; exact List.cons_ne_nil _ _)
  cases outer with
  | nil => simp [around, SymbolTable.scopes] at depth
  | cons next rest =>
      rw [SymbolTable.scopes, SymbolTable.scopes, around] at root
      simp only [SymbolTable.scopes, List.getLast?_cons_cons] at root
      simp only [around, SymbolTable.scopes, List.length_cons, Nat.add_right_cancel_iff] at depth
      refine ⟨depth, fun _ => root, fun top => ?_⟩
      obtain ⟨inner, outer⟩ := table
      cases top
      obtain rfl := List.length_eq_zero_iff.mp depth
      cases root
      exact .nil

end TableKept
end ClosureCode
