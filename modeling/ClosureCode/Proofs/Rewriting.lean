import ClosureCode.Proofs.Refinement
import Mathlib.Logic.Relation

/-! Two ways to write one program. A function body may end in a statement `return e` or in `e` alone, and a
conditional without an alternative may have an empty one: the code is the same, wherever this is in the text. -/
namespace ClosureCode

/- One change somewhere in the tree of a node. What is new in the text may have any span. -/
inductive Rewrites : Node → Node → Prop where
  | finalReturn {name parameters before e s s' place span} :
      Rewrites (.expression (.function name parameters ⟨before ++ [.expression e s], place⟩ span))
        (.expression (.function name parameters ⟨before ++ [.returning e s'], place⟩ span))
  | emptyAlternative {condition consequence place span} :
      Rewrites (.expression (.conditional condition consequence none span))
        (.expression (.conditional condition consequence (some ⟨[], place⟩) span))
  | operand {op e e' span} (inside : Rewrites (.expression e) (.expression e')) :
      Rewrites (.expression (.unary op e span)) (.expression (.unary op e' span))
  | left {op e e' right span} (inside : Rewrites (.expression e) (.expression e')) :
      Rewrites (.expression (.binary op e right span)) (.expression (.binary op e' right span))
  | right {op left e e' span} (inside : Rewrites (.expression e) (.expression e')) :
      Rewrites (.expression (.binary op left e span)) (.expression (.binary op left e' span))
  | condition {e e' consequence alternative span} (inside : Rewrites (.expression e) (.expression e')) :
      Rewrites (.expression (.conditional e consequence alternative span))
        (.expression (.conditional e' consequence alternative span))
  | consequence {condition b b' alternative span} (inside : Rewrites (.block b) (.block b')) :
      Rewrites (.expression (.conditional condition b alternative span))
        (.expression (.conditional condition b' alternative span))
  | alternative {condition consequence b b' span} (inside : Rewrites (.block b) (.block b')) :
      Rewrites (.expression (.conditional condition consequence (some b) span))
        (.expression (.conditional condition consequence (some b') span))
  | body {name parameters b b' span} (inside : Rewrites (.block b) (.block b')) :
      Rewrites (.expression (.function name parameters b span)) (.expression (.function name parameters b' span))
  | callee {e e' arguments span} (inside : Rewrites (.expression e) (.expression e')) :
      Rewrites (.expression (.call e arguments span)) (.expression (.call e' arguments span))
  | argument {callee before e e' after span} (inside : Rewrites (.expression e) (.expression e')) :
      Rewrites (.expression (.call callee (before ++ e :: after) span))
        (.expression (.call callee (before ++ e' :: after) span))
  | element {before e e' after span} (inside : Rewrites (.expression e) (.expression e')) :
      Rewrites (.expression (.array (before ++ e :: after) span)) (.expression (.array (before ++ e' :: after) span))
  | key {before e e' value after span} (inside : Rewrites (.expression e) (.expression e')) :
      Rewrites (.expression (.hash (before ++ (e, value) :: after) span))
        (.expression (.hash (before ++ (e', value) :: after) span))
  | value {before key e e' after span} (inside : Rewrites (.expression e) (.expression e')) :
      Rewrites (.expression (.hash (before ++ (key, e) :: after) span))
        (.expression (.hash (before ++ (key, e') :: after) span))
  | collection {e e' position span} (inside : Rewrites (.expression e) (.expression e')) :
      Rewrites (.expression (.index e position span)) (.expression (.index e' position span))
  | position {collection e e' span} (inside : Rewrites (.expression e) (.expression e')) :
      Rewrites (.expression (.index collection e span)) (.expression (.index collection e' span))
  | binding {target e e' span} (inside : Rewrites (.expression e) (.expression e')) :
      Rewrites (.statement (.binding target e span)) (.statement (.binding target e' span))
  | returning {e e' span} (inside : Rewrites (.expression e) (.expression e')) :
      Rewrites (.statement (.returning e span)) (.statement (.returning e' span))
  | expression {e e' span} (inside : Rewrites (.expression e) (.expression e')) :
      Rewrites (.statement (.expression e span)) (.statement (.expression e' span))
  | block {before s s' after span} (inside : Rewrites (.statement s) (.statement s')) :
      Rewrites (.block ⟨before ++ s :: after, span⟩) (.block ⟨before ++ s' :: after, span⟩)
  | program {before s s' after} (inside : Rewrites (.statement s) (.statement s')) :
      Rewrites (.program (before ++ s :: after)) (.program (before ++ s' :: after))

/- Any number of changes, one after the other. -/
def Program.Rewritten (p p' : Program) : Prop := Relation.ReflTransGen Rewrites (.program p) (.program p')

/- What a node is lowered to, in each of the places where it may stand. -/
def Node.lowerings : Node → List Lower
  | .program p => [lowerStmts p]
  | .statement s => [s.lower, s.lowerLast .arm, s.lowerLast .body]
  | .block b => [lowerEnding .arm b.statements, lowerEnding .body b.statements]
  | .expression e => [e.lower]

namespace Lower

theorem andThenNothing (x : Lower) : x.andThen (.emit []) = x := by
  funext s
  cases ran : x s with
  | none => simp [andThen, ran]
  | some result =>
      obtain ⟨⟨code, constants⟩, s'⟩ := result
      simp only [andThen, ran, emit, Option.bind_eq_bind, Option.bind_some]
      show some ((⟨code ++ [], constants ++ []⟩ : Lowered), s') = _
      rw [List.append_nil, List.append_nil]

end Lower

section Places
variable {e e' : Expr} {s s' : Stmt} {b b' : Block}

theorem exprLowering : (Node.expression e).lowerings = (Node.expression e').lowerings ↔ e.lower = e'.lower := by
  simp [Node.lowerings]

theorem stmtLowerings : (Node.statement s).lowerings = (Node.statement s').lowerings ↔
    s.lower = s'.lower ∧ ∀ ending, s.lowerLast ending = s'.lowerLast ending := by
  simp only [Node.lowerings, List.cons.injEq, and_true]
  constructor
  · intro same
    exact ⟨same.1, fun ending => by cases ending <;> simp [same]⟩
  · intro same
    exact ⟨same.1, same.2 .arm, same.2 .body⟩

theorem blockLowerings : (Node.block b).lowerings = (Node.block b').lowerings ↔
    ∀ ending, lowerEnding ending b.statements = lowerEnding ending b'.statements := by
  simp only [Node.lowerings, List.cons.injEq, and_true]
  constructor
  · intro same ending
    cases ending <;> simp [same]
  · intro same
    exact ⟨same .arm, same .body⟩

/- The last statement of a block is lowered in a way of its own, so what is behind has to be there. -/
theorem endingBehind {ending : Ending} (before : List Stmt) {rest rest' : List Stmt}
    (same : lowerEnding ending (s :: rest) = lowerEnding ending (s' :: rest')) :
    lowerEnding ending (before ++ s :: rest) = lowerEnding ending (before ++ s' :: rest') := by
  induction before with
  | nil => exact same
  | cons first before ih =>
      cases before with
      | nil =>
          simp only [List.cons_append, List.nil_append, lowerEnding]
          rw [same]
      | cons next before =>
          simp only [List.cons_append, lowerEnding] at ih ⊢
          rw [ih]

theorem exprsReplaced (before after : List Expr) (same : e.lower = e'.lower) :
    lowerExprs (before ++ e :: after) = lowerExprs (before ++ e' :: after) := by
  induction before with
  | nil => simp only [List.nil_append, lowerExprs, same]
  | cons first before ih => simp only [List.cons_append, lowerExprs, ih]

theorem pairsReplaced (before after : List (Expr × Expr)) {key key' value value' : Expr} (first : key.lower = key'.lower)
    (second : value.lower = value'.lower) :
    lowerPairs (before ++ (key, value) :: after) = lowerPairs (before ++ (key', value') :: after) := by
  induction before with
  | nil => simp only [List.nil_append, lowerPairs, first, second]
  | cons pair before ih =>
      obtain ⟨k, v⟩ := pair
      simp only [List.cons_append, lowerPairs, ih]

theorem stmtsReplaced (before after : List Stmt) (same : s.lower = s'.lower) :
    lowerStmts (before ++ s :: after) = lowerStmts (before ++ s' :: after) := by
  induction before with
  | nil => simp only [List.nil_append, lowerStmts, same]
  | cons first before ih => simp only [List.cons_append, lowerStmts, ih]

theorem endingReplaced (before after : List Stmt) (ending : Ending) (same : s.lower = s'.lower)
    (last : s.lowerLast ending = s'.lowerLast ending) :
    lowerEnding ending (before ++ s :: after) = lowerEnding ending (before ++ s' :: after) := by
  apply endingBehind
  cases after with
  | nil => simp only [lowerEnding, last]
  | cons next after => simp only [lowerEnding, same]

end Places

/- A value that is popped at the end of a body is returned, as it is by a statement. -/
theorem finalReturnLowering (before : List Stmt) (e : Expr) (s s' : Span) :
    lowerEnding .body (before ++ [.expression e s]) = lowerEnding .body (before ++ [.returning e s']) := by
  apply endingBehind
  simp only [lowerEnding, Stmt.lowerLast]
  exact (Lower.andThenNothing _).symm

theorem Rewrites.lowerings {n n' : Node} (h : Rewrites n n') : n.lowerings = n'.lowerings := by
  induction h with
  | @finalReturn name parameters before e s s' place span =>
      rw [exprLowering]
      simp only [Expr.lower]
      rw [finalReturnLowering before e s s']
  | @emptyAlternative condition consequence place span =>
      rw [exprLowering]
      obtain ⟨statements, around⟩ := consequence
      simp only [Expr.lower, lowerAlternative, lowerEnding, Ending.nothing]
  | operand inside ih | left inside ih | right inside ih | callee inside ih | collection inside ih | position inside ih =>
      rw [exprLowering] at ih ⊢
      simp only [Expr.lower, ih]
  | @condition e e' consequence alternative span inside ih =>
      rw [exprLowering] at ih ⊢
      obtain ⟨statements, around⟩ := consequence
      simp only [Expr.lower, ih]
  | @consequence condition b b' alternative span inside ih =>
      rw [blockLowerings] at ih
      rw [exprLowering]
      have arm := ih .arm
      obtain ⟨statements, around⟩ := b
      obtain ⟨statements', around'⟩ := b'
      simp only [Expr.lower, arm]
  | @alternative condition consequence b b' span inside ih =>
      rw [blockLowerings] at ih
      rw [exprLowering]
      have arm := ih .arm
      obtain ⟨first, around⟩ := consequence
      obtain ⟨statements, place⟩ := b
      obtain ⟨statements', place'⟩ := b'
      simp only [Expr.lower, lowerAlternative, arm]
  | @body name parameters b b' span inside ih =>
      rw [blockLowerings] at ih
      rw [exprLowering]
      have body := ih .body
      obtain ⟨statements, around⟩ := b
      obtain ⟨statements', around'⟩ := b'
      simp only [Expr.lower, body]
  | @argument callee before e e' after span inside ih =>
      rw [exprLowering] at ih ⊢
      simp only [Expr.lower, exprsReplaced before after ih, List.length_append, List.length_cons]
  | @element before e e' after span inside ih =>
      rw [exprLowering] at ih ⊢
      simp only [Expr.lower, exprsReplaced before after ih, List.length_append, List.length_cons]
  | @key before e e' value after span inside ih =>
      rw [exprLowering] at ih ⊢
      have same : value.lower = value.lower := rfl
      simp only [Expr.lower, pairsReplaced before after ih same, List.length_append, List.length_cons]
  | @value before key e e' after span inside ih =>
      rw [exprLowering] at ih ⊢
      have same : key.lower = key.lower := rfl
      simp only [Expr.lower, pairsReplaced before after same ih, List.length_append, List.length_cons]
  | binding inside ih | returning inside ih | expression inside ih =>
      rw [exprLowering] at ih
      rw [stmtLowerings]
      simp only [Stmt.lower, Stmt.lowerLast, ih, implies_true, and_self]
  | @block before s s' after span inside ih =>
      rw [stmtLowerings] at ih
      rw [blockLowerings]
      intro ending
      exact endingReplaced before after ending ih.1 (ih.2 ending)
  | @program before s s' after inside ih =>
      rw [stmtLowerings] at ih
      simp only [Node.lowerings, stmtsReplaced before after ih.1]

theorem rewrittenLowerings {n n' : Node} (h : Relation.ReflTransGen Rewrites n n') : n.lowerings = n'.lowerings := by
  induction h with
  | refl => rfl
  | tail before step ih => exact ih.trans step.lowerings

theorem Program.Rewritten.lower {p p' : Program} (h : p.Rewritten p') : p.lower = p'.lower := by
  have statements : lowerStmts p = lowerStmts p' := (List.cons.inj (rewrittenLowerings h)).1
  rw [Program.lower, Program.lower, statements]

/- Programs that are lowered alike compile alike. -/
theorem compileLowered {p p' : Program} (same : p.lower = p'.lower) {b : Bytecode} (compiled : p.compile = .ok b) :
    p'.compile = .ok b := by
  obtain ⟨l, lower, assembled⟩ := lowered compiled
  rw [same] at lower
  cases compiled' : p'.compile with
  | error e => exact absurd assembled (notLowered compiled' lower b)
  | ok b' =>
      obtain ⟨l', lower', assembled'⟩ := lowered compiled'
      cases lower.symm.trans lower'
      cases assembled.symm.trans assembled'
      rfl

theorem rewrittenCompiles {p p' : Program} (h : p.Rewritten p') (b : Bytecode) :
    p.compile = .ok b ↔ p'.compile = .ok b :=
  ⟨compileLowered h.lower, compileLowered h.lower.symm⟩

/- A function with a conditional as its last statement: `fn(a) { if (a) {} }`, or with more of it written out. -/
def Program.choosing (alternative : Option Block) (last : Expr → Span → Stmt) : Program :=
  let choice := Expr.conditional (.name "a" .unknown) ⟨[], .unknown⟩ alternative .unknown
  [.expression (.function none [⟨"a", .unknown⟩] ⟨[last choice .unknown], .unknown⟩ .unknown) .unknown]

theorem rewrittenCompilesChoosing :
    (Program.choosing none .expression).Rewritten (Program.choosing (some ⟨[], .unknown⟩) .returning) ∧
      ∃ b, (Program.choosing none .expression).compile = .ok b ∧
        (Program.choosing (some ⟨[], .unknown⟩) .returning).compile = .ok b := by
  have first : Rewrites (.program (Program.choosing none .expression))
      (.program (Program.choosing (some ⟨[], .unknown⟩) .expression)) :=
    @Rewrites.program [] _ _ [] (.expression (.body (@Rewrites.block [] _ _ [] _ (.expression .emptyAlternative))))
  have second : Rewrites (.program (Program.choosing (some ⟨[], .unknown⟩) .expression))
      (.program (Program.choosing (some ⟨[], .unknown⟩) .returning)) :=
    @Rewrites.program [] _ _ [] (.expression (@Rewrites.finalReturn _ _ [] _ _ _ _ _))
  have rewritten : (Program.choosing none .expression).Rewritten (Program.choosing (some ⟨[], .unknown⟩) .returning) :=
    (Relation.ReflTransGen.single first).tail second
  obtain ⟨b, compiled⟩ := @Program.compiles (Program.choosing none .expression) (by decide +kernel)
  exact ⟨rewritten, b, compiled, (rewrittenCompiles rewritten b).mp compiled⟩

end ClosureCode
