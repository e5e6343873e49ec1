import ClosureCode.Proofs.Lowering

/-! How lowered code is put together, without the syntax it comes from: pieces in a row, both
arms of a conditional, a function. A fragment is seen with the names that are used and bound
in it, and with the depth of the stack before and after it. -/
namespace ClosureCode

/- What the parts of a program do to names, in the order in which they are compiled. -/
inductive Event where
  | use (name : String)
  | bind (name : String)
  | function (name : Option String) (parameters : List String) (body : List Event)

mutual

def Expr.events : Expr → List Event
  | .name name _ => [.use name]
  | .integer _ _ | .string _ _ | .boolean _ _ => []
  | .unary _ operand _ => operand.events
  | .binary _ left right _ => left.events ++ right.events
  | .conditional condition ⟨consequence, _⟩ alternative _ =>
      condition.events ++ (stmtsEvents consequence ++ alternativeEvents alternative)
  | .function name parameters ⟨body, _⟩ _ => [.function name (parameters.map (·.name)) (stmtsEvents body)]
  | .call callee arguments _ => callee.events ++ exprsEvents arguments
  | .array elements _ => exprsEvents elements
  | .hash pairs _ => pairsEvents pairs
  | .index collection position _ => collection.events ++ position.events

def alternativeEvents : Option Block → List Event
  | none => []
  | some ⟨statements, _⟩ => stmtsEvents statements

def exprsEvents : List Expr → List Event
  | [] => []
  | e :: rest => e.events ++ exprsEvents rest

def pairsEvents : List (Expr × Expr) → List Event
  | [] => []
  | (key, value) :: rest => (key.events ++ value.events) ++ pairsEvents rest

def Stmt.events : Stmt → List Event
  | .binding target value _ => value.events ++ [.bind target.name]
  | .returning value _ | .expression value _ => value.events

def stmtsEvents : List Stmt → List Event
  | [] => []
  | s :: rest => s.events ++ stmtsEvents rest

end

def Program.events (program : Program) : List Event := stmtsEvents program

namespace Instruction

/- The values an instruction takes from the stack, and those it leaves there. -/
def pops (i : Instruction) : Nat :=
  match i.opcode, i.operands with
  | .array, [n] | .hash, [n] => n
  | .call, [n] => n + 1
  | .closure, [_, n] => n
  | .add, _ | .subtract, _ | .multiply, _ | .divide, _ | .equal, _ | .notEqual, _ | .greater, _ | .less, _ => 2
  | .index, _ => 2
  | .negate, _ | .not, _ => 1
  | .pop, _ | .setGlobal, _ | .setLocal, _ | .jumpUnlessTruthy, _ | .returnValue, _ => 1
  | _, _ => 0

def pushes (i : Instruction) : Nat :=
  match i.opcode with
  | .constant | .pushTrue | .pushFalse | .pushNull => 1
  | .getGlobal | .getLocal | .getBuiltin | .getFree | .currentClosure => 1
  | .add | .subtract | .multiply | .divide | .equal | .notEqual | .greater | .less => 1
  | .index | .negate | .not | .array | .hash | .call | .closure => 1
  | .pop | .setGlobal | .setLocal | .jumpUnlessTruthy | .jump | .returnValue | .returnNothing => 0

end Instruction

/- The opcodes that refer to nothing: no constant, no name, no place in the code. -/
def Opcode.isOperation : Opcode → Bool
  | .constant | .closure | .jumpUnlessTruthy | .jump => false
  | .getGlobal | .setGlobal | .getLocal | .setLocal | .getBuiltin | .getFree | .currentClosure => false
  | _ => true

def Constant.isLiteral : Constant → Bool
  | .integer _ | .string _ => true
  | .function .. => false

/- A conditional starts after its condition. The depth at a jump or a return is that of the
text that follows it, which other jumps may reach. -/
inductive Fragment : Lowering → Nat → List Event → Lowered → Lowering → Nat → Prop where
  | nil {s depth} : Fragment s depth [] ⟨[], []⟩ s depth
  | append {s depth e l s₁ depth₁ e' l' s₂ depth₂}
      (first : Fragment s depth e l s₁ depth₁) (second : Fragment s₁ depth₁ e' l' s₂ depth₂) :
      Fragment s depth (e ++ e') (l ++ l') s₂ depth₂
  | operation {s depth} (i : Instruction) (plain : i.opcode.isOperation) (enough : i.pops ≤ depth) :
      Fragment s depth [] ⟨[.plain i], []⟩ s (depth - i.pops + i.pushes)
  | constant {s depth} (c : Constant) (literal : c.isLiteral) :
      Fragment s depth [] ⟨[.op .constant [s.slot]], [c]⟩ { s with slot := s.slot + 1 } (depth + 1)
  | use {s depth name symbol table} (found : s.table.resolve name = (some symbol, table)) :
      Fragment s depth [.use name] ⟨[.plain symbol.load], []⟩ { s with table } (depth + 1)
  | bind {s depth name symbol table} (defined : s.table.define name = (symbol, table)) :
      Fragment s (depth + 1) [.bind name] ⟨[.plain symbol.store], []⟩ { s with table } depth
  | conditional {s depth e first s₁ e' second s₂}
      (consequence : Fragment { s with label := s.label + 2 } depth e first s₁ (depth + 1))
      (alternative : Fragment s₁ depth e' second s₂ (depth + 1)) :
      Fragment s (depth + 1) (e ++ e')
        ⟨Symbolic.conditional s.label first.code second.code, first.constants ++ second.constants⟩ s₂ (depth + 1)
  | function {s depth name parameters e inner s₁ outer own before} {last : Opcode}
      (body : Fragment { s with table := s.table.forFunction name parameters } 0 e inner s₁ 0)
      (ends : inner.code = before ++ [.op last []]) (returns : last = .returnValue ∨ last = .returnNothing)
      (left : s₁.table.takeOuter = (outer, own)) :
      Fragment s depth [.function name parameters e]
        ⟨own.captured.map (fun symbol => .plain symbol.load) ++ [.op .closure [s₁.slot, own.captured.length]],
          inner.constants ++ [.function inner.code own.definitions parameters.length]⟩
        { s₁ with table := outer.getD .empty, slot := s₁.slot + 1 } (depth + 1)

/- Wherever it starts, the part takes `a` values and leaves `b`. -/
def Lower.Builds (x : Lower) (events : List Event) (a b : Nat) : Prop :=
  ∀ ⦃s l s'⦄, x s = some (l, s') → ∀ depth, Fragment s (depth + a) events l s' (depth + b)

namespace Lower

theorem buildsNil : Builds (.emit []) [] 0 0 := by
  intro s l s' h depth
  cases h
  exact .nil

theorem buildsEmit {a b : Nat} (op : Opcode) (operands : List Nat) (plain : op.isOperation)
    (takes : (Instruction.mk op operands).pops = a) (leaves : (Instruction.mk op operands).pushes = b) :
    Builds (.emit [.op op operands]) [] a b := by
  intro s l s' h depth
  cases h
  have piece : Fragment s (depth + a) [] ⟨[.plain ⟨op, operands⟩], []⟩ s _ :=
    .operation ⟨op, operands⟩ plain (by omega)
  rwa [takes, leaves, Nat.add_sub_cancel] at piece

theorem buildsAndThen {x y : Lower} {e e' : List Event} {a b c : Nat}
    (first : Builds x e a b) (second : Builds y e' b c) : Builds (x.andThen y) (e ++ e') a c := by
  intro s l s' h depth
  obtain ⟨first', s₁, second', hx, hy, rfl⟩ := andThenSome.mp h
  exact .append (first hx depth) (second hy depth)

theorem buildsThen {x y : Lower} {e : List Event} {a b c : Nat}
    (first : Builds x e a b) (second : Builds y [] b c) : Builds (x.andThen y) e a c := by
  simpa using buildsAndThen first second

/- What a part takes and leaves may lie on top of other values. -/
theorem buildsUnder {x : Lower} {e : List Event} {a b : Nat} (k : Nat) (h : Builds x e a b) :
    Builds x e (a + k) (b + k) := by
  intro s l s' run depth
  have := h run (depth + k)
  rwa [Nat.add_assoc, Nat.add_comm k, Nat.add_assoc depth, Nat.add_comm k] at this

theorem buildsConstant (c : Constant) (literal : c.isLiteral) : Builds (.constant c) [] 0 1 := by
  intro s l s' h depth
  cases h
  exact .constant c literal

theorem buildsLoad (name : String) : Builds (.load name) [.use name] 0 1 := by
  intro s l s' h depth
  unfold load at h
  split at h
  · cases h
  · rename_i symbol table found
    cases h
    exact .use found

theorem buildsBind (name : String) : Builds (.bind name) [.bind name] 1 0 := by
  intro s l s' h depth
  cases h
  exact .bind rfl

theorem buildsConditional {x y : Lower} {e e' : List Event} (consequence : Builds x e 0 1)
    (alternative : Builds y e' 0 1) : Builds (.conditional x y) (e ++ e') 1 1 := by
  intro s l s' h depth
  obtain ⟨first, s₁, second, hx, hy, rfl⟩ := conditionalSome.mp h
  exact .conditional (consequence hx depth) (alternative hy depth)

def Returns (x : Lower) : Prop :=
  ∀ ⦃s l s'⦄, x s = some (l, s') → ∃ before, ∃ last : Opcode,
    l.code = before ++ [.op last []] ∧ (last = .returnValue ∨ last = .returnNothing)

theorem returnsAndThen {x y : Lower} (h : Returns y) : Returns (x.andThen y) := by
  intro s l s' run
  obtain ⟨first, s₁, second, hx, hy, rfl⟩ := andThenSome.mp run
  obtain ⟨before, op, ends, returns⟩ := h hy
  exact ⟨first.code ++ before, op, by simp [ends], returns⟩

theorem buildsFunction {x : Lower} {e : List Event} (name : Option String) (parameters : List String)
    (body : Builds x e 0 0) (returns : Returns x) :
    Builds (.function name parameters x) [.function name parameters e] 0 1 := by
  intro s l s' h depth
  obtain ⟨inner, s₁, outer, own, hx, left, rfl, rfl⟩ := functionSome.mp h
  obtain ⟨before, op, ends, last⟩ := returns hx
  exact .function (body hx 0) ends last left

theorem returnsEmit (op : Opcode) (returns : op = .returnValue ∨ op = .returnNothing) :
    Returns (.emit [.op op []]) := by
  intro s l s' h
  cases h
  exact ⟨[], op, rfl, returns⟩

theorem returnsEmitNothing {x : Lower} (h : Returns x) : Returns (x.andThen (.emit [])) := by
  intro s l s' run
  obtain ⟨first, s₁, second, hx, hy, rfl⟩ := andThenSome.mp run
  cases hy
  simpa using h hx

end Lower

theorem Stmt.lastReturns : (s : Stmt) → (s.lowerLast .body).Returns
  | .binding target value _ => by
      unfold Stmt.lowerLast
      exact Lower.returnsAndThen (Lower.returnsEmit .returnNothing (.inr rfl))
  | .returning value _ => by
      unfold Stmt.lowerLast
      exact Lower.returnsEmitNothing (Lower.returnsAndThen (Lower.returnsEmit .returnValue (.inl rfl)))
  | .expression value _ => by
      unfold Stmt.lowerLast
      exact Lower.returnsAndThen (Lower.returnsEmit .returnValue (.inl rfl))

theorem bodyReturns : (statements : List Stmt) → (lowerEnding .body statements).Returns
  | [] => by
      unfold lowerEnding
      exact Lower.returnsEmit .returnNothing (.inr rfl)
  | [last] => by
      unfold lowerEnding
      exact last.lastReturns
  | s :: next :: rest => by
      unfold lowerEnding
      exact Lower.returnsAndThen (bodyReturns (next :: rest))

/- The values that a block leaves. -/
def Ending.leaves : Ending → Nat
  | .arm => 1
  | .body => 0

theorem Ending.nothingBuilds (ending : Ending) : (Lower.emit ending.nothing).Builds [] 0 ending.leaves := by
  cases ending with
  | arm => exact Lower.buildsEmit .pushNull [] rfl rfl rfl
  | body => exact Lower.buildsEmit .returnNothing [] rfl rfl rfl

theorem Ending.returnedBuilds (ending : Ending) : (Lower.emit ending.returned).Builds [] 0 ending.leaves := by
  cases ending with
  | arm => exact Lower.buildsEmit .pushNull [] rfl rfl rfl
  | body => exact Lower.buildsNil

theorem Ending.valueBuilds (ending : Ending) : (Lower.emit ending.value).Builds [] 1 ending.leaves := by
  cases ending with
  | arm => exact Lower.buildsUnder 1 Lower.buildsNil
  | body => exact Lower.buildsEmit .returnValue [] rfl rfl rfl

open Lower

mutual

theorem Expr.builds : (e : Expr) → e.lower.Builds e.events 0 1
  | .name name _ => by
      unfold Expr.lower Expr.events
      exact buildsLoad name
  | .integer value _ => by
      unfold Expr.lower Expr.events
      exact buildsConstant _ rfl
  | .string value _ => by
      unfold Expr.lower Expr.events
      exact buildsConstant _ rfl
  | .boolean value _ => by
      unfold Expr.lower Expr.events
      cases value <;> exact buildsEmit _ [] rfl rfl rfl
  | .unary op operand _ => by
      unfold Expr.lower Expr.events
      refine buildsThen operand.builds ?_
      cases op <;> exact buildsEmit _ [] rfl rfl rfl
  | .binary op left right _ => by
      unfold Expr.lower Expr.events
      refine buildsThen (buildsAndThen left.builds (buildsUnder 1 right.builds)) ?_
      cases op <;> exact buildsEmit _ [] rfl rfl rfl
  | .conditional condition ⟨consequence, _⟩ alternative _ => by
      unfold Expr.lower Expr.events
      exact buildsAndThen condition.builds
        (buildsConditional (endingBuilds .arm consequence) (alternativeBuilds alternative))
  | .function name parameters ⟨body, _⟩ _ => by
      unfold Expr.lower Expr.events
      exact buildsFunction name _ (endingBuilds .body body) (bodyReturns body)
  | .call callee arguments _ => by
      unfold Expr.lower Expr.events
      exact buildsThen (buildsAndThen callee.builds (buildsUnder 1 (exprsBuild arguments)))
        (buildsEmit .call [arguments.length] rfl rfl rfl)
  | .array elements _ => by
      unfold Expr.lower Expr.events
      exact buildsThen (exprsBuild elements) (buildsEmit .array [elements.length] rfl rfl rfl)
  | .hash pairs _ => by
      unfold Expr.lower Expr.events
      exact buildsThen (pairsBuild pairs) (buildsEmit .hash [pairs.length * 2] rfl rfl rfl)
  | .index collection position _ => by
      unfold Expr.lower Expr.events
      exact buildsThen (buildsAndThen collection.builds (buildsUnder 1 position.builds))
        (buildsEmit .index [] rfl rfl rfl)

theorem alternativeBuilds : (alternative : Option Block) →
    (lowerAlternative alternative).Builds (alternativeEvents alternative) 0 1
  | none => by
      unfold lowerAlternative alternativeEvents
      exact buildsEmit .pushNull [] rfl rfl rfl
  | some ⟨statements, _⟩ => by
      unfold lowerAlternative alternativeEvents
      exact endingBuilds .arm statements

theorem exprsBuild : (es : List Expr) → (lowerExprs es).Builds (exprsEvents es) 0 es.length
  | [] => by
      unfold lowerExprs exprsEvents
      exact buildsNil
  | e :: rest => by
      unfold lowerExprs exprsEvents
      exact buildsAndThen e.builds (buildsUnder 1 (exprsBuild rest))

theorem pairsBuild : (pairs : List (Expr × Expr)) → (lowerPairs pairs).Builds (pairsEvents pairs) 0 (pairs.length * 2)
  | [] => by
      unfold lowerPairs pairsEvents
      exact buildsNil
  | (key, value) :: rest => by
      unfold lowerPairs pairsEvents
      have more :=
        buildsAndThen (buildsAndThen key.builds (buildsUnder 1 value.builds)) (buildsUnder 2 (pairsBuild rest))
      rwa [← Nat.add_one_mul] at more

theorem Stmt.builds : (s : Stmt) → s.lower.Builds s.events 0 0
  | .binding target value _ => by
      unfold Stmt.lower Stmt.events
      exact buildsAndThen value.builds (buildsBind target.name)
  | .returning value _ => by
      unfold Stmt.lower Stmt.events
      exact buildsThen value.builds (buildsEmit .returnValue [] rfl rfl rfl)
  | .expression value _ => by
      unfold Stmt.lower Stmt.events
      exact buildsThen value.builds (buildsEmit .pop [] rfl rfl rfl)

theorem Stmt.lastBuilds (ending : Ending) : (s : Stmt) → (s.lowerLast ending).Builds s.events 0 ending.leaves
  | .binding target value _ => by
      unfold Stmt.lowerLast Stmt.events
      exact buildsThen (buildsAndThen value.builds (buildsBind target.name)) ending.nothingBuilds
  | .returning value _ => by
      unfold Stmt.lowerLast Stmt.events
      exact buildsThen (buildsThen value.builds (buildsEmit .returnValue [] rfl rfl rfl)) ending.returnedBuilds
  | .expression value _ => by
      unfold Stmt.lowerLast Stmt.events
      exact buildsThen value.builds ending.valueBuilds

theorem endingBuilds (ending : Ending) : (statements : List Stmt) →
    (lowerEnding ending statements).Builds (stmtsEvents statements) 0 ending.leaves
  | [] => by
      unfold lowerEnding stmtsEvents
      exact ending.nothingBuilds
  | [last] => by
      unfold lowerEnding stmtsEvents stmtsEvents
      rw [List.append_nil]
      exact last.lastBuilds ending
  | s :: next :: rest => by
      unfold lowerEnding stmtsEvents
      exact buildsAndThen s.builds (endingBuilds ending (next :: rest))

end

theorem stmtsBuild : (statements : List Stmt) → (lowerStmts statements).Builds (stmtsEvents statements) 0 0
  | [] => by
      unfold lowerStmts stmtsEvents
      exact buildsNil
  | s :: rest => by
      unfold lowerStmts stmtsEvents
      exact buildsAndThen s.builds (stmtsBuild rest)

theorem Program.fragment {program : Program} {l : Lowered} (h : program.lower = some l) :
    ∃ s, Fragment .start 0 program.events l s 0 := by
  simp only [Program.lower, Option.map_eq_some_iff] at h
  obtain ⟨⟨_, s⟩, run, rfl⟩ := h
  exact ⟨s, stmtsBuild program run 0⟩

theorem fragmentSlots {s depth e l s' depth'} (h : Fragment s depth e l s' depth') :
    s'.slot = s.slot + l.constants.length := by
  induction h with
  | nil => rfl
  | append first second ih₁ ih₂ => rw [ih₂, ih₁, Lowered.constantsAppend, List.length_append, Nat.add_assoc]
  | operation i plain enough => rfl
  | constant c literal => rfl
  | use found => rfl
  | bind defined => rfl
  | conditional consequence alternative ih₁ ih₂ => rw [ih₂, ih₁, List.length_append, Nat.add_assoc]
  | function body ends returns left ih => rw [ih, List.length_append, Nat.add_assoc]; rfl

/- Labels are given out in turn, and each stands at one mark. -/
def LabelsBetween (low high : Nat) (code : List Symbolic) : Prop :=
  low ≤ high ∧ (Symbolic.marks code).Nodup ∧ ∀ label ∈ Symbolic.marks code, low ≤ label ∧ label < high

theorem labelsAppend {low middle high : Nat} {a b : List Symbolic} (first : LabelsBetween low middle a)
    (second : LabelsBetween middle high b) : LabelsBetween low high (a ++ b) := by
  obtain ⟨le₁, nodup₁, range₁⟩ := first
  obtain ⟨le₂, nodup₂, range₂⟩ := second
  refine ⟨by omega, ?_, ?_⟩
  · rw [Symbolic.marksAppend, List.nodup_append]
    refine ⟨nodup₁, nodup₂, fun x hx y hy => ?_⟩
    have := range₁ x hx
    have := range₂ y hy
    omega
  · intro label member
    rw [Symbolic.marksAppend, List.mem_append] at member
    rcases member with left | right
    · have := range₁ label left
      omega
    · have := range₂ label right
      omega

theorem labelsConditional {low middle high : Nat} {a b : List Symbolic} (first : LabelsBetween (low + 2) middle a)
    (second : LabelsBetween middle high b) :
    LabelsBetween low high (Symbolic.conditional low a b) := by
  obtain ⟨le₁, nodup₁, range₁⟩ := first
  obtain ⟨le₂, nodup₂, range₂⟩ := second
  have shape : Symbolic.marks (Symbolic.conditional low a b) =
      (Symbolic.marks a ++ [low]) ++ (Symbolic.marks b ++ [low + 1]) := by simp [Symbolic.conditional]
  refine ⟨by omega, ?_, ?_⟩
  · rw [shape, List.nodup_append, List.nodup_append, List.nodup_append]
    refine ⟨⟨nodup₁, by simp, ?_⟩, ⟨nodup₂, by simp, ?_⟩, ?_⟩
    · intro x hx y hy
      have := range₁ x hx
      have := List.mem_singleton.mp hy
      omega
    · intro x hx y hy
      have := range₂ x hx
      have := List.mem_singleton.mp hy
      omega
    · intro x hx y hy
      simp only [List.mem_append, List.mem_singleton] at hx hy
      rcases hx with hx | hx <;> rcases hy with hy | hy
      · have := range₁ x hx
        have := range₂ y hy
        omega
      · have := range₁ x hx
        omega
      · have := range₂ y hy
        omega
      · omega
  · intro label member
    simp only [shape, List.mem_append, List.mem_singleton] at member
    rcases member with (member | member) | (member | member)
    · have := range₁ label member
      omega
    · omega
    · have := range₂ label member
      omega
    · omega

theorem labelsPlain (low : Nat) (is : List Instruction) : LabelsBetween low low (is.map .plain) := by
  have none : Symbolic.marks (is.map .plain) = [] := by
    induction is with
    | nil => rfl
    | cons i rest ih => simpa using ih
  simp [LabelsBetween, none]

theorem fragmentLabels {s depth e l s' depth'} (h : Fragment s depth e l s' depth') :
    LabelsBetween s.label s'.label l.code := by
  induction h with
  | nil => exact labelsPlain _ []
  | append first second ih₁ ih₂ => exact labelsAppend ih₁ ih₂
  | operation i plain enough => exact labelsPlain _ [i]
  | constant c literal => exact labelsPlain _ [_]
  | use found => exact labelsPlain _ [_]
  | bind defined => exact labelsPlain _ [_]
  | conditional consequence alternative ih₁ ih₂ => exact labelsConditional ih₁ ih₂
  | @function s depth name parameters e inner s₁ outer own before last body ends returns left ih =>
      have code := labelsPlain s.label (own.captured.map Symbol.load ++ [⟨.closure, [s₁.slot, own.captured.length]⟩])
      rw [List.map_append, List.map_map] at code
      exact ⟨ih.1, code.2.1, fun label member => by have := code.2.2 label member; omega⟩

theorem fragmentTargets {s depth e l s' depth'} (h : Fragment s depth e l s' depth') :
    ∀ target ∈ Symbolic.targets l.code, target ∈ Symbolic.marks l.code := by
  induction h with
  | nil => intro target member; cases member
  | append first second ih₁ ih₂ =>
      intro target member
      simp only [Lowered.codeAppend, Symbolic.targetsAppend, Symbolic.marksAppend, List.mem_append] at member ⊢
      exact member.imp (ih₁ target) (ih₂ target)
  | operation i plain enough => intro target member; cases member
  | constant c literal => intro target member; cases member
  | use found => intro target member; cases member
  | bind defined => intro target member; cases member
  | @conditional s depth e first s₁ e' second s₂ consequence alternative ih₁ ih₂ =>
      intro target member
      have targets : Symbolic.targets (Symbolic.conditional s.label first.code second.code) =
          [s.label] ++ Symbolic.targets first.code ++ [s.label + 1] ++ Symbolic.targets second.code := by
        simp [Symbolic.conditional, Symbolic.targets]
      have marks : Symbolic.marks (Symbolic.conditional s.label first.code second.code) =
          Symbolic.marks first.code ++ [s.label] ++ Symbolic.marks second.code ++ [s.label + 1] := by
        simp [Symbolic.conditional]
      simp only [targets, marks, List.mem_append, List.mem_singleton] at member ⊢
      rcases member with ((rfl | inFirst) | rfl) | inSecond
      · exact .inl (.inl (.inr rfl))
      · exact .inl (.inl (.inl (ih₁ target inFirst)))
      · exact .inr rfl
      · exact .inl (.inr (ih₂ target inSecond))
  | function body ends returns left ih =>
      intro target member
      simp [Symbolic.targets, Symbolic.op] at member

/- The code of a function is a fragment of its own, and ends in a return. -/
structure Body (code : List Symbolic) : Prop where
  fragment : ∃ s e inner s', Fragment s 0 e inner s' 0 ∧ inner.code = code
  returns : ∃ before, ∃ last : Opcode, code = before ++ [.op last []] ∧ (last = .returnValue ∨ last = .returnNothing)

theorem fragmentBodies {s depth e l s' depth'} (h : Fragment s depth e l s' depth') :
    ∀ code locals parameters, .function code locals parameters ∈ l.constants → Body code := by
  induction h with
  | nil => intro code locals parameters member; cases member
  | append first second ih₁ ih₂ =>
      intro code locals parameters member
      rcases List.mem_append.mp member with member | member
      · exact ih₁ code locals parameters member
      · exact ih₂ code locals parameters member
  | operation i plain enough => intro code locals parameters member; cases member
  | constant c literal =>
      intro code locals parameters member
      rw [← List.mem_singleton.mp member] at literal
      cases literal
  | use found => intro code locals parameters member; cases member
  | bind defined => intro code locals parameters member; cases member
  | conditional consequence alternative ih₁ ih₂ =>
      intro code locals parameters member
      rcases List.mem_append.mp member with member | member
      · exact ih₁ code locals parameters member
      · exact ih₂ code locals parameters member
  | function body ends returns left ih =>
      intro code locals parameters member
      rcases List.mem_append.mp member with member | member
      · exact ih code locals parameters member
      · cases List.mem_singleton.mp member
        exact ⟨⟨_, _, _, _, body, rfl⟩, ⟨_, _, ends, returns⟩⟩

theorem Body.labels {code : List Symbolic} (h : Body code) : Symbolic.WellLabelled code := by
  obtain ⟨⟨s, e, inner, s', fragment, rfl⟩, _⟩ := h
  exact ⟨(fragmentLabels fragment).2.1, fragmentTargets fragment⟩

theorem Program.wellLabelled {program : Program} {l : Lowered} (h : program.lower = some l) : l.WellLabelled := by
  obtain ⟨s, fragment⟩ := program.fragment h
  exact ⟨⟨(fragmentLabels fragment).2.1, fragmentTargets fragment⟩,
    fun code locals parameters member => (fragmentBodies fragment code locals parameters member).labels⟩

end ClosureCode
