import ClosureCode.Compiler
import ClosureCode.Proofs.Symbolic

/-! The reference lowering of programs to symbolic code. Code and constants of the parts are
put together in the order of the text: nothing is patched or taken back, no operand is
bounded, and a jump knows its target by a label. -/
namespace ClosureCode

/- The instruction that pushes what a symbol stands for, and the one that gives it a value. -/
def Symbol.load (symbol : Symbol) : Instruction :=
  match symbol.storage with
  | .global => ⟨.getGlobal, [symbol.index]⟩
  | .local => ⟨.getLocal, [symbol.index]⟩
  | .builtin => ⟨.getBuiltin, [symbol.index]⟩
  | .free => ⟨.getFree, [symbol.index]⟩
  | .function => ⟨.currentClosure, []⟩

def Symbol.store (symbol : Symbol) : Instruction :=
  ⟨if symbol.storage = .global then .setGlobal else .setLocal, [symbol.index]⟩

/- The scope of a function literal, with its own name and its parameters bound. -/
def SymbolTable.forFunction (table : SymbolTable) (name : Option String) (parameters : List String) : SymbolTable :=
  let table := table.enclose
  let table := match name with
    | some name => (table.defineFunctionName name).2
    | none => table
  parameters.foldl (fun table p => (table.define p).2) table

/- What is carried from one part to the next: the names, and the next free constant slot and label. -/
structure Lowering where
  table : SymbolTable
  slot : Nat
  label : Nat

abbrev Lower := Lowering → Option (Lowered × Lowering)

namespace Lower

def emit (code : List Symbolic) : Lower := fun s => some (⟨code, []⟩, s)

def andThen (x y : Lower) : Lower := fun s => do
  let (first, s) ← x s
  let (second, s) ← y s
  some (first ++ second, s)

theorem andThenSome {x y : Lower} {s s' : Lowering} {l : Lowered} :
    x.andThen y s = some (l, s') ↔
      ∃ first s₁ second, x s = some (first, s₁) ∧ y s₁ = some (second, s') ∧ l = first ++ second := by
  simp only [andThen, Bind.bind, Option.bind_eq_some_iff]
  constructor
  · rintro ⟨⟨first, s₁⟩, hx, ⟨second, s₂⟩, hy, last⟩
    cases last
    exact ⟨first, s₁, second, hx, hy, rfl⟩
  · rintro ⟨first, s₁, second, hx, hy, rfl⟩
    exact ⟨(first, s₁), hx, (second, s'), hy, rfl⟩

/- An instruction that refers to a constant by the slot that the constant gets. -/
def refer (opcode : Opcode) (c : Constant) (more : List Nat) : Lower := fun s =>
  some (⟨[.op opcode (s.slot :: more)], [c]⟩, { s with slot := s.slot + 1 })

def constant (c : Constant) : Lower := refer .constant c []

def load (name : String) : Lower := fun s =>
  match s.table.resolve name with
  | (none, _) => none
  | (some symbol, table) => some (⟨[.plain symbol.load], []⟩, { s with table })

def bind (name : String) : Lower := fun s =>
  let (symbol, table) := s.table.define name
  some (⟨[.plain symbol.store], []⟩, { s with table })

def conditional (consequence alternative : Lower) : Lower := fun s => do
  let (first, s₁) ← consequence { s with label := s.label + 2 }
  let (second, s₂) ← alternative s₁
  some (⟨Symbolic.conditional s.label first.code second.code, first.constants ++ second.constants⟩, s₂)

theorem conditionalSome {x y : Lower} {s s' : Lowering} {l : Lowered} :
    conditional x y s = some (l, s') ↔
      ∃ first s₁ second, x { s with label := s.label + 2 } = some (first, s₁) ∧ y s₁ = some (second, s') ∧
        l = ⟨Symbolic.conditional s.label first.code second.code, first.constants ++ second.constants⟩ := by
  simp only [conditional, Bind.bind, Option.bind_eq_some_iff]
  constructor
  · rintro ⟨⟨first, s₁⟩, hx, ⟨second, s₂⟩, hy, last⟩
    cases last
    exact ⟨first, s₁, second, hx, hy, rfl⟩
  · rintro ⟨first, s₁, second, hx, hy, rfl⟩
    exact ⟨(first, s₁), hx, (second, s'), hy, rfl⟩

/- One load for each captured variable, then the closure; the constant follows those of the body. -/
def function (name : Option String) (parameters : List String) (body : Lower) : Lower := fun s => do
  let (inner, s₁) ← body { s with table := s.table.forFunction name parameters }
  let (outer, own) := s₁.table.takeOuter
  some (⟨own.captured.map (fun symbol => .plain symbol.load) ++ [.op .closure [s₁.slot, own.captured.length]],
      inner.constants ++ [.function inner.code own.definitions parameters.length]⟩,
    { s₁ with table := outer.getD .empty, slot := s₁.slot + 1 })

theorem functionSome {name : Option String} {parameters : List String} {x : Lower} {s s' : Lowering} {l : Lowered} :
    function name parameters x s = some (l, s') ↔
      ∃ inner s₁ outer own, x { s with table := s.table.forFunction name parameters } = some (inner, s₁) ∧
        s₁.table.takeOuter = (outer, own) ∧
        l = ⟨own.captured.map (fun symbol => .plain symbol.load) ++ [.op .closure [s₁.slot, own.captured.length]],
          inner.constants ++ [.function inner.code own.definitions parameters.length]⟩ ∧
        s' = { s₁ with table := outer.getD .empty, slot := s₁.slot + 1 } := by
  simp only [function, Bind.bind, Option.bind_eq_some_iff]
  constructor
  · rintro ⟨⟨inner, s₁⟩, hx, last⟩
    cases last
    exact ⟨inner, s₁, _, _, hx, rfl, rfl, rfl⟩
  · rintro ⟨inner, s₁, outer, own, hx, left, rfl, rfl⟩
    exact ⟨(inner, s₁), hx, by rw [left]⟩

end Lower

/- How the statements of a block end: an arm of a conditional leaves one value, the body of
a function returns. -/
inductive Ending where
  | arm
  | body

namespace Ending

/- What takes the place of the pop of a last expression statement. -/
def value : Ending → List Symbolic
  | arm => []
  | body => [.op .returnValue []]

/- What follows a last return statement. -/
def returned : Ending → List Symbolic
  | arm => [.op .pushNull []]
  | body => []

/- What follows a last `let`, or stands for no statement at all. -/
def nothing : Ending → List Symbolic
  | arm => [.op .pushNull []]
  | body => [.op .returnNothing []]

end Ending

mutual

def Expr.lower : Expr → Lower
  | .name name _ => .load name
  | .integer value _ => .constant (.integer value)
  | .string value _ => .constant (.string value)
  | .boolean value _ => .emit [.op (if value then .pushTrue else .pushFalse) []]
  | .unary op operand _ => operand.lower.andThen (.emit [.op (Compile.unaryOpcode op) []])
  | .binary op left right _ => (left.lower.andThen right.lower).andThen (.emit [.op (Compile.binaryOpcode op) []])
  | .conditional condition ⟨consequence, _⟩ alternative _ =>
      condition.lower.andThen (.conditional (lowerEnding .arm consequence) (lowerAlternative alternative))
  | .function name parameters ⟨body, _⟩ _ => .function name (parameters.map (·.name)) (lowerEnding .body body)
  | .call callee arguments _ =>
      (callee.lower.andThen (lowerExprs arguments)).andThen (.emit [.op .call [arguments.length]])
  | .array elements _ => (lowerExprs elements).andThen (.emit [.op .array [elements.length]])
  | .hash pairs _ => (lowerPairs pairs).andThen (.emit [.op .hash [pairs.length * 2]])
  | .index collection position _ => (collection.lower.andThen position.lower).andThen (.emit [.op .index []])

def lowerAlternative : Option Block → Lower
  | none => .emit [.op .pushNull []]
  | some ⟨statements, _⟩ => lowerEnding .arm statements

def lowerExprs : List Expr → Lower
  | [] => .emit []
  | e :: rest => e.lower.andThen (lowerExprs rest)

def lowerPairs : List (Expr × Expr) → Lower
  | [] => .emit []
  | (key, value) :: rest => (key.lower.andThen value.lower).andThen (lowerPairs rest)

def Stmt.lower : Stmt → Lower
  | .binding target value _ => value.lower.andThen (.bind target.name)
  | .returning value _ => value.lower.andThen (.emit [.op .returnValue []])
  | .expression value _ => value.lower.andThen (.emit [.op .pop []])

def Stmt.lowerLast (ending : Ending) : Stmt → Lower
  | .binding target value _ => (value.lower.andThen (.bind target.name)).andThen (.emit ending.nothing)
  | .returning value _ => (value.lower.andThen (.emit [.op .returnValue []])).andThen (.emit ending.returned)
  | .expression value _ => value.lower.andThen (.emit ending.value)

def lowerEnding (ending : Ending) : List Stmt → Lower
  | [] => .emit ending.nothing
  | [last] => last.lowerLast ending
  | s :: next :: rest => s.lower.andThen (lowerEnding ending (next :: rest))

end

def lowerStmts : List Stmt → Lower
  | [] => .emit []
  | s :: rest => s.lower.andThen (lowerStmts rest)

def Lowering.start : Lowering := ⟨Compiler.fresh.table, 0, 0⟩

/- Nothing if a name is not bound where it is used. -/
def Program.lower (program : Program) : Option Lowered :=
  (lowerStmts program .start).map (·.1)

def Lowered.assemble (l : Lowered) : Except CodeError Bytecode := do
  let code ← Symbolic.assemble l.code
  let constants ← Constant.assembleAll l.constants
  .ok ⟨code, constants.toArray⟩

theorem Lowered.assembleOk {l : Lowered} {b : Bytecode} :
    l.assemble = .ok b ↔ Symbolic.assemble l.code = .ok b.code ∧ Constant.assembleAll l.constants =
      .ok b.constants.toList := by
  unfold Lowered.assemble
  cases code : Symbolic.assemble l.code with
  | error e => simp [Bind.bind, Except.bind]
  | ok stream =>
      cases constants : Constant.assembleAll l.constants with
      | error e => simp [Bind.bind, Except.bind]
      | ok objects =>
          cases b
          simp [Bind.bind, Except.bind, ← Array.toList_inj]

namespace Constant

theorem assembleAllLength {constants : List Constant} {objects : List Object}
    (h : assembleAll constants = .ok objects) : objects.length = constants.length := by
  induction constants generalizing objects with
  | nil => cases h; rfl
  | cons c rest ih =>
      obtain ⟨first, more, one, others, rfl⟩ := assembleAllCons.mp h
      simp [ih others]

/- The pool has the constants in a row from the slot on. -/
def Stored (pool : List Object) (slot : Nat) (constants : List Constant) : Prop :=
  ∃ objects, assembleAll constants = .ok objects ∧ objects <+: pool.drop slot

theorem storedAppend {pool : List Object} {slot : Nat} {a b : List Constant} (h : Stored pool slot (a ++ b)) :
    Stored pool slot a ∧ Stored pool (slot + a.length) b := by
  obtain ⟨objects, assembled, rest, split⟩ := h
  obtain ⟨first, second, one, two, rfl⟩ := assembleAllAppend.mp assembled
  refine ⟨⟨first, one, second ++ rest, by rw [← List.append_assoc, split]⟩, second, two, rest, ?_⟩
  rw [← List.drop_drop, ← split, ← assembleAllLength one]
  simp

theorem storedOne {pool : List Object} {slot : Nat} {c : Constant} (h : Stored pool slot [c]) :
    ∃ object, c.assemble = .ok object ∧ pool[slot]? = some object := by
  obtain ⟨objects, assembled, rest, split⟩ := h
  obtain ⟨object, one, rfl⟩ := assembleAllOne.mp assembled
  refine ⟨object, one, ?_⟩
  have first : (pool.drop slot)[0]? = some object := by rw [← split]; rfl
  simpa using first

end Constant
end ClosureCode
