import ClosureCode.Object
import ClosureCode.Proofs.Stream

/-! Symbolic code: operands are any numbers and a jump names a label. The label stands at
one mark of the same stream; assembling writes the offset of that mark into the jump. -/
namespace ClosureCode

inductive Symbolic where
  | plain (instruction : Instruction)
  | jumpUnlessTruthy (target : Nat)
  | jump (target : Nat)
  | mark (label : Nat)
  deriving DecidableEq, Repr

namespace Symbolic

def op (opcode : Opcode) (operands : List Nat) : Symbolic := .plain ⟨opcode, operands⟩

/- The instruction that is encoded, with `place` for the labels; a mark leaves no trace. -/
def resolved (place : Nat → Nat) : Symbolic → List Instruction
  | .plain i => [i]
  | .jumpUnlessTruthy target => [⟨.jumpUnlessTruthy, [place target]⟩]
  | .jump target => [⟨.jump, [place target]⟩]
  | .mark _ => []

def instructions (place : Nat → Nat) (code : List Symbolic) : List Instruction :=
  code.flatMap (resolved place)

def size : Symbolic → Nat
  | .plain i => i.opcode.length
  | .jumpUnlessTruthy _ => Opcode.jumpUnlessTruthy.length
  | .jump _ => Opcode.jump.length
  | .mark _ => 0

def advance (offset : Nat) (i : Symbolic) : Nat := offset + i.size

theorem instructionsAppend (place : Nat → Nat) (a b : List Symbolic) :
    instructions place (a ++ b) = instructions place a ++ instructions place b := by
  simp [instructions]

theorem advanceAll (code : List Symbolic) (offset : Nat) :
    code.foldl advance offset = offset + (code.map size).sum := by
  induction code generalizing offset with
  | nil => rfl
  | cons i rest ih => simp [ih, advance, Nat.add_assoc]

theorem instructionsLength {place : Nat → Nat} {code : List Symbolic} {bytes : Bytes}
    (h : Instruction.encodeAll (instructions place code) = .ok bytes) : bytes.length = (code.map size).sum := by
  rw [Instruction.encodeAllLength h]
  clear h
  induction code with
  | nil => rfl
  | cons i rest ih =>
      have head : ((resolved place i).map fun i => i.opcode.length).sum = i.size := by
        cases i <;> simp [resolved, size]
      simp only [instructions, List.flatMap_cons, List.map_append, List.sum_append, List.map_cons,
        List.sum_cons, head] at ih ⊢
      rw [ih]

def marks (code : List Symbolic) : List Nat :=
  code.filterMap fun | .mark label => some label | _ => none

@[simp] theorem marksNil : marks [] = [] := rfl

@[simp] theorem marksMark (label : Nat) (rest : List Symbolic) :
    marks (.mark label :: rest) = label :: marks rest := rfl

@[simp] theorem marksPlain (i : Instruction) (rest : List Symbolic) : marks (.plain i :: rest) = marks rest := rfl

@[simp] theorem marksJumpUnlessTruthy (target : Nat) (rest : List Symbolic) :
    marks (.jumpUnlessTruthy target :: rest) = marks rest := rfl

@[simp] theorem marksJump (target : Nat) (rest : List Symbolic) : marks (.jump target :: rest) = marks rest := rfl

@[simp] theorem marksAppend (a b : List Symbolic) : marks (a ++ b) = marks a ++ marks b := List.filterMap_append

def targets (code : List Symbolic) : List Nat :=
  code.filterMap fun | .jumpUnlessTruthy target | .jump target => some target | _ => none

theorem targetsAppend (a b : List Symbolic) : targets (a ++ b) = targets a ++ targets b := List.filterMap_append

/- No label has two marks, and no jump goes to a label without one. -/
structure WellLabelled (code : List Symbolic) : Prop where
  once : (marks code).Nodup
  marked : ∀ target ∈ targets code, target ∈ marks code

/- A quantity is carried along the code, `step` by `step`; a label has the value that
the quantity takes at its mark. The offset is one such quantity. -/
section Scan
variable {α : Type} (step : α → Symbolic → α)

def placeOf (label : Nat) : α → List Symbolic → α
  | a, [] => a
  | a, i :: rest => if i = .mark label then a else placeOf label (step a i) rest

def Placed (place : Nat → α) : α → List Symbolic → Prop
  | _, [] => True
  | a, i :: rest => (∀ label, i = .mark label → place label = a) ∧ Placed place (step a i) rest

variable {step}

theorem placedAppend {place : Nat → α} {a : α} {x y : List Symbolic} :
    Placed step place a (x ++ y) ↔ Placed step place a x ∧ Placed step place (x.foldl step a) y := by
  induction x generalizing a with
  | nil => simp [Placed]
  | cons i x ih => simp [Placed, ih, and_assoc]

theorem placedCongr {place place' : Nat → α} {code : List Symbolic} {a : α}
    (same : ∀ label ∈ marks code, place label = place' label) (h : Placed step place a code) :
    Placed step place' a code := by
  induction code generalizing a with
  | nil => trivial
  | cons i rest ih =>
      refine ⟨?_, ih (fun label member => same label ?_) h.2⟩
      · intro label here
        rw [← same label (by simp [here])]
        exact h.1 label here
      · cases i <;> simp [member]

theorem placedSelf {code : List Symbolic} (nodup : (marks code).Nodup) (a : α) :
    Placed step (fun label => placeOf step label a code) a code := by
  induction code generalizing a with
  | nil => trivial
  | cons i rest ih =>
      refine ⟨fun label here => by simp [placeOf, here], ?_⟩
      have tail : (marks rest).Nodup := by
        cases i <;> simp_all
      refine placedCongr (fun label member => ?_) (ih tail (step a i))
      have other : i ≠ .mark label := by
        rintro rfl
        exact (List.nodup_cons.mp nodup).1 member
      simp [placeOf, other]

end Scan

/- Whatever is carried along, a label has its value at the same place of the code. -/
theorem placeSplit (label : Nat) (code : List Symbolic) :
    ∃ before after, code = before ++ after ∧ (label ∈ marks code → ∃ more, after = .mark label :: more) ∧
      ∀ {α : Type} (step : α → Symbolic → α) (a : α), placeOf step label a code = before.foldl step a := by
  induction code with
  | nil => exact ⟨[], [], rfl, fun member => (by cases member), fun step a => rfl⟩
  | cons i rest ih =>
      by_cases here : i = .mark label
      · exact ⟨[], i :: rest, rfl, fun _ => ⟨rest, by rw [here]⟩, fun step a => by simp [placeOf, here]⟩
      · obtain ⟨before, after, rfl, marked, place⟩ := ih
        refine ⟨i :: before, after, rfl, fun member => marked ?_, fun step a => by simp [placeOf, here, place]⟩
        cases i <;> simp_all [eq_comm]

/- Both arms of a conditional, after its condition: a label for the second and one for the end. -/
def conditional (label : Nat) (a b : List Symbolic) : List Symbolic :=
  [.jumpUnlessTruthy label] ++ a ++ [.jump (label + 1), .mark label] ++ b ++ [.mark (label + 1)]

theorem placedConditional {α : Type} {step : α → Symbolic → α} {place : Nat → α} {label : Nat}
    {a b : List Symbolic} {q : α}
    (h : Placed step place q (conditional label a b)) :
    let first := step q (.jumpUnlessTruthy label)
    let second := step (a.foldl step first) (.jump (label + 1))
    let last := b.foldl step (step second (.mark label))
    Placed step place first a ∧ place label = second ∧ Placed step place (step second (.mark label)) b ∧
      place (label + 1) = last := by
  simp only [conditional, placedAppend, List.foldl_append, List.foldl_cons, List.foldl_nil] at h
  obtain ⟨⟨⟨⟨_, inA⟩, _, here, _⟩, inB⟩, finish, _⟩ := h
  exact ⟨inA, here label rfl, inB, finish (label + 1) rfl⟩

theorem instructionsPlain (place : Nat → Nat) (is : List Instruction) : instructions place (is.map .plain) = is := by
  induction is with
  | nil => rfl
  | cons i rest ih => simpa [instructions, resolved] using ih

theorem instructionsConditional (place : Nat → Nat) (label : Nat) (a b : List Symbolic) :
    instructions place (conditional label a b) =
      [⟨.jumpUnlessTruthy, [place label]⟩] ++ instructions place a ++ [⟨.jump, [place (label + 1)]⟩] ++ instructions place b := by
  simp [conditional, instructions, resolved]

theorem encodeConditional {place : Nat → Nat} {label : Nat} {a b : List Symbolic} {bytes : Bytes} :
    Instruction.encodeAll (instructions place (conditional label a b)) = .ok bytes ↔
      ∃ toSecond first toEnd second, Instruction.encode .jumpUnlessTruthy [place label] = .ok toSecond ∧
        Instruction.encodeAll (instructions place a) = .ok first ∧
        Instruction.encode .jump [place (label + 1)] = .ok toEnd ∧
        Instruction.encodeAll (instructions place b) = .ok second ∧
        bytes = toSecond ++ first ++ toEnd ++ second := by
  simp only [instructionsConditional, Instruction.encodeAllAppend, Instruction.encodeAllOne]
  constructor
  · rintro ⟨_, second, ⟨_, toEnd, ⟨toSecond, first, h₁, h₂, rfl⟩, h₃, rfl⟩, h₄, rfl⟩
    exact ⟨toSecond, first, toEnd, second, h₁, h₂, h₃, h₄, rfl⟩
  · rintro ⟨toSecond, first, toEnd, second, h₁, h₂, h₃, h₄, rfl⟩
    exact ⟨_, second, ⟨_, toEnd, ⟨toSecond, first, h₁, h₂, rfl⟩, h₃, rfl⟩, h₄, rfl⟩

def offset (code : List Symbolic) (label : Nat) : Nat := placeOf advance label 0 code

def assemble (code : List Symbolic) : Except CodeError Code := do
  let bytes ← Instruction.encodeAll (instructions (offset code) code)
  .ok bytes.toArray

theorem assembleOk {code : List Symbolic} {stream : Code} :
    assemble code = .ok stream ↔ Instruction.encodeAll (instructions (offset code) code) = .ok stream.toList := by
  unfold assemble
  cases Instruction.encodeAll (instructions (offset code) code) with
  | error e => simp [bind, Except.bind]
  | ok bytes => simp [bind, Except.bind, ← Array.toList_inj]

end Symbolic

inductive Constant where
  | integer (value : Int64)
  | string (value : String)
  | function (code : List Symbolic) (locals parameters : Nat)

def Constant.assemble : Constant → Except CodeError Object
  | .integer value => .ok (.integer value)
  | .string value => .ok (.string value)
  | .function code locals parameters => do
      let code ← Symbolic.assemble code
      .ok (.compiled ⟨code, locals, parameters⟩)

namespace Constant

theorem assembleFunction {code : List Symbolic} {locals parameters : Nat} {object : Object} :
    (Constant.function code locals parameters).assemble = .ok object ↔
      ∃ stream, Symbolic.assemble code = .ok stream ∧ object = .compiled ⟨stream, locals, parameters⟩ := by
  cases assembled : Symbolic.assemble code <;> simp [assemble, assembled, bind, Except.bind, eq_comm]

def assembleAll : List Constant → Except CodeError (List Object)
  | [] => .ok []
  | c :: rest => do
      let object ← c.assemble
      let more ← assembleAll rest
      .ok (object :: more)

theorem assembleAllCons {c : Constant} {rest : List Constant} {objects : List Object} :
    assembleAll (c :: rest) = .ok objects ↔
      ∃ first more, c.assemble = .ok first ∧ assembleAll rest = .ok more ∧ objects = first :: more := by
  cases first : c.assemble with
  | error e => simp [assembleAll, first, bind, Except.bind]
  | ok a =>
      cases more : assembleAll rest with
      | error e => simp [assembleAll, first, more, bind, Except.bind]
      | ok b => simp [assembleAll, first, more, bind, Except.bind, eq_comm]

theorem assembleAllOne {c : Constant} {objects : List Object} :
    assembleAll [c] = .ok objects ↔ ∃ object, c.assemble = .ok object ∧ objects = [object] := by
  rw [assembleAllCons]
  simp [assembleAll]

theorem assembleAllAppend {a b : List Constant} {objects : List Object} :
    assembleAll (a ++ b) = .ok objects ↔
      ∃ first second, assembleAll a = .ok first ∧ assembleAll b = .ok second ∧ objects = first ++ second := by
  induction a generalizing objects with
  | nil => simp [assembleAll]
  | cons c a ih =>
      constructor
      · intro h
        obtain ⟨head, tail, hh, ht, same⟩ := assembleAllCons.mp h
        obtain ⟨first, second, hf, hs, rest⟩ := ih.mp ht
        exact ⟨head :: first, second, assembleAllCons.mpr ⟨head, first, hh, hf, rfl⟩, hs, by simp [same, rest]⟩
      · rintro ⟨first, second, hf, hs, same⟩
        obtain ⟨head, tail, hh, ht, rest⟩ := assembleAllCons.mp hf
        exact assembleAllCons.mpr ⟨head, tail ++ second, hh, ih.mpr ⟨tail, second, ht, hs, rfl⟩, by simp [same, rest]⟩

end Constant

/- What one part of a program adds: code for the stream at hand, and constants for the pool. -/
structure Lowered where
  code : List Symbolic
  constants : List Constant

namespace Lowered

def WellLabelled (l : Lowered) : Prop :=
  Symbolic.WellLabelled l.code ∧
    ∀ code locals parameters, .function code locals parameters ∈ l.constants → Symbolic.WellLabelled code

instance : Append Lowered := ⟨fun a b => ⟨a.code ++ b.code, a.constants ++ b.constants⟩⟩

@[simp] theorem codeAppend (a b : Lowered) : (a ++ b).code = a.code ++ b.code := rfl

@[simp] theorem constantsAppend (a b : Lowered) : (a ++ b).constants = a.constants ++ b.constants := rfl

theorem appendAssoc (a b c : Lowered) : a ++ b ++ c = a ++ (b ++ c) := by
  show (⟨_, _⟩ : Lowered) = ⟨_, _⟩
  simp

end Lowered
end ClosureCode
