import ClosureCode.Proofs.Symbolic

/-! Paths through a stream, as its bytes are decoded: from an offset execution leads on to the next
instruction, to the target of a jump, or nowhere. In assembled code every path
goes from one symbolic instruction to another. -/
namespace ClosureCode

def Opcode.fallsThrough : Opcode → Bool
  | .jump | .returnValue | .returnNothing => false
  | _ => true

def Opcode.isJump : Opcode → Bool
  | .jump | .jumpUnlessTruthy => true
  | _ => false

/- Executing the instruction at one offset leads to another; a conditional jump leads both ways. -/
inductive Leads (code : Bytes) : Nat → Instruction → Nat → Prop where
  | next {offset i size} (found : Instruction.decode (code.drop offset) = .ok (i, size))
      (falls : i.opcode.fallsThrough) : Leads code offset i (offset + size)
  | jump {offset i size target} (found : Instruction.decode (code.drop offset) = .ok (i, size))
      (jumps : i.opcode.isJump) (goal : i.operands = [target]) : Leads code offset i target

namespace Symbolic

def totalSize (code : List Symbolic) : Nat := (code.map size).sum

@[simp] theorem totalSizeNil : totalSize [] = 0 := rfl

@[simp] theorem totalSizeCons (i : Symbolic) (rest : List Symbolic) :
    totalSize (i :: rest) = i.size + totalSize rest := by
  simp [totalSize]

@[simp] theorem totalSizeAppend (a b : List Symbolic) : totalSize (a ++ b) = totalSize a + totalSize b := by
  simp [totalSize]

/- Jumps are never hidden among the plain instructions. -/
def JumpsNamed (code : List Symbolic) : Prop := ∀ i, .plain i ∈ code → i.opcode.isJump = false

/- The piece of code at an offset, after the marks that stand there. -/
theorem pieceAt (after : List Symbolic) :
    ∃ (labels : List Nat) (rest : List Symbolic), after = labels.map .mark ++ rest ∧
      (rest = [] ∨ ∃ i more, rest = i :: more ∧ 0 < i.size) := by
  induction after with
  | nil => exact ⟨[], [], rfl, .inl rfl⟩
  | cons i after ih =>
      by_cases marked : ∃ label, i = .mark label
      · obtain ⟨label, rfl⟩ := marked
        obtain ⟨labels, rest, rfl, here⟩ := ih
        exact ⟨label :: labels, rest, rfl, here⟩
      · refine ⟨[], i :: after, rfl, .inr ⟨i, after, rfl, ?_⟩⟩
        cases i with
        | plain i => exact i.opcode.lengthPositive
        | jumpUnlessTruthy target => exact Opcode.lengthPositive _
        | jump target => exact Opcode.lengthPositive _
        | mark label => exact absurd ⟨label, rfl⟩ marked

theorem totalSizeMarks (labels : List Nat) : totalSize (labels.map .mark) = 0 := by
  induction labels with
  | nil => rfl
  | cons label rest ih => simpa [size] using ih

section Assembled
variable {place : Nat → Nat} {bytes : Bytes} {before after : List Symbolic}

/- Decoding at the size of what stands before finds the next piece. -/
theorem decodePiece {i : Symbolic}
    (assembled : Instruction.encodeAll (instructions place (before ++ i :: after)) = .ok bytes)
    (solid : 0 < i.size) :
    ∃ j, i.resolved place = [j] ∧ Instruction.decode (bytes.drop (totalSize before)) = .ok (j, i.size) := by
  rw [instructionsAppend] at assembled
  obtain ⟨x, y, hx, hy, rfl⟩ := Instruction.encodeAllAppend.mp assembled
  have one : ∃ j, i.resolved place = [j] ∧ j.opcode.length = i.size := by
    cases i with
    | plain i => exact ⟨i, rfl, rfl⟩
    | jumpUnlessTruthy target => exact ⟨_, rfl, rfl⟩
    | jump target => exact ⟨_, rfl, rfl⟩
    | mark label => cases solid
  obtain ⟨j, single, length⟩ := one
  have split : instructions place (i :: after) = j :: instructions place after := by
    simp [instructions, single]
  rw [split] at hy
  obtain ⟨first, more, hf, hm, rfl⟩ := Instruction.encodeAllCons.mp hy
  refine ⟨j, single, ?_⟩
  rw [totalSize, ← instructionsLength hx, List.drop_left, Instruction.decodeEncode hf,
    Instruction.encodeLength hf, length]

theorem decodeEnd (assembled : Instruction.encodeAll (instructions place before) = .ok bytes) :
    totalSize before = bytes.length := (instructionsLength assembled).symm

end Assembled

/- Where a path can go on after the piece `i`, which stands behind `before`. -/
inductive GoesOn (code : List Symbolic) (before : List Symbolic) : Symbolic → Instruction → Nat → Prop where
  | plain {i} (falls : i.opcode.fallsThrough) :
      GoesOn code before (.plain i) i (totalSize before + (Symbolic.plain i).size)
  | stays {target} : GoesOn code before (.jumpUnlessTruthy target) ⟨.jumpUnlessTruthy, [offset code target]⟩
      (totalSize before + (Symbolic.jumpUnlessTruthy target).size)
  | branches {target} :
      GoesOn code before (.jumpUnlessTruthy target) ⟨.jumpUnlessTruthy, [offset code target]⟩ (offset code target)
  | jumps {target} : GoesOn code before (.jump target) ⟨.jump, [offset code target]⟩ (offset code target)

section Leads
variable {code before after : List Symbolic} {stream : Code} {i : Instruction} {next : Nat}

theorem leadsNowhere (assembled : assemble code = .ok stream) : ¬ Leads stream.toList (totalSize code) i next := by
  have finish : stream.toList.drop (totalSize code) = [] := by
    rw [List.drop_eq_nil_iff]
    exact Nat.le_of_eq (decodeEnd (assembleOk.mp assembled)).symm
  intro leads
  cases leads with
  | next found => rw [finish] at found; cases found
  | jump found => rw [finish] at found; cases found

theorem leadsOn {piece : Symbolic} (assembled : assemble code = .ok stream) (named : JumpsNamed code)
    (split : code = before ++ piece :: after) (solid : 0 < piece.size)
    (leads : Leads stream.toList (totalSize before) i next) :
    GoesOn code before piece i next := by
  have encoded := assembleOk.mp assembled
  rw [split] at encoded
  obtain ⟨j, single, decoded⟩ := decodePiece encoded solid
  rw [← split] at single
  cases leads with
  | next found falls =>
      cases decoded.symm.trans found
      cases piece with
      | plain i => cases single; exact .plain falls
      | jumpUnlessTruthy target => cases single; exact .stays
      | jump target => cases single; cases falls
      | mark label => cases single
  | jump found jumps goal =>
      cases decoded.symm.trans found
      cases piece with
      | plain i =>
          cases single
          rw [named i (by simp [split])] at jumps
          cases jumps
      | jumpUnlessTruthy target => cases single; cases goal; exact .branches
      | jump target => cases single; cases goal; exact .jumps
      | mark label => cases single

end Leads
end Symbolic
end ClosureCode
