import ClosureCode.Instruction
import Mathlib.Algebra.Ring.Nat

/-! Decoding what was encoded gives the instruction back, whatever bytes follow. -/
namespace ClosureCode
namespace Layout

theorem readFieldWriteField (layout : Layout) {name : String} {operand : Nat} {width : UInt64} {field : Bytes}
    (h : writeField name operand width = .ok field) (all rest : Bytes) :
    readField layout all width (field ++ rest) = .ok operand ∧ field.length = width.toNat := by
  unfold writeField at h
  split at h
  · rename_i two
    split at h
    · cases h
      refine ⟨?_, by simp [writeWord, two]⟩
      simp only [readField, two, writeWord, readWord, required, List.cons_append, ite_true]
      congr 1
      simp
      omega
    · cases h
  · split at h
    · rename_i one
      split at h
      · cases h
        refine ⟨?_, by simp [one]⟩
        rename_i small
        simp [readField, one, readByte, required, Nat.mod_eq_of_lt small]
      · cases h
    · cases h

theorem readFieldsWriteFields (layout : Layout) {name : String} {operands : List Nat} {widths : List UInt64}
    {fields : Bytes} (count : operands.length = widths.length)
    (h : writeFields name operands widths = .ok fields) (all rest : Bytes) :
    readFields layout all widths (fields ++ rest) = .ok (operands, fields.length) ∧
      fields.length = (widths.map UInt64.toNat).sum := by
  induction operands generalizing widths fields with
  | nil =>
      cases widths with
      | nil => cases h; exact ⟨rfl, rfl⟩
      | cons width widths => cases count
  | cons operand operands ih =>
      cases widths with
      | nil => cases count
      | cons width widths =>
          simp only [writeFields] at h
          cases head : writeField name operand width with
          | error e => rw [head] at h; cases h
          | ok field =>
              cases tail : writeFields name operands widths with
              | error e => rw [head, tail] at h; cases h
              | ok more =>
                  rw [head, tail] at h
                  cases h
                  obtain ⟨same, size⟩ := readFieldWriteField layout head all (more ++ rest)
                  obtain ⟨others, total⟩ := ih (by simpa using count) tail
                  constructor
                  · simp only [readFields, List.append_assoc, same]
                    rw [← size, List.drop_left]
                    simp only [bind, Except.bind, others]
                    simp
                  · simp [size, total]
end Layout

namespace Instruction

theorem neededSum (op : Opcode) : op.layout.neededBytes = (op.widths.map UInt64.toNat).sum := by
  cases op <;> rfl

theorem decodeEncode {op : Opcode} {operands : List Nat} {bytes : Bytes}
    (h : encode op operands = .ok bytes) (rest : Bytes) :
    decode (bytes ++ rest) = .ok (⟨op, operands⟩, bytes.length) := by
  simp only [encode] at h
  split at h
  · rename_i count
    cases body : Layout.writeFields op.name operands op.widths with
    | error e => rw [body] at h; cases h
    | ok fields =>
        rw [body] at h
        cases h
        obtain ⟨read, size⟩ := Layout.readFieldsWriteFields op.layout count body (fields ++ rest) rest
        have enough : ¬ ((fields ++ rest).take op.layout.neededBytes).length < op.layout.neededBytes := by
          rw [neededSum, ← size]
          simp
        simp only [decode, List.cons_append, Opcode.ofByteByte, Layout.readOperands, if_neg enough]
        change (Layout.readFields op.layout (fields ++ rest) op.widths (fields ++ rest) >>= _) = _
        rw [read]
        simp [bind, Except.bind, Nat.add_comm]
  · cases h

end Instruction
end ClosureCode
