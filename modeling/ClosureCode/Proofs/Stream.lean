import ClosureCode.Instruction.RoundTrip
import ClosureCode.Listing

/-! Whole streams: the bytes of a list of instructions, one after the other, and the
instructions that decoding finds in a stream from its start to its end. -/
namespace ClosureCode

/- What an instruction takes up: its opcode and its operands, whatever these are. -/
def Opcode.length (op : Opcode) : Nat := 1 + (op.widths.map UInt64.toNat).sum

theorem Opcode.lengthPositive (op : Opcode) : 0 < op.length := by
  unfold Opcode.length
  omega

namespace Instruction

theorem encodeLength {op : Opcode} {operands : List Nat} {bytes : Bytes}
    (h : encode op operands = .ok bytes) : bytes.length = op.length := by
  simp only [encode] at h
  split at h
  · rename_i count
    cases body : Layout.writeFields op.name operands op.widths with
    | error e => rw [body] at h; cases h
    | ok fields =>
        rw [body] at h
        cases h
        obtain ⟨_, size⟩ := Layout.readFieldsWriteFields op.layout count body [] []
        simp only [List.length_cons, size, Opcode.length, Nat.add_comm]
  · cases h

def encodeAll : List Instruction → Except CodeError Bytes
  | [] => .ok []
  | i :: rest => do
      let bytes ← encode i.opcode i.operands
      let more ← encodeAll rest
      .ok (bytes ++ more)

theorem encodeAllCons {i : Instruction} {rest : List Instruction} {bytes : Bytes} :
    encodeAll (i :: rest) = .ok bytes ↔
      ∃ first more, encode i.opcode i.operands = .ok first ∧ encodeAll rest = .ok more ∧ bytes = first ++ more := by
  cases first : encode i.opcode i.operands with
  | error e => simp [encodeAll, first, bind, Except.bind]
  | ok a =>
      cases more : encodeAll rest with
      | error e => simp [encodeAll, first, more, bind, Except.bind]
      | ok b => simp [encodeAll, first, more, bind, Except.bind, eq_comm]

theorem encodeAllOne {i : Instruction} {bytes : Bytes} :
    encodeAll [i] = .ok bytes ↔ encode i.opcode i.operands = .ok bytes := by
  rw [encodeAllCons]
  simp [encodeAll]

theorem encodeAllAppend {a b : List Instruction} {bytes : Bytes} :
    encodeAll (a ++ b) = .ok bytes ↔
      ∃ first second, encodeAll a = .ok first ∧ encodeAll b = .ok second ∧ bytes = first ++ second := by
  induction a generalizing bytes with
  | nil => simp [encodeAll]
  | cons i a ih =>
      constructor
      · intro h
        obtain ⟨head, tail, hh, ht, same⟩ := encodeAllCons.mp h
        obtain ⟨first, second, hf, hs, rest⟩ := ih.mp ht
        exact ⟨head ++ first, second, encodeAllCons.mpr ⟨head, first, hh, hf, rfl⟩, hs, by simp [same, rest]⟩
      · rintro ⟨first, second, hf, hs, same⟩
        obtain ⟨head, tail, hh, ht, rest⟩ := encodeAllCons.mp hf
        exact encodeAllCons.mpr ⟨head, tail ++ second, hh, ih.mpr ⟨tail, second, ht, hs, rfl⟩, by simp [same, rest]⟩

theorem encodeAllLength {is : List Instruction} {bytes : Bytes} (h : encodeAll is = .ok bytes) :
    bytes.length = (is.map fun i => i.opcode.length).sum := by
  induction is generalizing bytes with
  | nil => cases h; rfl
  | cons i rest ih =>
      obtain ⟨first, more, hf, hm, same⟩ := encodeAllCons.mp h
      simp [same, encodeLength hf, ih hm]

/- The instructions of a stream that decodes from its start to its very end. -/
def decodeAll (bytes : Bytes) : Except CodeError (List Instruction) :=
  match bytes with
  | [] => .ok []
  | first :: rest =>
    match _found : decode (first :: rest) with
    | .error e => .error e
    | .ok (i, size) => do
        let more ← decodeAll ((first :: rest).drop size)
        .ok (i :: more)
termination_by bytes.length
decreasing_by
  have := decodePositive _found
  simp only [List.length_drop, List.length_cons]
  omega

theorem decodeAllCons {bytes : Bytes} {i : Instruction} {size : Nat} (found : decode bytes = .ok (i, size)) :
    decodeAll bytes = (do let more ← decodeAll (bytes.drop size); .ok (i :: more)) := by
  cases bytes with
  | nil => simp [decode] at found
  | cons first rest =>
      rw [decodeAll]
      split
      · rename_i e failed
        rw [found] at failed
        cases failed
      · rename_i j n again
        rw [found] at again
        cases again
        rfl

theorem decodeAllEncodeAll {is : List Instruction} {bytes : Bytes} (h : encodeAll is = .ok bytes) :
    decodeAll bytes = .ok is := by
  induction is generalizing bytes with
  | nil => cases h; rw [decodeAll]
  | cons i rest ih =>
      obtain ⟨first, more, hf, hm, same⟩ := encodeAllCons.mp h
      subst same
      rw [decodeAllCons (decodeEncode hf more), List.drop_left, ih hm]
      rfl

end Instruction

/- The lines of some instructions, of which the first stands at the offset. -/
def listed (offset : Nat) : List Instruction → String
  | [] => ""
  | i :: rest => listingLine offset i ++ listed (offset + i.opcode.length) rest

theorem listingFromCons {bytes : Bytes} {i : Instruction} {size : Nat} (found : Instruction.decode bytes = .ok (i, size))
    (offset : Nat) :
    listingFrom "" offset bytes = listingLine offset i ++ listingFrom "" (offset + size) (bytes.drop size) := by
  cases bytes with
  | nil => cases found
  | cons first rest =>
      rw [listingFrom]
      split
      · rename_i j n again
        cases found.symm.trans again
        rw [listingFromAppend, String.empty_append]
      · rename_i e failed
        cases found.symm.trans failed

theorem listingEncodeAll {is : List Instruction} {bytes : Bytes} (h : Instruction.encodeAll is = .ok bytes)
    (offset : Nat) : listingFrom "" offset bytes = listed offset is := by
  induction is generalizing bytes offset with
  | nil =>
      cases h
      rw [listingFrom]
      rfl
  | cons i rest ih =>
      obtain ⟨first, more, hf, hm, rfl⟩ := Instruction.encodeAllCons.mp h
      rw [listingFromCons (Instruction.decodeEncode hf more), List.drop_left, ih hm, Instruction.encodeLength hf]
      rfl

/- The stream decodes from its start to its very end, and prints a line for each instruction and no more. -/
def Whole (code : Bytes) : Prop :=
  ∃ is, Instruction.decodeAll code = .ok is ∧ listing code = listed 0 is

theorem encodedWhole {is : List Instruction} {code : Bytes} (h : Instruction.encodeAll is = .ok code) : Whole code :=
  ⟨is, Instruction.decodeAllEncodeAll h, listingEncodeAll h 0⟩

end ClosureCode
