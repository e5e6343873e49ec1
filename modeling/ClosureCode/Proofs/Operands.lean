import ClosureCode.Instruction
import Mathlib.Algebra.Ring.Nat

/-! Reading operands, for layouts of any kind. The widths may be any machine words, also such that their sum wraps:
no slice then starts behind the end of the bytes, and what is read are the fields one after the other. -/
namespace ClosureCode

def bigEndian (bytes : Bytes) : Nat := bytes.foldl (fun n byte => n * 256 + byte.toNat) 0

namespace Layout

/- The widths that can be read. -/
def readable (width : UInt64) : Bool := width = 1 ∨ width = 2

/- The bytes of all the operands, counted without wrapping. -/
def extent (widths : List UInt64) : Nat := (widths.map UInt64.toNat).sum

/- The values of the fields at the start of the bytes, one behind the other. -/
def fieldValues : List UInt64 → Bytes → List Nat
  | [], _ => []
  | width :: widths, bytes => bigEndian (bytes.take width.toNat) :: fieldValues widths (bytes.drop width.toNat)

/- The bytes from an offset on. There is no such slice behind the end. -/
def sliceFrom? (bytes : Bytes) (offset : UInt64) : Option Bytes :=
  if offset.toNat ≤ bytes.length then some (bytes.drop offset.toNat) else none

/- The fields from an offset on, with the offset behind them. Each field is read from a slice of all the bytes. -/
def fieldsFrom (layout : Layout) (bytes : Bytes) :
    List UInt64 → UInt64 → Option (Except CodeError (List Nat × UInt64))
  | [], offset => some (.ok ([], offset))
  | width :: widths, offset =>
    if readable width then do
      let slice ← sliceFrom? bytes offset
      match readField layout bytes width slice with
      | .error e => some (.error e)
      | .ok field =>
        let more ← fieldsFrom layout bytes widths (offset + width)
        some (more.map fun (fields, stop) => (field :: fields, stop))
    else some (.error (.unsupportedWidth layout.name width.toNat))

/- The operands, read in machine words. There is no result if a slice is out of range. -/
def operandsInWords (layout : Layout) (bytes : Bytes) : Option (Except CodeError (List Nat × UInt64)) :=
  let needed := layout.size - 1
  if bytes.length < needed.toNat then some (.error (.truncated layout.name needed.toNat bytes.length))
  else layout.fieldsFrom bytes layout.widths 0

section Sizes
variable {layout : Layout} {bytes : Bytes} {widths : List UInt64}

@[simp] theorem extentNil : extent [] = 0 := rfl

@[simp] theorem extentCons (width : UInt64) (widths : List UInt64) :
    extent (width :: widths) = width.toNat + extent widths := by
  simp [extent]

theorem sumWraps (widths : List UInt64) : (widths.foldr (· + ·) 0).toNat = extent widths % 2 ^ 64 := by
  induction widths with
  | nil => rfl
  | cons width widths ih =>
      rw [List.foldr_cons, UInt64.toNat_add, ih, extentCons, Nat.add_mod_mod]

theorem neededWraps (layout : Layout) : layout.neededBytes = extent layout.widths % 2 ^ 64 :=
  sumWraps layout.widths

theorem sizeNeeded (layout : Layout) : layout.size - 1 = layout.operandSize := by
  unfold Layout.size
  rw [UInt64.add_comm, UInt64.add_sub_cancel]

theorem takeShort (n : Nat) (bytes : Bytes) : (bytes.take n).length < n ↔ bytes.length < n := by
  rw [List.length_take]
  omega

end Sizes

section Fields
variable {layout : Layout} {all bytes : Bytes} {width : UInt64} {widths : List UInt64}

theorem readFieldReadable (known : readable width) :
    readField layout all width bytes =
      if width.toNat ≤ bytes.length then .ok (bigEndian (bytes.take width.toNat)) else .error (layout.truncated all) := by
  cases of_decide_eq_true known with
  | inl one =>
      subst one
      cases bytes with
      | nil => rfl
      | cons first rest => simp [readField, readByte, required, bigEndian]
  | inr two =>
      subst two
      cases bytes with
      | nil => rfl
      | cons high rest =>
          cases rest with
          | nil => rfl
          | cons low rest => simp [readField, readWord, required, bigEndian]

theorem readFieldUnreadable (unknown : readable width = false) :
    readField layout all width bytes = .error (.unsupportedWidth layout.name width.toNat) := by
  have other := of_decide_eq_false unknown
  rw [not_or] at other
  simp [readField, other]

theorem readFieldOk {field : Nat} (read : readField layout all width bytes = .ok field) :
    readable width ∧ width.toNat ≤ bytes.length := by
  cases known : readable width with
  | false =>
      rw [readFieldUnreadable known] at read
      cases read
  | true =>
      rw [readFieldReadable known] at read
      split at read
      · rename_i enough
        exact ⟨rfl, enough⟩
      · cases read

theorem readFieldsEnough (known : ∀ w ∈ widths, readable w) (enough : extent widths ≤ bytes.length) :
    readFields layout all widths bytes = .ok (fieldValues widths bytes, extent widths) := by
  induction widths generalizing bytes with
  | nil => rfl
  | cons width widths ih =>
      rw [extentCons] at enough
      have first : width.toNat ≤ bytes.length := by omega
      have rest : extent widths ≤ (bytes.drop width.toNat).length := by
        rw [List.length_drop]
        omega
      have others := ih (fun w member => known w (List.mem_cons_of_mem _ member)) rest
      simp only [readFields, readFieldReadable (known width List.mem_cons_self), if_pos first, others]
      rfl

theorem readFieldsOk {result : List Nat × Nat} (read : readFields layout all widths bytes = .ok result) :
    (∀ w ∈ widths, readable w) ∧ extent widths ≤ bytes.length := by
  induction widths generalizing bytes result with
  | nil => exact ⟨fun w member => (by cases member), Nat.zero_le _⟩
  | cons width widths ih =>
      simp only [readFields] at read
      cases head : readField layout all width bytes with
      | error e =>
          rw [head] at read
          cases read
      | ok field =>
          cases tail : readFields layout all widths (bytes.drop width.toNat) with
          | error e =>
              rw [head, tail] at read
              cases read
          | ok more =>
              obtain ⟨known, first⟩ := readFieldOk head
              obtain ⟨others, rest⟩ := ih tail
              rw [List.length_drop] at rest
              have enough : width.toNat + extent widths ≤ bytes.length := by omega
              exact ⟨List.forall_mem_cons.mpr ⟨known, others⟩, by rwa [extentCons]⟩

/- With bytes for all fields, the first width that cannot be read is reported. -/
theorem readFieldsUnsupported (enough : extent widths ≤ bytes.length)
    (first : widths.find? (!readable ·) = some width) :
    readFields layout all widths bytes = .error (.unsupportedWidth layout.name width.toNat) := by
  induction widths generalizing bytes with
  | nil => cases first
  | cons next widths ih =>
      rw [List.find?_cons] at first
      rw [extentCons] at enough
      cases known : readable next with
      | false =>
          rw [known] at first
          cases first
          simp only [readFields, readFieldUnreadable known]
          rfl
      | true =>
          rw [known] at first
          have here : next.toNat ≤ bytes.length := by omega
          have rest : extent widths ≤ (bytes.drop next.toNat).length := by
            rw [List.length_drop]
            omega
          simp only [readFields, readFieldReadable known, if_pos here, ih rest first]
          rfl

theorem fieldValuesBehind {front : Bytes} (enough : extent widths ≤ front.length) (rest : Bytes) :
    fieldValues widths (front ++ rest) = fieldValues widths front := by
  induction widths generalizing front with
  | nil => rfl
  | cons width widths ih =>
      rw [extentCons] at enough
      have first : width.toNat ≤ front.length := by omega
      have others : extent widths ≤ (front.drop width.toNat).length := by
        rw [List.length_drop]
        omega
      rw [fieldValues, fieldValues, List.take_append_of_le_length first, List.drop_append_of_le_length first, ih others]

/- Offsets stay inside the bytes, far from where they would wrap. -/
theorem fieldsFromReads (short : bytes.length < 2 ^ 63) {offset : UInt64} (inside : offset.toNat ≤ bytes.length) :
    layout.fieldsFrom bytes widths offset =
      some ((readFields layout bytes widths (bytes.drop offset.toNat)).map fun r => (r.1, offset + UInt64.ofNat r.2)) := by
  induction widths generalizing offset with
  | nil =>
      have same : offset + UInt64.ofNat 0 = offset := UInt64.add_zero offset
      simp only [fieldsFrom, readFields, Except.map, same]
  | cons width widths ih =>
      have slice : sliceFrom? bytes offset = some (bytes.drop offset.toNat) := if_pos inside
      cases known : readable width with
      | false => simp only [fieldsFrom, known, Bool.false_eq_true, if_false, readFields, readFieldUnreadable known]; rfl
      | true =>
          simp only [fieldsFrom, known, if_true, slice, readFields, Option.bind_eq_bind, Option.bind_some]
          cases head : readField layout bytes width (bytes.drop offset.toNat) with
          | error e => rfl
          | ok field =>
              have first := (readFieldOk head).2
              rw [List.length_drop] at first
              have next : (offset + width).toNat = offset.toNat + width.toNat := by
                rw [UInt64.toNat_add, Nat.mod_eq_of_lt]
                omega
              have more := @ih (offset + width) (by omega)
              rw [next, ← List.drop_drop] at more
              simp only [more, Option.bind_some]
              cases readFields layout bytes widths ((bytes.drop offset.toNat).drop width.toNat) with
              | error e => rfl
              | ok rest =>
                  have stop : offset + width + UInt64.ofNat rest.2 = offset + UInt64.ofNat (width.toNat + rest.2) := by
                    rw [UInt64.ofNat_add, UInt64.ofNat_toNat, UInt64.add_assoc]
                  show some (Except.ok (field :: rest.1, offset + width + UInt64.ofNat rest.2)) =
                    some (Except.ok (field :: rest.1, offset + UInt64.ofNat (width.toNat + rest.2)))
                  rw [stop]

end Fields

section Operands
variable {layout : Layout} {bytes : Bytes}

theorem neededExtent (small : extent layout.widths < 2 ^ 64) : layout.neededBytes = extent layout.widths := by
  rw [neededWraps, Nat.mod_eq_of_lt small]

/- As many bytes as the operands need, wrapped or not. -/
theorem readOperandsFields (needed : layout.neededBytes ≤ bytes.length) :
    layout.readOperands bytes = readFields layout bytes layout.widths bytes := by
  have enough : ¬ (bytes.take layout.neededBytes).length < layout.neededBytes := by
    rw [takeShort]
    omega
  rw [readOperands, if_neg enough]

theorem readOperandsShort (short : bytes.length < layout.neededBytes) :
    layout.readOperands bytes = .error (layout.truncated bytes) := by
  rw [readOperands, if_pos ((takeShort _ _).mpr short)]

theorem readOperandsEnough (known : ∀ w ∈ layout.widths, readable w) (enough : extent layout.widths ≤ bytes.length)
    (small : extent layout.widths < 2 ^ 64) :
    layout.readOperands bytes = .ok (fieldValues layout.widths bytes, extent layout.widths) := by
  rw [readOperandsFields (by rwa [neededExtent small]), readFieldsEnough known enough]

theorem readOperandsOk {result : List Nat × Nat} (read : layout.readOperands bytes = .ok result) :
    (∀ w ∈ layout.widths, readable w) ∧ extent layout.widths ≤ bytes.length := by
  by_cases short : bytes.length < layout.neededBytes
  · rw [readOperandsShort short] at read
    cases read
  · rw [readOperandsFields (Nat.not_lt.mp short)] at read
    exact readFieldsOk read

theorem readOperandsIff (short : bytes.length < 2 ^ 64) {operands : List Nat} {size : Nat} :
    layout.readOperands bytes = .ok (operands, size) ↔
      (∀ w ∈ layout.widths, readable w) ∧ extent layout.widths ≤ bytes.length ∧
        operands = fieldValues layout.widths bytes ∧ size = extent layout.widths := by
  constructor
  · intro read
    obtain ⟨known, enough⟩ := readOperandsOk read
    rw [readOperandsEnough known enough (by omega)] at read
    cases read
    exact ⟨known, enough, rfl, rfl⟩
  · rintro ⟨known, enough, rfl, rfl⟩
    exact readOperandsEnough known enough (by omega)

theorem readOperandsBehind (short : bytes.length < 2 ^ 64) {result : List Nat × Nat}
    (read : layout.readOperands bytes = .ok result) (rest : Bytes) :
    layout.readOperands (bytes.take (extent layout.widths) ++ rest) = .ok result := by
  obtain ⟨known, enough⟩ := readOperandsOk read
  have small : extent layout.widths < 2 ^ 64 := by omega
  have front : extent layout.widths ≤ (bytes.take (extent layout.widths)).length := by simp [enough]
  have again : extent layout.widths ≤ (bytes.take (extent layout.widths) ++ rest).length := by
    rw [List.length_append]
    omega
  have same := fieldValuesBehind front (bytes.drop (extent layout.widths))
  rw [List.take_append_drop] at same
  rw [readOperandsEnough known again small, fieldValuesBehind front, ← same, ← readOperandsEnough known enough small, read]

theorem readOperandsTruncated (small : extent layout.widths < 2 ^ 64) (few : bytes.length < extent layout.widths) :
    layout.readOperands bytes = .error (.truncated layout.name (extent layout.widths) bytes.length) := by
  rw [readOperandsShort (by rwa [neededExtent small]), Layout.truncated, neededExtent small]

theorem readOperandsUnsupported (small : extent layout.widths < 2 ^ 64) (enough : extent layout.widths ≤ bytes.length)
    {width : UInt64} (first : layout.widths.find? (!readable ·) = some width) :
    layout.readOperands bytes = .error (.unsupportedWidth layout.name width.toNat) := by
  rw [readOperandsFields (by rwa [neededExtent small]), readFieldsUnsupported enough first]

theorem operandsInWordsReads (short : bytes.length < 2 ^ 63) :
    layout.operandsInWords bytes = some ((layout.readOperands bytes).map fun r => (r.1, UInt64.ofNat r.2)) := by
  have needed : (layout.size - 1).toNat = layout.neededBytes := by rw [sizeNeeded, neededBytes]
  simp only [operandsInWords, needed]
  by_cases few : bytes.length < layout.neededBytes
  · rw [readOperandsShort few]
    simp only [if_pos few]
    rfl
  · rw [readOperandsFields (Nat.not_lt.mp few)]
    have reads := @fieldsFromReads layout bytes layout.widths short 0 (Nat.zero_le _)
    simp only [if_neg few, reads, UInt64.toNat_zero, List.drop_zero, UInt64.zero_add]

end Operands
end Layout

open Layout

/- All that reading the operands of a layout from some bytes can do, where the bytes are fewer than half the
machine words. -/
structure ReadsOperands (layout : Layout) (bytes : Bytes) : Prop where
  inRange : layout.operandsInWords bytes =
    some ((layout.readOperands bytes).map fun r => (r.1, UInt64.ofNat r.2))
  succeeds : ∀ operands size, layout.readOperands bytes = .ok (operands, size) ↔
    (∀ w ∈ layout.widths, readable w) ∧ extent layout.widths ≤ bytes.length ∧
      operands = fieldValues layout.widths bytes ∧ size = extent layout.widths
  behind : ∀ result, layout.readOperands bytes = .ok result →
    ∀ rest, layout.readOperands (bytes.take (extent layout.widths) ++ rest) = .ok result
  truncated : 1 + extent layout.widths < 2 ^ 64 → bytes.length < extent layout.widths →
    layout.readOperands bytes = .error (.truncated layout.name (extent layout.widths) bytes.length)
  unsupported : 1 + extent layout.widths < 2 ^ 64 → extent layout.widths ≤ bytes.length →
    ∀ width, layout.widths.find? (!readable ·) = some width →
      layout.readOperands bytes = .error (.unsupportedWidth layout.name width.toNat)

theorem readsOperands (layout : Layout) {bytes : Bytes} (short : bytes.length < 2 ^ 63) :
    ReadsOperands layout bytes where
  inRange := operandsInWordsReads short
  succeeds _ _ := readOperandsIff (by omega)
  behind _ read rest := readOperandsBehind (by omega) read rest
  truncated small few := readOperandsTruncated (by omega) few
  unsupported small enough _ first := readOperandsUnsupported (by omega) enough first

/- The widths add up to 2, with a wrap. The first field is there, and one byte for the second. -/
theorem readsOperandsWrapped : ([7, 7] : Bytes).length < 2 ^ 63 ∧
    ReadsOperands ⟨"Wide", [1, 2, 18446744073709551615]⟩ [7, 7] :=
  ⟨by decide, readsOperands _ (by decide)⟩

end ClosureCode
