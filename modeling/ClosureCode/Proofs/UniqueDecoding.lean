import ClosureCode.Proofs.Stream
import Mathlib.Data.List.Forall2

/-! What can be encoded, and that encoding loses nothing: decoding a stream again and again finds the
instructions that were encoded, whatever bytes follow, and whatever decodes was encoded so. -/
namespace ClosureCode

/- Whether an operand fits in as many bytes as it is given. -/
def Layout.fits (field : Nat × UInt64) : Bool := field.1 < 256 ^ field.2.toNat

namespace Layout

theorem writeFieldOutcome (name : String) (operand : Nat) {width : UInt64} (known : width = 1 ∨ width = 2) :
    (fits (operand, width) ∧ ∃ field, writeField name operand width = .ok field) ∨
      (fits (operand, width) = false ∧
        writeField name operand width = .error (.operandOverflow name operand width.toNat)) := by
  rcases known with rfl | rfl
  · by_cases small : operand < 256
    · exact .inl ⟨by simpa [fits] using small, _, by simp [writeField, small]; rfl⟩
    · exact .inr ⟨by simpa [fits] using small, by simp [writeField, small]⟩
  · have wide : fits (operand, 2) = decide (operand < 65536) := rfl
    by_cases small : operand < 65536
    · exact .inl ⟨by simpa [wide] using small, _, by simp [writeField, small]; rfl⟩
    · exact .inr ⟨by simpa [wide] using small, by simp [writeField, small]⟩

/- The first operand that does not fit is the one that is reported. -/
theorem writeFieldsOutcome (name : String) {operands : List Nat} {widths : List UInt64}
    (count : operands.length = widths.length) (known : ∀ w ∈ widths, w = 1 ∨ w = 2) :
    ((∀ field ∈ operands.zip widths, fits field) ∧ ∃ fields, writeFields name operands widths = .ok fields) ∨
      ∃ operand width, (operands.zip widths).find? (!fits ·) = some (operand, width) ∧
        writeFields name operands widths = .error (.operandOverflow name operand width.toNat) := by
  induction operands generalizing widths with
  | nil => exact .inl ⟨by simp, [], by simp [writeFields]⟩
  | cons operand operands ih =>
      cases widths with
      | nil => cases count
      | cons width widths =>
          rw [List.zip_cons_cons, List.find?_cons]
          simp only [writeFields]
          rcases writeFieldOutcome name operand (known width List.mem_cons_self) with
            ⟨fit, field, written⟩ | ⟨wide, failed⟩
          · rw [fit, written]
            rcases ih (by simpa using count) fun w member => known w (List.mem_cons_of_mem _ member) with
              ⟨all, fields, more⟩ | ⟨first, at', missing, failed⟩
            · exact .inl ⟨by simpa [fit] using all, field ++ fields, by rw [more]; rfl⟩
            · exact .inr ⟨first, at', missing, by rw [failed]; rfl⟩
          · exact .inr ⟨operand, width, by rw [wide]; rfl, by rw [failed]; rfl⟩

/- What was read is what is written again. -/
theorem writeFieldReadField {layout : Layout} {all bytes : Bytes} {width : UInt64} {operand : Nat}
    (read : readField layout all width bytes = .ok operand) (name : String) :
    writeField name operand width = .ok (bytes.take width.toNat) ∧ width.toNat ≤ bytes.length := by
  unfold readField at read
  split at read
  · rename_i two
    subst two
    rcases bytes with _ | ⟨high, _ | ⟨low, rest⟩⟩ <;> cases read
    have first := high.toNat_lt
    have second := low.toNat_lt
    have bound : high.toNat * 256 + low.toNat < 65536 := by omega
    have upper : (high.toNat * 256 + low.toNat) / 256 = high.toNat := by omega
    have lower : UInt8.ofNat (high.toNat * 256 + low.toNat) = low := by
      apply UInt8.toNat_inj.mp
      rw [UInt8.toNat_ofNat']
      omega
    exact ⟨by simp [writeField, bound, writeWord, upper, lower], by simp⟩
  · split at read
    · rename_i one
      subst one
      rcases bytes with _ | ⟨first, rest⟩ <;> cases read
      exact ⟨by simp [writeField, first.toNat_lt], by simp⟩
    · cases read

theorem writeFieldsReadFields {layout : Layout} {all bytes : Bytes} {widths : List UInt64} {operands : List Nat}
    {size : Nat} (read : readFields layout all widths bytes = .ok (operands, size)) (name : String) :
    operands.length = widths.length ∧ writeFields name operands widths = .ok (bytes.take size) ∧
      size ≤ bytes.length := by
  induction widths generalizing bytes operands size with
  | nil =>
      cases read
      exact ⟨rfl, by simp [writeFields], Nat.zero_le _⟩
  | cons width widths ih =>
      simp only [readFields] at read
      cases head : readField layout all width bytes with
      | error e => rw [head] at read; cases read
      | ok operand =>
          cases tail : readFields layout all widths (bytes.drop width.toNat) with
          | error e => rw [head, tail] at read; cases read
          | ok more =>
              rw [head, tail] at read
              cases read
              obtain ⟨field, inside⟩ := writeFieldReadField head name
              obtain ⟨count, fields, rest⟩ := ih tail
              rw [List.length_drop] at rest
              refine ⟨congrArg (· + 1) count, ?_, by omega⟩
              simp only [writeFields, field, fields, List.take_add]
              rfl

end Layout

namespace Instruction

/- Why an instruction cannot be encoded. Of several operands that do not fit, the first is at fault. -/
inductive Refused (op : Opcode) (operands : List Nat) : CodeError → Prop where
  | count (other : operands.length ≠ op.widths.length) :
      Refused op operands (.operandCount op.name op.widths.length operands.length)
  | overflow {operand width} (count : operands.length = op.widths.length)
      (first : (operands.zip op.widths).find? (!Layout.fits ·) = some (operand, width)) :
      Refused op operands (.operandOverflow op.name operand width.toNat)

/- The operands are as many as the opcode has, and each fits in its field. -/
def Fits (op : Opcode) (operands : List Nat) : Prop :=
  operands.length = op.widths.length ∧ ∀ field ∈ operands.zip op.widths, Layout.fits field

theorem encodeOutcome (op : Opcode) (operands : List Nat) :
    (Fits op operands ∧ ∃ bytes, encode op operands = .ok bytes) ∨
      ∃ e, Refused op operands e ∧ encode op operands = .error e := by
  unfold encode
  by_cases count : operands.length = op.widths.length
  · rcases Layout.writeFieldsOutcome op.name count op.widthCases with
      ⟨all, fields, written⟩ | ⟨operand, width, first, failed⟩
    · exact .inl ⟨⟨count, all⟩, op.byte :: fields, by simp only [count, written]; rfl⟩
    · exact .inr ⟨_, .overflow count first, by simp only [count, failed]; rfl⟩
  · exact .inr ⟨_, .count count, by simp [count]⟩

theorem Refused.notFits {op : Opcode} {operands : List Nat} {e : CodeError} (h : Refused op operands e) :
    ¬ Fits op operands := by
  rintro ⟨count, all⟩
  cases h with
  | count other => exact other count
  | overflow _ first =>
      have wide := List.find?_some first
      rw [all _ (List.mem_of_find?_eq_some first)] at wide
      cases wide

theorem Refused.unique {op : Opcode} {operands : List Nat} {e e' : CodeError} (h : Refused op operands e)
    (h' : Refused op operands e') : e = e' := by
  cases h with
  | count other =>
      cases h' with
      | count _ => rfl
      | overflow count _ => exact absurd count other
  | overflow count first =>
      cases h' with
      | count other => exact absurd count other
      | overflow _ first' =>
          cases first.symm.trans first'
          rfl

theorem encodeFits (op : Opcode) (operands : List Nat) :
    (∃ bytes, encode op operands = .ok bytes) ↔ Fits op operands := by
  rcases encodeOutcome op operands with ⟨fits, encoded⟩ | ⟨e, refused, failed⟩
  · exact ⟨fun _ => fits, fun _ => encoded⟩
  · exact ⟨fun ⟨bytes, encoded⟩ => (by cases failed.symm.trans encoded), fun fits => absurd fits refused.notFits⟩

theorem encodeRefused (op : Opcode) (operands : List Nat) (e : CodeError) :
    encode op operands = .error e ↔ Refused op operands e := by
  rcases encodeOutcome op operands with ⟨fits, bytes, encoded⟩ | ⟨e', refused, failed⟩
  · exact ⟨fun failed => (by cases failed.symm.trans encoded), fun refused => absurd fits refused.notFits⟩
  · constructor
    · intro again
      cases failed.symm.trans again
      exact refused
    · intro refused'
      rw [failed, refused.unique refused']

/- What decodes was encoded so. -/
theorem encodeDecode {bytes : Bytes} {i : Instruction} {size : Nat} (h : decode bytes = .ok (i, size)) :
    encode i.opcode i.operands = .ok (bytes.take size) ∧ size ≤ bytes.length := by
  cases bytes with
  | nil => cases h
  | cons first rest =>
      simp only [decode] at h
      split at h
      · cases h
      · rename_i op known
        simp only [Layout.readOperands] at h
        split at h
        · cases h
        · cases read : Layout.readFields op.layout rest op.widths rest with
          | error e =>
              rw [show op.layout.widths = op.widths from rfl, read] at h
              cases h
          | ok fields =>
              rw [show op.layout.widths = op.widths from rfl, read] at h
              cases h
              obtain ⟨count, written, inside⟩ := Layout.writeFieldsReadFields read op.name
              refine ⟨?_, by simp only [List.length_cons]; omega⟩
              rw [Nat.add_comm, List.take_succ_cons, ← Opcode.byteOfByte known]
              simp only [encode, count, written]
              rfl

/- The first `n` instructions with their lengths, and the bytes behind them. -/
def decodeFirst : Nat → Bytes → Except CodeError (List (Instruction × Nat) × Bytes)
  | 0, bytes => .ok ([], bytes)
  | n + 1, bytes => do
      let (i, size) ← decode bytes
      let (more, rest) ← decodeFirst n (bytes.drop size)
      .ok ((i, size) :: more, rest)

theorem decodeFirstSucc {n : Nat} {bytes : Bytes} {found : List (Instruction × Nat)} {rest : Bytes} :
    decodeFirst (n + 1) bytes = .ok (found, rest) ↔ ∃ i size more, decode bytes = .ok (i, size) ∧
      decodeFirst n (bytes.drop size) = .ok (more, rest) ∧ found = (i, size) :: more := by
  simp only [decodeFirst]
  cases first : decode bytes with
  | error e => simp [bind, Except.bind]
  | ok one =>
      obtain ⟨i, size⟩ := one
      cases later : decodeFirst n (bytes.drop size) with
      | error e => simp [bind, Except.bind, later]
      | ok others => simp [bind, Except.bind, later, Prod.ext_iff, and_comm, eq_comm]

/- The bytes of an instruction that is found with its length. -/
def Encodes (found : Instruction × Nat) (part : Bytes) : Prop :=
  encode found.1.opcode found.1.operands = .ok part ∧ found.2 = part.length

theorem decodeFirstIff {n : Nat} {bytes rest : Bytes} {found : List (Instruction × Nat)} :
    decodeFirst n bytes = .ok (found, rest) ↔
      found.length = n ∧ ∃ parts, List.Forall₂ Encodes found parts ∧ bytes = parts.flatten ++ rest := by
  induction n generalizing bytes found with
  | zero =>
      constructor
      · intro h
        cases h
        exact ⟨rfl, [], .nil, rfl⟩
      · rintro ⟨none, parts, all, rfl⟩
        obtain rfl := List.length_eq_zero_iff.mp none
        cases all
        rfl
  | succ n ih =>
      rw [decodeFirstSucc]
      constructor
      · rintro ⟨i, size, more, first, later, rfl⟩
        obtain ⟨encoded, inside⟩ := encodeDecode first
        obtain ⟨rfl, parts, others, behind⟩ := ih.mp later
        refine ⟨rfl, bytes.take size :: parts, .cons ⟨encoded, ?_⟩ others, ?_⟩
        · simp [inside]
        · rw [List.flatten_cons, List.append_assoc, ← behind, List.take_append_drop]
      · rintro ⟨count, parts, all, rfl⟩
        cases all with
        | nil => cases count
        | @cons one part more parts first others =>
            obtain ⟨⟨op, operands⟩, size⟩ := one
            obtain ⟨encoded, rfl⟩ := first
            refine ⟨_, _, more, ?_, ih.mpr ⟨Nat.succ.inj count, parts, others, ?_⟩, rfl⟩
            · rw [List.flatten_cons, List.append_assoc]
              exact decodeEncode encoded _
            · simp

theorem encodeAllInjective {is js : List Instruction} {bytes : Bytes} (h : encodeAll is = .ok bytes)
    (h' : encodeAll js = .ok bytes) : is = js :=
  Except.ok.inj ((decodeAllEncodeAll h).symm.trans (decodeAllEncodeAll h'))

end Instruction

open Instruction in
theorem encodingExact :
    (∀ op operands, (∃ bytes, encode op operands = .ok bytes) ↔ Fits op operands) ∧
    (∀ op operands e, encode op operands = .error e ↔ Refused op operands e) ∧
    (∀ n bytes found rest, decodeFirst n bytes = .ok (found, rest) ↔
      found.length = n ∧ ∃ parts, List.Forall₂ Encodes found parts ∧ bytes = parts.flatten ++ rest) ∧
    (∀ bytes i size, decode bytes = .ok (i, size) →
      encode i.opcode i.operands = .ok (bytes.take size) ∧ size ≤ bytes.length) ∧
    (∀ is js bytes, encodeAll is = .ok bytes → encodeAll js = .ok bytes → is = js) :=
  ⟨encodeFits, encodeRefused, fun _ _ _ _ => decodeFirstIff, fun _ _ _ => encodeDecode, fun _ _ _ => encodeAllInjective⟩

end ClosureCode
