import ClosureCode.Proofs.Boundaries
import ClosureCode.Proofs.Operands
import ClosureCode.Proofs.UniqueDecoding
import Mathlib.Data.List.Nodup

/-! Listings. Any bytes have one: a line for each instruction, as far as decoding gets from their start, and a last
line with the complaint if this is not to their end. The lines of complete code tell which bytes it has. -/
namespace ClosureCode

namespace Instruction

theorem decodeLength {bytes : Bytes} {i : Instruction} {size : Nat} (found : decode bytes = .ok (i, size)) :
    size = i.opcode.length ∧ size ≤ bytes.length := by
  obtain ⟨encoded, inside⟩ := encodeDecode found
  have length := encodeLength encoded
  rw [List.length_take, Nat.min_eq_left inside] at length
  exact ⟨length, inside⟩

theorem decodeLonger {bytes : Bytes} {i : Instruction} {size : Nat} (found : decode bytes = .ok (i, size))
    (rest : Bytes) : decode (bytes ++ rest) = .ok (i, size) := by
  obtain ⟨encoded, inside⟩ := encodeDecode found
  have again := decodeEncode encoded (bytes.drop size ++ rest)
  rw [List.length_take, Nat.min_eq_left inside, ← List.append_assoc, List.take_append_drop] at again
  exact again

/- The instructions that decoding finds from the start on as long as it can, and the bytes that are left. -/
def decodeMost (bytes : Bytes) : List Instruction × Bytes :=
  match _found : decode bytes with
  | .error _ => ([], bytes)
  | .ok (i, size) =>
      let most := decodeMost (bytes.drop size)
      (i :: most.1, most.2)
termination_by bytes.length
decreasing_by
  have positive := decodePositive _found
  have inside := (decodeLength _found).2
  rw [List.length_drop]
  omega

section Scan
variable {bytes front : Bytes} {i : Instruction} {is : List Instruction} {size : Nat} {e : CodeError}

theorem decodeMostStuck (failed : decode bytes = .error e) : decodeMost bytes = ([], bytes) := by
  rw [decodeMost]
  split
  · rfl
  · rename_i i size found
    cases failed.symm.trans found

theorem decodeMostNext (found : decode bytes = .ok (i, size)) :
    decodeMost bytes = (i :: (decodeMost (bytes.drop size)).1, (decodeMost (bytes.drop size)).2) := by
  rw [decodeMost]
  split
  · rename_i e failed
    cases failed.symm.trans found
  · rename_i j n again
    cases found.symm.trans again
    rfl

theorem decodeMostStops (bytes : Bytes) : ∃ e, decode (decodeMost bytes).2 = .error e := by
  induction bytes using decodeMost.induct with
  | case1 bytes e failed =>
      rw [decodeMostStuck failed]
      exact ⟨e, failed⟩
  | case2 bytes i size found ih =>
      rw [decodeMostNext found]
      exact ih

/- What is found, is encoded by the bytes in front of those that are left. -/
theorem decodeMostEncoded (bytes : Bytes) :
    ∃ front, bytes = front ++ (decodeMost bytes).2 ∧ encodeAll (decodeMost bytes).1 = .ok front := by
  induction bytes using decodeMost.induct with
  | case1 bytes e failed =>
      rw [decodeMostStuck failed]
      exact ⟨[], rfl, rfl⟩
  | case2 bytes i size found ih =>
      obtain ⟨front, split, encoded⟩ := ih
      rw [decodeMostNext found]
      have whole : bytes = bytes.take size ++ front ++ (decodeMost (bytes.drop size)).2 := by
        rw [List.append_assoc, ← split, List.take_append_drop]
      exact ⟨_, whole, encodeAllCons.mpr ⟨_, _, (encodeDecode found).1, encoded, rfl⟩⟩

theorem decodeMostBehind (encoded : encodeAll is = .ok front) (rest : Bytes) :
    decodeMost (front ++ rest) = (is ++ (decodeMost rest).1, (decodeMost rest).2) := by
  induction is generalizing front with
  | nil =>
      cases encoded
      rfl
  | cons i is ih =>
      obtain ⟨first, more, head, tail, rfl⟩ := encodeAllCons.mp encoded
      have found := decodeEncode head (more ++ rest)
      rw [List.append_assoc, decodeMostNext found, List.drop_left, ih tail]
      rfl

theorem decodeMostEncodeAll (encoded : encodeAll is = .ok bytes) : decodeMost bytes = (is, []) := by
  have stuck : decodeMost [] = ([], []) := decodeMostStuck rfl
  have most := decodeMostBehind encoded []
  rwa [List.append_nil, stuck, List.append_nil] at most

theorem encodeAllDecodeAll (decoded : decodeAll bytes = .ok is) : encodeAll is = .ok bytes := by
  induction bytes using decodeAll.induct generalizing is with
  | case1 =>
      rw [decodeAll] at decoded
      cases decoded
      rfl
  | case2 first rest e failed =>
      rw [decodeAll] at decoded
      split at decoded
      · cases decoded
      · rename_i i size found
        cases failed.symm.trans found
  | case3 first rest i size found ih =>
      rw [decodeAllCons found] at decoded
      cases later : decodeAll ((first :: rest).drop size) with
      | error e =>
          rw [later] at decoded
          cases decoded
      | ok more =>
          rw [later] at decoded
          cases decoded
          exact encodeAllCons.mpr ⟨_, _, (encodeDecode found).1, ih later, (List.take_append_drop _ _).symm⟩

/- No longer prefix decodes. -/
theorem decodeMostLongest (split : bytes = front ++ (decodeMost bytes).2) {other : Bytes} (shorter : other <+: bytes)
    (encoded : encodeAll is = .ok other) : other <+: front := by
  obtain ⟨rest, rfl⟩ := shorter
  obtain ⟨middle, behind, -⟩ := decodeMostEncoded rest
  have same : other ++ middle ++ (decodeMost rest).2 = front ++ (decodeMost rest).2 := by
    rw [List.append_assoc, ← behind, split, decodeMostBehind encoded]
  exact ⟨middle, List.append_cancel_right same⟩

end Scan
end Instruction

section Longer
variable {code : Bytes} {offset size : Nat} {i : Instruction}

theorem decodeDropLonger (found : Instruction.decode (code.drop offset) = .ok (i, size)) (rest : Bytes) :
    Instruction.decode ((code ++ rest).drop offset) = .ok (i, size) := by
  rw [List.drop_append]
  exact Instruction.decodeLonger found _

theorem Boundary.longer (boundary : Boundary code offset) (rest : Bytes) : Boundary (code ++ rest) offset := by
  induction boundary with
  | start => exact .start
  | next before found ih => exact .next ih (decodeDropLonger found rest)

theorem Stands.longer (stands : Stands code offset i size) (rest : Bytes) : Stands (code ++ rest) offset i size :=
  ⟨stands.boundary.longer rest, decodeDropLonger stands.found rest⟩

end Longer

/- An instruction in a listing. -/
structure Line where
  offset : Nat
  instruction : Instruction
  deriving DecidableEq, Repr

namespace Line

def text (line : Line) : String := paddedOffset line.offset ++ " " ++ line.instruction.text

def shift (n : Nat) (line : Line) : Line := { line with offset := line.offset + n }

end Line

/- The lines of some instructions, of which the first stands at the offset. -/
def linesFrom (offset : Nat) : List Instruction → List Line
  | [] => []
  | i :: rest => ⟨offset, i⟩ :: linesFrom (offset + i.opcode.length) rest

/- The instruction lines in the listing of some bytes. -/
def linesOf (bytes : Bytes) : List Line := linesFrom 0 (Instruction.decodeMost bytes).1

/- What the listing says about bytes that start with no instruction. -/
def complaint : Bytes → List String
  | [] => []
  | first :: rest =>
    match Instruction.decode (first :: rest) with
    | .ok _ => []
    | .error e => ["ERROR: " ++ e.message]

def textOf (lines : List String) : String := String.join (lines.map (· ++ "\n"))

section Lines
open Instruction
variable {is : List Instruction}

theorem linesFromAppend (offset : Nat) (is js : List Instruction) :
    linesFrom offset (is ++ js) = linesFrom offset is ++ linesFrom (offset + extent is) js := by
  induction is generalizing offset with
  | nil => rfl
  | cons i is ih => simp only [List.cons_append, linesFrom, ih, extentCons, Nat.add_assoc]

theorem linesFromShift (offset n : Nat) (is : List Instruction) :
    (linesFrom offset is).map (Line.shift n) = linesFrom (offset + n) is := by
  induction is generalizing offset with
  | nil => rfl
  | cons i is ih => simp only [linesFrom, List.map_cons, ih, Line.shift, Nat.add_right_comm]

theorem linesFromInstructions (offset : Nat) (is : List Instruction) :
    (linesFrom offset is).map Line.instruction = is := by
  induction is generalizing offset with
  | nil => rfl
  | cons i is ih => simp only [linesFrom, List.map_cons, ih]

/- The offset of a line is what the instructions of the earlier lines take up. -/
theorem linesFromOffset {offset : Nat} {before after : List Line} {line : Line}
    (split : linesFrom offset is = before ++ line :: after) :
    line.offset = offset + extent (before.map Line.instruction) := by
  induction is generalizing offset before with
  | nil => exact absurd split.symm (by simp [linesFrom])
  | cons i is ih =>
      cases before with
      | nil =>
          cases split
          rfl
      | cons first before =>
          obtain ⟨rfl, rest⟩ := List.cons.inj split
          rw [ih rest, List.map_cons, extentCons, Nat.add_assoc]

theorem textOfCons (line : String) (lines : List String) : textOf (line :: lines) = line ++ "\n" ++ textOf lines := by
  rw [textOf, List.map_cons, String.join_cons, textOf]

theorem complaintStuck {first : UInt8} {rest : Bytes} {e : CodeError} (failed : decode (first :: rest) = .error e) :
    complaint (first :: rest) = ["ERROR: " ++ e.message] := by
  rw [complaint, failed]

theorem listingFromStuck {bytes : Bytes} {e : CodeError} (failed : decode bytes = .error e) (offset : Nat) :
    listingFrom "" offset bytes = textOf (complaint bytes) := by
  cases bytes with
  | nil =>
      rw [listingFrom]
      rfl
  | cons first rest =>
      rw [listingFrom]
      split
      · rename_i i size found
        cases failed.symm.trans found
      · rename_i again
        rw [complaintStuck again, textOfCons, textOf, List.map_nil, String.join_nil,
          String.append_empty, String.empty_append]

theorem listingFromLines (offset : Nat) (bytes : Bytes) :
    listingFrom "" offset bytes =
      textOf ((linesFrom offset (decodeMost bytes).1).map Line.text ++ complaint (decodeMost bytes).2) := by
  induction bytes using decodeMost.induct generalizing offset with
  | case1 bytes e failed =>
      rw [decodeMostStuck failed]
      exact listingFromStuck failed offset
  | case2 bytes i size found ih =>
      rw [decodeMostNext found, listingFromCons found, ih, (decodeLength found).1]
      simp only [linesFrom, List.map_cons, List.cons_append, textOfCons]
      rfl

end Lines

/- Words that are each followed by a separator. -/
def terminated (sep : Char) (words : List (List Char)) : List Char := words.flatMap (· ++ [sep])

section Words
variable {sep : Char}

theorem cutInjective {word other rest more : List Char} (plain : sep ∉ word) (plain' : sep ∉ other)
    (same : word ++ sep :: rest = other ++ sep :: more) : word = other ∧ rest = more := by
  induction word generalizing other with
  | nil =>
      cases other with
      | nil => exact ⟨rfl, (List.cons.inj same).2⟩
      | cons c other => exact absurd ((List.cons.inj same).1 ▸ List.mem_cons_self) plain'
  | cons c word ih =>
      cases other with
      | nil => exact absurd ((List.cons.inj same).1 ▸ List.mem_cons_self) plain
      | cons d other =>
          obtain ⟨rfl, later⟩ := List.cons.inj same
          obtain ⟨rfl, behind⟩ := ih (fun m => plain (List.mem_cons_of_mem _ m))
            (fun m => plain' (List.mem_cons_of_mem _ m)) later
          exact ⟨rfl, behind⟩

theorem terminatedInjective {words others : List (List Char)} (plain : ∀ word ∈ words, sep ∉ word)
    (plain' : ∀ word ∈ others, sep ∉ word) (same : terminated sep words = terminated sep others) :
    words = others := by
  induction words generalizing others with
  | nil =>
      cases others with
      | nil => rfl
      | cons other others => simp [terminated] at same
  | cons word words ih =>
      cases others with
      | nil => simp [terminated] at same
      | cons other others =>
          simp only [terminated, List.flatMap_cons, List.append_assoc, List.singleton_append] at same
          obtain ⟨first, later⟩ := List.forall_mem_cons.mp plain
          obtain ⟨first', later'⟩ := List.forall_mem_cons.mp plain'
          obtain ⟨rfl, rest⟩ := cutInjective first first' same
          rw [ih later later' rest]

theorem textOfInjective {lines others : List String} (plain : ∀ line ∈ lines, '\n' ∉ line.toList)
    (plain' : ∀ line ∈ others, '\n' ∉ line.toList) (same : textOf lines = textOf others) : lines = others := by
  have terminates : ∀ lines, (textOf lines).toList = terminated '\n' (lines.map String.toList) := by
    intro lines
    simp [textOf, terminated, String.toList_join, List.flatMap_map]
  have alike : lines.map String.toList = others.map String.toList :=
    terminatedInjective (List.forall_mem_map.mpr plain) (List.forall_mem_map.mpr plain')
      (by rw [← terminates, ← terminates, same])
  exact List.map_injective_iff.mpr (fun _ _ => String.toList_inj.mp) alike

end Words

section Characters

theorem numeralDigits (n : Nat) : ∀ c ∈ (toString n).toList, c.isDigit := by
  intro c member
  rw [Nat.toString_eq_ofList_toDigits, String.toList_ofList] at member
  exact Nat.isDigit_of_mem_toDigits (by decide) (by decide) member

theorem numeralInjective {n m : Nat} (same : toString n = toString m) : n = m := by
  rw [Nat.toString_eq_ofList_toDigits, Nat.toString_eq_ofList_toDigits] at same
  have digits := congrArg (Nat.ofDigitChars 10 ·.toList 0) same
  simpa only [String.toList_ofList, Nat.ofDigitChars_toDigits (show 1 < 10 by decide) (Nat.le_refl 10)] using digits

theorem paddedDigits (n : Nat) : ∀ c ∈ (paddedOffset n).toList, c.isDigit := by
  intro c member
  rw [paddedOffset, String.toList_append, String.toList_ofList, List.mem_append] at member
  rcases member with zero | digit
  · rw [List.eq_of_mem_replicate zero]
    rfl
  · exact numeralDigits n c digit

/- The zeros in front do not count. -/
theorem paddedValue (n : Nat) : Nat.ofDigitChars 10 (paddedOffset n).toList 0 = n := by
  have zeros : ∀ k, Nat.ofDigitChars 10 (List.replicate k '0') 0 = 0 := by
    intro k
    induction k with
    | zero => rfl
    | succ k ih => exact ih
  rw [paddedOffset, String.toList_append, String.toList_ofList, Nat.ofDigitChars_append, zeros,
    Nat.toString_eq_ofList_toDigits, String.toList_ofList]
  exact Nat.ofDigitChars_toDigits (by decide) (by decide)

theorem Opcode.nameLetters (op : Opcode) : ∀ c ∈ op.name.toList, c.isAlpha := by
  have all : op.name.toList.all Char.isAlpha = true := by
    cases op <;> rfl
  exact List.all_eq_true.mp all

theorem Opcode.nameInjective {a b : Opcode} (same : a.name = b.name) : a = b := by
  have known : ∀ op : Opcode, op ∈ (List.range 31).filterMap fun n => Opcode.ofByte? (UInt8.ofNat n) := by
    intro op
    cases op <;> decide
  have distinct : (((List.range 31).filterMap fun n => Opcode.ofByte? (UInt8.ofNat n)).map Opcode.name).Nodup := by
    decide +kernel
  exact List.inj_on_of_nodup_map distinct (known a) (known b) same

end Characters

namespace Line

/- The offset, the name and the operands. -/
def words (line : Line) : List (List Char) :=
  (paddedOffset line.offset).toList :: line.instruction.opcode.name.toList ::
    line.instruction.operands.map fun operand => (toString operand).toList

theorem operandsText (operands : List Nat) (out : String) :
    (operands.foldl (fun out operand => out ++ " " ++ toString operand) out).toList ++ [' '] =
      out.toList ++ [' '] ++ terminated ' ' (operands.map fun operand => (toString operand).toList) := by
  induction operands generalizing out with
  | nil => simp [terminated]
  | cons operand operands ih =>
      rw [List.foldl_cons, ih]
      simp [terminated]

theorem textWords (line : Line) : line.text.toList ++ [' '] = terminated ' ' line.words := by
  simp only [text, Instruction.text, String.toList_append, List.append_assoc, operandsText]
  simp [terminated, words]

theorem wordsPlain (line : Line) : ∀ word ∈ line.words, ∀ c ∈ word, c.isAlphanum := by
  have digits : ∀ {word : List Char}, (∀ c ∈ word, c.isDigit) → ∀ c ∈ word, c.isAlphanum :=
    fun known c member => Bool.or_eq_true_iff.mpr (.inr (known c member))
  have offset := digits (paddedDigits line.offset)
  have name : ∀ c ∈ line.instruction.opcode.name.toList, c.isAlphanum :=
    fun c member => Bool.or_eq_true_iff.mpr (.inl (Opcode.nameLetters _ c member))
  have numerals : ∀ operand ∈ line.instruction.operands, ∀ c ∈ (toString operand).toList, c.isAlphanum :=
    fun operand _ => digits (numeralDigits operand)
  exact List.forall_mem_cons.mpr ⟨offset, List.forall_mem_cons.mpr ⟨name, List.forall_mem_map.mpr numerals⟩⟩

theorem wordsSeparate (line : Line) {sep : Char} (other : sep.isAlphanum = false) : ∀ word ∈ line.words, sep ∉ word := by
  intro word member inside
  rw [wordsPlain line word member sep inside] at other
  cases other

/- The offset and the instruction can be read from the text. -/
theorem textInjective {line other : Line} (same : line.text = other.text) : line = other := by
  have words : line.words = other.words :=
    terminatedInjective (wordsSeparate line rfl) (wordsSeparate other rfl) (by rw [← textWords, ← textWords, same])
  obtain ⟨offsets, rest⟩ := List.cons.inj words
  obtain ⟨names, numerals⟩ := List.cons.inj rest
  have offset : line.offset = other.offset := by
    rw [← paddedValue line.offset, offsets, paddedValue]
  have opcode := Opcode.nameInjective (String.toList_inj.mp names)
  have operands := List.map_injective_iff.mpr (fun _ _ numeral => numeralInjective (String.toList_inj.mp numeral)) numerals
  obtain ⟨_, _, _⟩ := line
  obtain ⟨_, _, _⟩ := other
  cases offset
  cases opcode
  cases operands
  rfl

theorem textOneLine (line : Line) : '\n' ∉ line.text.toList := by
  intro inside
  have member : '\n' ∈ terminated ' ' line.words := by
    rw [← textWords]
    exact List.mem_append_left _ inside
  obtain ⟨word, known, within⟩ := List.mem_flatMap.mp member
  rcases List.mem_append.mp within with letter | space
  · exact wordsSeparate line rfl word known letter
  · cases List.mem_singleton.mp space

/- A line starts with an offset, so it is no complaint. -/
theorem textNoComplaint (line : Line) (message : String) : line.text ≠ "ERROR: " ++ message := by
  intro same
  have start : (paddedOffset line.offset).toList ++ ' ' :: line.instruction.text.toList =
      'E' :: ("RROR: ".toList ++ message.toList) := by
    have letters := congrArg String.toList same
    simpa [text] using letters
  have digits := paddedDigits line.offset
  cases padded : (paddedOffset line.offset).toList with
  | nil =>
      rw [padded] at start
      cases start
  | cons c more =>
      rw [padded] at start digits
      cases (List.cons.inj start).1
      exact absurd (digits 'E' List.mem_cons_self) (by decide)

end Line

section Complaints
open Instruction

theorem operandsMissing {op : Opcode} {bytes : Bytes} {e : CodeError} (failed : op.layout.readOperands bytes = .error e) :
    ∃ needed, e = .truncated op.name needed bytes.length := by
  have readable : ∀ w ∈ op.layout.widths, Layout.readable w := fun w member => decide_eq_true (op.widthCases w member)
  have small : Layout.extent op.layout.widths < 2 ^ 64 := by
    cases op <;> decide
  rcases Nat.lt_or_ge bytes.length (Layout.extent op.layout.widths) with few | enough
  · cases failed.symm.trans (Layout.readOperandsTruncated small few)
    exact ⟨_, rfl⟩
  · cases failed.symm.trans (Layout.readOperandsEnough readable enough small)

theorem messageOneLine {bytes : Bytes} {e : CodeError} (failed : decode bytes = .error e) : '\n' ∉ e.message.toList := by
  have numeral : ∀ n, '\n' ∉ Nat.toDigits 10 n :=
    fun n member => absurd (Nat.isDigit_of_mem_toDigits (by decide) (by decide) member) (by decide)
  have name : ∀ op : Opcode, '\n' ∉ op.name.toList := fun op member => absurd (op.nameLetters _ member) (by decide)
  cases bytes with
  | nil =>
      cases failed
      simp [CodeError.message, numeral 1]
  | cons first rest =>
      simp only [decode] at failed
      split at failed
      · cases failed
        simp [CodeError.message, numeral]
      · rename_i op _
        cases read : op.layout.readOperands rest with
        | ok operands =>
            rw [read] at failed
            cases failed
        | error e =>
            obtain ⟨needed, rfl⟩ := operandsMissing read
            rw [read] at failed
            cases failed
            simp [CodeError.message, numeral, name]

/- There is one complaint if bytes are left, and else none. -/
theorem complaintOnce (bytes : Bytes) :
    ((decodeMost bytes).2 = [] ∧ complaint (decodeMost bytes).2 = []) ∨
      (decodeMost bytes).2 ≠ [] ∧ ∃ e, decode (decodeMost bytes).2 = .error e ∧
        complaint (decodeMost bytes).2 = ["ERROR: " ++ e.message] := by
  obtain ⟨e, failed⟩ := decodeMostStops bytes
  cases left : (decodeMost bytes).2 with
  | nil => exact .inl ⟨rfl, rfl⟩
  | cons first rest =>
      rw [left] at failed
      exact .inr ⟨List.cons_ne_nil _ _, e, failed, complaintStuck failed⟩

end Complaints

/- What the listing of some bytes is, which are the longest prefix that decodes and those that are left: a line for each
instruction of the prefix, and one for a complaint just if anything is left. -/
structure Disassembles (bytes front left : Bytes) (complaints : List String) : Prop where
  split : bytes = front ++ left
  decodes : Instruction.decodeAll front = .ok ((linesOf bytes).map Line.instruction)
  longest : ∀ other is, other <+: bytes → Instruction.decodeAll other = .ok is → other <+: front
  offsets : ∀ before line after, linesOf bytes = before ++ line :: after →
    line.offset = Instruction.extent (before.map Line.instruction) ∧
      ∃ size, Stands bytes line.offset line.instruction size
  text : listing bytes = textOf ((linesOf bytes).map Line.text ++ complaints)
  complains : (left = [] ∧ complaints = []) ∨
    left ≠ [] ∧ ∃ e, Instruction.decode left = .error e ∧ complaints = ["ERROR: " ++ e.message]
  differ : ∀ line ∈ linesOf bytes, ∀ message, line.text ≠ "ERROR: " ++ message
  oneLine : ∀ line ∈ (linesOf bytes).map Line.text ++ complaints, '\n' ∉ line.toList

section Listings
open Instruction

theorem linesOfInstructions (bytes : Bytes) : (linesOf bytes).map Line.instruction = (decodeMost bytes).1 :=
  linesFromInstructions 0 _

theorem disassembles {bytes front : Bytes} (split : bytes = front ++ (decodeMost bytes).2)
    (encoded : encodeAll (decodeMost bytes).1 = .ok front) :
    Disassembles bytes front (decodeMost bytes).2 (complaint (decodeMost bytes).2) where
  split := split
  decodes := by
    rw [linesOfInstructions]
    exact decodeAllEncodeAll encoded
  longest _ _ shorter decoded := decodeMostLongest split shorter (encodeAllDecodeAll decoded)
  offsets before line after parts := by
    have offset : line.offset = extent (before.map Line.instruction) := by
      rw [linesFromOffset parts, Nat.zero_add]
    rw [← linesOfInstructions, parts, List.map_append, List.map_cons] at encoded
    have stands := (splitStands encoded).longer (decodeMost bytes).2
    rw [← split, ← offset] at stands
    exact ⟨offset, _, stands⟩
  text := listingFromLines 0 bytes
  complains := complaintOnce bytes
  differ line _ := line.textNoComplaint
  oneLine line member := by
    cases List.mem_append.mp member with
    | inl found =>
        obtain ⟨line, -, rfl⟩ := List.mem_map.mp found
        exact line.textOneLine
    | inr said =>
        cases complaintOnce bytes with
        | inl whole =>
            rw [whole.2] at said
            cases said
        | inr torn =>
            obtain ⟨-, e, failed, one⟩ := torn
            rw [one] at said
            cases List.mem_singleton.mp said
            simp [messageOneLine failed]

theorem linesOfBehind {front : Bytes} {is : List Instruction} (encoded : encodeAll is = .ok front) (rest : Bytes) :
    linesOf (front ++ rest) = linesOf front ++ (linesOf rest).map (Line.shift front.length) := by
  have length : front.length = extent is := encodeAllLength encoded
  simp only [linesOf, decodeMostBehind encoded, decodeMostEncodeAll encoded, linesFromAppend, linesFromShift, length]

theorem listingInjective {bytes other : Bytes} {is js : List Instruction} (encoded : encodeAll is = .ok bytes)
    (encoded' : encodeAll js = .ok other) (same : listing bytes = listing other) : bytes = other := by
  have complete : ∀ {bytes is}, encodeAll is = .ok bytes → listing bytes = textOf ((linesFrom 0 is).map Line.text) := by
    intro bytes is encoded
    have lines := listingFromLines 0 bytes
    rw [decodeMostEncodeAll encoded] at lines
    rw [listing, lines]
    exact congrArg textOf (List.append_nil _)
  have oneLine : ∀ lines : List Line, ∀ line ∈ lines.map Line.text, '\n' ∉ line.toList :=
    fun lines => List.forall_mem_map.mpr fun line _ => line.textOneLine
  have texts : (linesFrom 0 is).map Line.text = (linesFrom 0 js).map Line.text :=
    textOfInjective (oneLine _) (oneLine _) (by rw [← complete encoded, ← complete encoded', same])
  have lines := List.map_injective_iff.mpr (fun _ _ => Line.textInjective) texts
  have instructions : is = js := by
    rw [← linesFromInstructions 0 is, lines, linesFromInstructions]
  subst instructions
  exact Except.ok.inj (encoded.symm.trans encoded')

end Listings

theorem listingExact :
    (∀ bytes, ∃ front left complaints, Disassembles bytes front left complaints) ∧
    (∀ front rest is, Instruction.decodeAll front = .ok is →
      linesOf (front ++ rest) = linesOf front ++ (linesOf rest).map (Line.shift front.length)) ∧
    (∀ bytes other is js, Instruction.decodeAll bytes = .ok is → Instruction.decodeAll other = .ok js →
      listing bytes = listing other → bytes = other) := by
  have faithful : ∀ bytes, ∃ front left complaints, Disassembles bytes front left complaints := by
    intro bytes
    obtain ⟨front, split, encoded⟩ := Instruction.decodeMostEncoded bytes
    exact ⟨front, _, _, disassembles split encoded⟩
  exact ⟨faithful, fun _ rest _ decoded => linesOfBehind (Instruction.encodeAllDecodeAll decoded) rest,
    fun _ _ _ _ decoded decoded' =>
      listingInjective (Instruction.encodeAllDecodeAll decoded) (Instruction.encodeAllDecodeAll decoded')⟩

/- A jump, and behind it a byte that is no opcode. -/
theorem listingExactTorn : Instruction.decodeAll [16, 0, 9] = .ok [⟨.jump, [9]⟩] ∧
    (∃ front left complaints, Disassembles [16, 0, 9, 255] front left complaints) ∧
    linesOf [16, 0, 9, 255] = linesOf [16, 0, 9] ++ (linesOf [255]).map (Line.shift 3) := by
  have decoded : Instruction.decodeAll [16, 0, 9] = .ok [⟨.jump, [9]⟩] := Instruction.decodeAllEncodeAll rfl
  exact ⟨decoded, listingExact.1 _, listingExact.2.1 [16, 0, 9] [255] _ decoded⟩

end ClosureCode
