import ClosureCode.Instruction

/-! The printed form of a byte stream: a line for each instruction from the start,
and a last line with the complaint if the rest cannot be decoded. -/
namespace ClosureCode

/- Decimal, with zeros in front up to four digits. -/
def paddedOffset (offset : Nat) : String :=
  let digits := toString offset
  String.ofList (List.replicate (4 - digits.length) '0') ++ digits

def listingLine (offset : Nat) (i : Instruction) : String :=
  paddedOffset offset ++ " " ++ i.text ++ "\n"

def listingFrom (out : String) (offset : Nat) (bytes : Bytes) : String :=
  match bytes with
  | [] => out
  | first :: rest =>
    match _found : Instruction.decode (first :: rest) with
    | .ok (i, size) => listingFrom (out ++ listingLine offset i) (offset + size) ((first :: rest).drop size)
    | .error e => out ++ "ERROR: " ++ e.message ++ "\n"
termination_by bytes.length
decreasing_by
  have := Instruction.decodePositive _found
  simp only [List.length_drop, List.length_cons]
  omega

def listing (bytes : Bytes) : String := listingFrom "" 0 bytes

theorem listingFromAppend (out : String) (offset : Nat) (bytes : Bytes) :
    listingFrom out offset bytes = out ++ listingFrom "" offset bytes := by
  match bytes with
  | [] => simp [listingFrom]
  | first :: rest =>
      rw [listingFrom, listingFrom]
      split
      · rename_i i size found
        rw [listingFromAppend (out ++ listingLine offset i),
          listingFromAppend ("" ++ listingLine offset i)]
        simp [String.append_assoc]
      · simp [String.append_assoc]
termination_by bytes.length
decreasing_by
  all_goals
    have := Instruction.decodePositive ‹_›
    simp only [List.length_drop, List.length_cons]
    omega

end ClosureCode
