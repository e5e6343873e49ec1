import ClosureCode.CodeError
import ClosureCode.Opcode

/-! Instructions and their bytes: the opcode, then each operand big-endian in the width
that the layout gives it. -/
namespace ClosureCode

abbrev Bytes := List UInt8

/- A stream of instructions, as it is built and stored. -/
abbrev Code := Array UInt8

def readWord : Bytes → Option Nat
  | high :: low :: _ => some (high.toNat * 256 + low.toNat)
  | _ => none

def readByte : Bytes → Option Nat
  | first :: _ => some first.toNat
  | [] => none

def writeWord (n : Nat) : Bytes := [UInt8.ofNat (n / 256), UInt8.ofNat n]

namespace Layout

def neededBytes (layout : Layout) : Nat := layout.operandSize.toNat

/- The complaint that `bytes` ends before the operands do. -/
def truncated (layout : Layout) (bytes : Bytes) : CodeError :=
  .truncated layout.name layout.neededBytes bytes.length

def required (layout : Layout) (all : Bytes) : Option Nat → Except CodeError Nat
  | some n => .ok n
  | none => .error (layout.truncated all)

/- Reads one field from the start of `bytes`; `all` is what the operands were to be read from. -/
def readField (layout : Layout) (all : Bytes) (width : UInt64) (bytes : Bytes) : Except CodeError Nat :=
  if width = 2 then layout.required all (readWord bytes)
  else if width = 1 then layout.required all (readByte bytes)
  else .error (.unsupportedWidth layout.name width.toNat)

/- A field for each width, with the number of bytes read. -/
def readFields (layout : Layout) (all : Bytes) : List UInt64 → Bytes → Except CodeError (List Nat × Nat)
  | [], _ => .ok ([], 0)
  | width :: widths, bytes => do
      let field ← readField layout all width bytes
      let (fields, size) ← readFields layout all widths (bytes.drop width.toNat)
      .ok (field :: fields, width.toNat + size)

/- Reads the operands from the start of `bytes`. Missing bytes are reported before
a width that cannot be read. -/
def readOperands (layout : Layout) (bytes : Bytes) : Except CodeError (List Nat × Nat) :=
  if (bytes.take layout.neededBytes).length < layout.neededBytes then
    .error (layout.truncated bytes)
  else readFields layout bytes layout.widths bytes

def writeField (name : String) (operand : Nat) (width : UInt64) : Except CodeError Bytes :=
  if width = 2 then
    if operand < 65536 then .ok (writeWord operand) else .error (.operandOverflow name operand 2)
  else if width = 1 then
    if operand < 256 then .ok [UInt8.ofNat operand] else .error (.operandOverflow name operand 1)
  else .error (.unsupportedWidth name width.toNat)

def writeFields (name : String) : List Nat → List UInt64 → Except CodeError Bytes
  | operand :: operands, width :: widths => do
      let field ← writeField name operand width
      let fields ← writeFields name operands widths
      .ok (field ++ fields)
  | _, _ => .ok []

end Layout

structure Instruction where
  opcode : Opcode
  operands : List Nat
  deriving DecidableEq, Repr

namespace Instruction

/- A wrong number of operands is reported before any operand is looked at. -/
def encode (opcode : Opcode) (operands : List Nat) : Except CodeError Bytes :=
  let expected := opcode.widths.length
  if operands.length = expected then do
    let fields ← Layout.writeFields opcode.name operands opcode.widths
    .ok (opcode.byte :: fields)
  else .error (.operandCount opcode.name expected operands.length)

/- The instruction at the start of `bytes`, with its length. -/
def decode : Bytes → Except CodeError (Instruction × Nat)
  | [] => .error (.truncated "<none>" 1 0)
  | first :: rest =>
    match Opcode.ofByte? first with
    | none => .error (.undefinedOpcode first)
    | some opcode => do
        let (operands, size) ← opcode.layout.readOperands rest
        .ok (⟨opcode, operands⟩, 1 + size)

theorem decodePositive {bytes : Bytes} {i : Instruction} {n : Nat} (h : decode bytes = .ok (i, n)) :
    0 < n := by
  cases bytes with
  | nil => simp [decode] at h
  | cons first rest =>
      simp only [decode] at h
      split at h
      · simp at h
      · rename_i opcode _
        cases hr : opcode.layout.readOperands rest with
        | error e => rw [hr] at h; cases h
        | ok fields => rw [hr] at h; cases h; omega

def text (i : Instruction) : String :=
  i.operands.foldl (fun out operand => out ++ " " ++ toString operand) i.opcode.name

end Instruction
end ClosureCode
