/-! The instruction set. Each opcode has one byte and one layout: its printed name and
the width in bytes of each operand. -/
namespace ClosureCode

/- An instruction's name and its operand widths. Sizes are machine words, so sums wrap. -/
structure Layout where
  name : String
  widths : List UInt64
  deriving DecidableEq, Repr

def Layout.operandSize (layout : Layout) : UInt64 := layout.widths.foldr (· + ·) 0

def Layout.size (layout : Layout) : UInt64 := 1 + layout.operandSize

inductive Opcode where
  | constant
  | pop
  | pushTrue
  | pushFalse
  | pushNull
  | add
  | subtract
  | multiply
  | divide
  | equal
  | notEqual
  | greater
  | less
  | negate
  | not
  | jumpUnlessTruthy
  | jump
  | getGlobal
  | setGlobal
  | getLocal
  | setLocal
  | getBuiltin
  | getFree
  | array
  | hash
  | index
  | call
  | returnValue
  | returnNothing
  | closure
  | currentClosure
  deriving DecidableEq, Repr

namespace Opcode

def byte : Opcode → UInt8
  | constant => 0
  | pop => 1
  | pushTrue => 2
  | pushFalse => 3
  | pushNull => 4
  | add => 5
  | subtract => 6
  | multiply => 7
  | divide => 8
  | equal => 9
  | notEqual => 10
  | greater => 11
  | less => 12
  | negate => 13
  | not => 14
  | jumpUnlessTruthy => 15
  | jump => 16
  | getGlobal => 17
  | setGlobal => 18
  | getLocal => 19
  | setLocal => 20
  | getBuiltin => 21
  | getFree => 22
  | array => 23
  | hash => 24
  | index => 25
  | call => 26
  | returnValue => 27
  | returnNothing => 28
  | closure => 29
  | currentClosure => 30

def ofByte? : UInt8 → Option Opcode
  | 0 => some constant
  | 1 => some pop
  | 2 => some pushTrue
  | 3 => some pushFalse
  | 4 => some pushNull
  | 5 => some add
  | 6 => some subtract
  | 7 => some multiply
  | 8 => some divide
  | 9 => some equal
  | 10 => some notEqual
  | 11 => some greater
  | 12 => some less
  | 13 => some negate
  | 14 => some not
  | 15 => some jumpUnlessTruthy
  | 16 => some jump
  | 17 => some getGlobal
  | 18 => some setGlobal
  | 19 => some getLocal
  | 20 => some setLocal
  | 21 => some getBuiltin
  | 22 => some getFree
  | 23 => some array
  | 24 => some hash
  | 25 => some index
  | 26 => some call
  | 27 => some returnValue
  | 28 => some returnNothing
  | 29 => some closure
  | 30 => some currentClosure
  | _ => none

theorem ofByteByte (op : Opcode) : ofByte? op.byte = some op := by
  cases op <;> rfl

theorem byteOfByte {b : UInt8} {op : Opcode} (h : ofByte? b = some op) : op.byte = b := by
  unfold ofByte? at h
  split at h <;> simp_all [byte] <;> subst h <;> rfl

theorem byteInjective {a b : Opcode} (h : a.byte = b.byte) : a = b := by
  have := ofByteByte a
  rw [h, ofByteByte] at this
  exact (Option.some.inj this).symm

def layout : Opcode → Layout
  | constant => ⟨"OpConstant", [2]⟩
  | pop => ⟨"OpPop", []⟩
  | pushTrue => ⟨"OpTrue", []⟩
  | pushFalse => ⟨"OpFalse", []⟩
  | pushNull => ⟨"OpNull", []⟩
  | add => ⟨"OpAdd", []⟩
  | subtract => ⟨"OpSub", []⟩
  | multiply => ⟨"OpMul", []⟩
  | divide => ⟨"OpDiv", []⟩
  | equal => ⟨"OpEqual", []⟩
  | notEqual => ⟨"OpNotEqual", []⟩
  | greater => ⟨"OpGreaterThan", []⟩
  | less => ⟨"OpLessThan", []⟩
  | negate => ⟨"OpMinus", []⟩
  | not => ⟨"OpBang", []⟩
  | jumpUnlessTruthy => ⟨"OpJumpNotTruthy", [2]⟩
  | jump => ⟨"OpJump", [2]⟩
  | getGlobal => ⟨"OpGetGlobal", [2]⟩
  | setGlobal => ⟨"OpSetGlobal", [2]⟩
  | getLocal => ⟨"OpGetLocal", [1]⟩
  | setLocal => ⟨"OpSetLocal", [1]⟩
  | getBuiltin => ⟨"OpGetBuiltin", [1]⟩
  | getFree => ⟨"OpGetFree", [1]⟩
  | array => ⟨"OpArray", [2]⟩
  | hash => ⟨"OpHash", [2]⟩
  | index => ⟨"OpIndex", []⟩
  | call => ⟨"OpCall", [1]⟩
  | returnValue => ⟨"OpReturnValue", []⟩
  | returnNothing => ⟨"OpReturn", []⟩
  | closure => ⟨"OpClosure", [2, 1]⟩
  | currentClosure => ⟨"OpCurrentClosure", []⟩

def name (op : Opcode) : String := op.layout.name

def widths (op : Opcode) : List UInt64 := op.layout.widths

/- Every operand of the instruction set is one or two bytes wide. -/
theorem widthCases (op : Opcode) : ∀ w ∈ op.widths, w = 1 ∨ w = 2 := by
  cases op <;> simp [widths, layout]

end Opcode
end ClosureCode
