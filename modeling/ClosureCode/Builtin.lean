/-! The functions that every program finds defined. Their order is part of the
instruction set: an instruction names a builtin by its position. -/
namespace ClosureCode

inductive Builtin where
  | len
  | puts
  | first
  | last
  | rest
  | push
  deriving DecidableEq, Repr

namespace Builtin

def all : List Builtin := [len, puts, first, last, rest, push]

def name : Builtin → String
  | len => "len"
  | puts => "puts"
  | first => "first"
  | last => "last"
  | rest => "rest"
  | push => "push"

def ofName? (name : String) : Option Builtin := all.find? (·.name == name)

theorem ofNameName (b : Builtin) : ofName? b.name = some b := by
  cases b <;> decide

end Builtin
end ClosureCode
