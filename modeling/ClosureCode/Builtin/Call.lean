import ClosureCode.Object.Inspection

/-! What the builtins do. A wrong number of arguments is reported before any argument
is looked at. Only `puts` prints. -/
namespace ClosureCode.Builtin

def wrongCount (got want : Nat) : Object :=
  .error ("wrong number of arguments. got=" ++ toString got ++ ", want=" ++ toString want)

def notAnArray (b : Builtin) (argument : Object) : Object :=
  .error ("argument to `" ++ b.name ++ "` must be ARRAY, got " ++ argument.kind.name)

/- Strings are measured in bytes. -/
def length : Object → Object
  | .string s => .integer (Int64.ofNat s.utf8ByteSize)
  | .array elements => .integer (Int64.ofNat elements.length)
  | other => .error ("argument to `len` not supported, got " ++ other.kind.name)

/- The value of a call, which leaves its arguments as they are. -/
def result : Builtin → List Object → Object
  | len, [argument] => length argument
  | puts, _ => .null
  | first, [.array elements] => elements.head?.getD .null
  | last, [.array elements] => elements.getLast?.getD .null
  | rest, [.array []] => .null
  | rest, [.array (_ :: elements)] => .array elements
  | push, [.array elements, value] => .array (elements ++ [value])
  | first, [other] => notAnArray first other
  | last, [other] => notAnArray last other
  | rest, [other] => notAnArray rest other
  | push, [other, _] => notAnArray push other
  | push, arguments => wrongCount arguments.length 2
  | _, arguments => wrongCount arguments.length 1

def printed : Builtin → List Object → String
  | puts, arguments => arguments.foldl (fun out o => out ++ o.inspect ++ "\n") ""
  | _, _ => ""

end ClosureCode.Builtin
