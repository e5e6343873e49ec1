import ClosureCode.Object
import ClosureCode.Program.Rendering
import ClosureCode.Text.Quoted

/-! The text of a value as a program prints it, and the fuller text of a callable for
those who debug one. -/
namespace ClosureCode

mutual

/- A compiled function has nothing to show but that it is one. -/
def Object.inspect : Object → String
  | .null => "null"
  | .error message => "ERROR: " ++ message
  | .integer value => toString value.toInt
  | .boolean value => toString value
  | .returned value => value.inspect
  | .function f =>
      "fn(" ++ ", ".intercalate (f.parameters.map Binder.name) ++ ") \x7b\n" ++ f.body.render ++ "\n\x7d"
  | .string value => value
  | .builtin _ => "builtin function"
  | .array elements => inspectElements "[" elements ++ "]"
  | .hash entries => inspectEntries "\x7b" entries ++ "\x7d"
  | .compiled _ => "CompiledFunction[PTR]"

def inspectElements (out : String) : List Object → String
  | [] => out
  | o :: rest => inspectMoreElements (out ++ o.inspect) rest

def inspectMoreElements (out : String) : List Object → String
  | [] => out
  | o :: rest => inspectMoreElements (out ++ ", " ++ o.inspect) rest

def inspectEntries (out : String) : List Entry → String
  | [] => out
  | e :: rest => inspectMoreEntries (out ++ e.inspect) rest

def inspectMoreEntries (out : String) : List Entry → String
  | [] => out
  | e :: rest => inspectMoreEntries (out ++ ", " ++ e.inspect) rest

def Entry.inspect : Entry → String
  | ⟨_, key, value⟩ => key.inspect ++ ": " ++ value.inspect

end

def Span.describe (s : Span) : String :=
  "Span \x7b start: " ++ toString s.start ++ ", end: " ++ toString s.stop ++ ", line: " ++
    toString s.line ++ ", column: " ++ toString s.column ++ " \x7d"

def Binder.describe (b : Binder) : String :=
  "Identifier \x7b name: " ++ quoted b.name ++ ", span: " ++ b.span.describe ++ " \x7d"

/- The frame is left out, since it may hold the function itself. -/
def Function.describe (f : Function) : String :=
  "Function \x7b parameters: [" ++ ", ".intercalate (f.parameters.map Binder.describe) ++
    "], body: BlockStatement \x7b statements: [" ++ f.body.render ++ "], span: " ++
    f.body.span.describe ++ " \x7d, .. \x7d"

def Builtin.describe (b : Builtin) : String := "Builtin(" ++ b.name ++ ")"

def Object.describe? : Object → Option String
  | .builtin b => some b.describe
  | .function f => some f.describe
  | _ => none

end ClosureCode
