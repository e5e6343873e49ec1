import ClosureCode.CodeError
import ClosureCode.Span

/-! Why a program cannot be compiled. -/
namespace ClosureCode

inductive CompileError where
  | undefinedVariable (name : String) (span : Span)
  | instruction (node : String) (span : Span) (cause : CodeError)
  deriving DecidableEq, Repr

namespace CompileError

def span : CompileError → Span
  | undefinedVariable _ span => span
  | instruction _ span _ => span

def message : CompileError → String
  | undefinedVariable name span => "undefined variable " ++ name ++ " at " ++ span.text
  | instruction node span cause =>
      "cannot encode `" ++ node ++ "` at " ++ span.text ++ ": " ++ cause.message

end CompileError
end ClosureCode
