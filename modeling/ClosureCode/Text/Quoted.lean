import ClosureCode.Text.Printable

/-! Text between quotes, with the characters that do not show by themselves spelled out. -/
namespace ClosureCode

/- A character that does not show by itself is written by its code point. -/
def quotedChar (c : Char) : String :=
  match c with
  | '"' => "\\\""
  | '\\' => "\\\\"
  | '\n' => "\\n"
  | '\r' => "\\r"
  | '\t' => "\\t"
  | '\x00' => "\\0"
  | c =>
    if isPrintable c then c.toString
    else "\\u\x7b" ++ String.ofList (Nat.toDigits 16 c.toNat) ++ "\x7d"

def quoted (s : String) : String := s.foldl (fun out c => out ++ quotedChar c) "\"" ++ "\""

theorem quotedCharPrintable {c : Char} (shows : isPrintable c = true) (quote : c ≠ '"')
    (backslash : c ≠ '\\') : quotedChar c = c.toString := by
  unfold quotedChar
  split
  · exact absurd rfl quote
  · exact absurd rfl backslash
  · exact absurd shows (by decide)
  · exact absurd shows (by decide)
  · exact absurd shows (by decide)
  · exact absurd shows (by decide)
  · simp [shows]

end ClosureCode
