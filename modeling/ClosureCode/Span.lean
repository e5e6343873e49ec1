/-! Source spans: the bounds of a piece of text and the place where it begins. -/
namespace ClosureCode

structure Span where
  start : Nat
  stop : Nat
  line : Nat
  column : Nat
  deriving DecidableEq, Repr

namespace Span

/- The span of a node that no text was read for. -/
def unknown : Span := ⟨0, 0, 0, 0⟩

instance : Inhabited Span := ⟨unknown⟩

/- Covers both spans and begins where the earlier of them begins; the left one wins a tie. -/
def merge (a b : Span) : Span :=
  let earlier := if a.start ≤ b.start then a else b
  ⟨min a.start b.start, max a.stop b.stop, earlier.line, earlier.column⟩

/- Only the beginning is shown, as `line:column`. -/
def text (s : Span) : String := toString s.line ++ ":" ++ toString s.column

theorem mergeSelf (s : Span) : s.merge s = s := by
  cases s
  simp [merge]

theorem mergeAssoc (a b c : Span) : (a.merge b).merge c = a.merge (b.merge c) := by
  simp only [merge]
  grind

end Span
end ClosureCode
