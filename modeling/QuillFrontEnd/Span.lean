/-!
# Places in a source text

A span is a range of byte offsets and a position is the line and column that a reader is shown. Offsets, lines and columns
are natural numbers; `maxOffset` is the largest offset a span may hold, and `Span.ofRange` is the one place that checks it.
-/

namespace QuillFrontEnd

/-- The largest byte offset that a span may hold: spans are kept in 32 bits. -/
def maxOffset : Nat := 4294967295

/-- Why a range of bytes is not a span. -/
inductive SpanError where
  | startTooLarge (offset : Nat)
  | endTooLarge (offset : Nat)
deriving DecidableEq

/-- The sentence that reports a range that is not a span. -/
def SpanError.message : SpanError → String
  | .startTooLarge offset => "span start " ++ offset.repr ++ " exceeds u32::MAX (" ++ maxOffset.repr ++ ")"
  | .endTooLarge offset => "span end " ++ offset.repr ++ " exceeds u32::MAX (" ++ maxOffset.repr ++ ")"

/-- A range of bytes: `start` is its first offset and `stop` the offset after its last. -/
structure Span where
  start : Nat
  stop : Nat
deriving DecidableEq

namespace Span

/-- The empty span at an offset. -/
def point (offset : Nat) : Span := ⟨offset, offset⟩

/-- The empty span at the start of a text, for what stands nowhere in it. -/
def zero : Span := point 0

/-- The span of a range, if both ends are at most `maxOffset`; a start that is too large is reported before an end. -/
def ofRange (start stop : Nat) : Except SpanError Span :=
  if maxOffset < start then .error (.startTooLarge start)
  else if maxOffset < stop then .error (.endTooLarge stop)
  else .ok ⟨start, stop⟩

theorem ofRange_eq_ok_iff {start stop : Nat} {s : Span} :
    ofRange start stop = .ok s ↔ start ≤ maxOffset ∧ stop ≤ maxOffset ∧ s = ⟨start, stop⟩ := by
  unfold ofRange
  split
  · simp only [reduceCtorEq, false_iff]
    omega
  split
  · simp only [reduceCtorEq, false_iff]
    omega
  · rw [Except.ok.injEq, eq_comm]
    exact ⟨fun h => ⟨by omega, by omega, h⟩, fun h => h.2.2⟩

/-- The number of bytes in a span, or nothing for one that stops before it starts. -/
def length? (s : Span) : Option Nat := if s.start ≤ s.stop then some (s.stop - s.start) else none

/-- A span is empty when it stops where it starts. -/
def isEmpty (s : Span) : Bool := s.start == s.stop

/-- Whether a span holds all of another one. -/
def covers (s other : Span) : Bool := s.start ≤ other.start && other.stop ≤ s.stop

/-- The smallest span that starts and stops around both spans. -/
def merge (s other : Span) : Span := ⟨min s.start other.start, max s.stop other.stop⟩

/-- A span is written as its two ends with two dots between them. -/
def text (s : Span) : String := s.start.repr ++ ".." ++ s.stop.repr

end Span

/-- A line and a column, both counted from 1; a column counts characters, not bytes. -/
structure Position where
  line : Nat
  column : Nat
deriving DecidableEq

namespace Position

/-- The position of the first character of a text. -/
def first : Position := ⟨1, 1⟩

/-- A position is written as its line and its column with a colon between them. -/
def text (p : Position) : String := p.line.repr ++ ":" ++ p.column.repr

/-- The order of reading: by line, and by column within a line. -/
def notAfter (p q : Position) : Bool := p.line < q.line || (p.line == q.line && p.column ≤ q.column)

end Position

end QuillFrontEnd
