/-!
# Spans of character offsets

A `Span` is a half-open range of character offsets. Offsets are numbers of Unicode scalar values,
and a span records them only up to `maxOffset`, so a text has at most that many characters.

A span whose `stop` lies before its `start` is kept as it is: it has length zero, contains no
offset, and as a region it stands for the caret at its `start`.
-/

namespace OdinSyntax

/-- The largest offset a span records, `2 ^ 32 - 1`. -/
def maxOffset : Nat := 4294967295

/-- The half-open range of offsets from `start` up to, and without, `stop`. -/
structure Span where
  start : Nat
  stop : Nat
deriving DecidableEq, Inhabited

/-- Why two numbers do not bound a span. -/
inductive RangeError
  | startTooLarge (start : Nat)
  | stopTooLarge (stop : Nat)
  | inverted (start stop : Nat)
deriving DecidableEq

/-- Hexadecimal digits of `n` in upper case. -/
def upperHex (n : Nat) : String :=
  String.ofList ((Nat.toDigits 16 n).map Char.toUpper)

/-- The text of a bound of a range that exceeds the largest offset. -/
private def exceedsText (bound : String) (value : Nat) : String :=
  "span " ++ bound ++ " " ++ toString value ++ " (0x" ++ upperHex value ++
    ") exceeds u32::MAX (0x" ++ upperHex maxOffset ++ ")"

/-- What the user reads about a refused range. -/
def RangeError.message : RangeError → String
  | .startTooLarge start => exceedsText "start" start
  | .stopTooLarge stop => exceedsText "end" stop
  | .inverted start stop =>
    "span end " ++ toString stop ++ " lies before start " ++ toString start

namespace Span

/-- The span of `length` offsets from `start` on, cut off at the largest offset. -/
def ofLength (start length : Nat) : Span :=
  ⟨start, min (start + length) maxOffset⟩

/-- The empty span at `offset`. -/
def point (offset : Nat) : Span :=
  ⟨offset, offset⟩

/-- The span of an ordered range within the largest offset. The order is looked at first, then the
start, then the end. -/
def ofRange (start stop : Nat) : Except RangeError Span :=
  if stop < start then .error (.inverted start stop)
  else if maxOffset < start then .error (.startTooLarge start)
  else if maxOffset < stop then .error (.stopTooLarge stop)
  else .ok ⟨start, stop⟩

/-- Number of offsets in the span; zero when it is inverted. -/
def length (s : Span) : Nat :=
  s.stop - s.start

/-- Whether the span has no offset. -/
def isEmpty (s : Span) : Bool :=
  s.stop ≤ s.start

/-- Whether `offset` lies in the span. -/
def contains (s : Span) (offset : Nat) : Bool :=
  s.start ≤ offset && offset < s.stop

/-- Whether the bounds of `t` lie within those of `s`. -/
def containsSpan (s t : Span) : Bool :=
  s.start ≤ t.start && t.stop ≤ s.stop

/-- Whether the span meets `region`. An empty region is a caret, and meets the span that contains
its start. -/
def intersects (s region : Span) : Bool :=
  if region.isEmpty then s.contains region.start
  else s.start < region.stop && region.start < s.stop

/-- Spans are ordered by their starts, and from the same start by their ends. -/
instance : Ord Span where
  compare s t := (compare s.start t.start).then (compare s.stop t.stop)

instance : ToString Span where
  toString s := toString s.start ++ ".." ++ toString s.stop

/-! ## Elementary facts -/

theorem isEmpty_iff (s : Span) : s.isEmpty = true ↔ s.stop ≤ s.start := by
  simp [isEmpty]

theorem contains_iff (s : Span) (offset : Nat) :
    s.contains offset = true ↔ s.start ≤ offset ∧ offset < s.stop := by
  simp [contains]

theorem isEmpty_eq_false_iff (s : Span) : s.isEmpty = false ↔ s.start < s.stop := by
  simp [isEmpty]

theorem containsSpan_iff (s t : Span) :
    s.containsSpan t = true ↔ s.start ≤ t.start ∧ t.stop ≤ s.stop := by
  simp [containsSpan]

/-- A region with characters meets the spans that have one of them. -/
theorem intersects_iff_of_lt {s region : Span} (h : region.start < region.stop) :
    s.intersects region = true ↔ s.start < region.stop ∧ region.start < s.stop := by
  rw [intersects, (isEmpty_eq_false_iff region).mpr h]
  simp

/-- An empty or inverted region is a caret at its start, and meets the spans that hold it. -/
theorem intersects_iff_of_le {s region : Span} (h : region.stop ≤ region.start) :
    s.intersects region = true ↔ s.start ≤ region.start ∧ region.start < s.stop := by
  rw [intersects, if_pos ((isEmpty_iff region).mpr h), contains_iff]

end Span

end OdinSyntax
