import OdinSyntax.Text.Source

/-!
# Snapshots

A `Snapshot` is an immutable text together with two indices of it: where its lines start, and, for a
text that is not ASCII, where its characters start in the UTF-8 encoding.

Lines end with LF or CRLF, and the line break belongs to no line's span. The text after the last
line break is a line too, so a snapshot has one line more than it has line feeds, and an empty one
has a single empty line.
-/

namespace OdinSyntax

/-- Add the starts of the lines that begin within `rest`, whose first character has the offset
`offset`. -/
def pushLineStarts (starts : Array Nat) (offset : Nat) : List Char → Array Nat
  | [] => starts
  | c :: rest =>
    pushLineStarts (if c = '\n' then starts.push (offset + 1) else starts) (offset + 1) rest

/-- The start of the first line, and the offset after each line feed. -/
def lineStartsOf (chars : List Char) : Array Nat :=
  pushLineStarts #[0] 0 chars

/-- Add the byte offset of each character of `rest`, whose first one has the byte offset `bytes`,
and of the end. -/
def pushByteOffsets (offsets : Array Nat) (bytes : Nat) : List Char → Array Nat
  | [] => offsets.push (min bytes maxOffset)
  | c :: rest => pushByteOffsets (offsets.push (min bytes maxOffset)) (bytes + c.utf8Size) rest

/-- Whether `c` is encoded in one byte. -/
def isAscii (c : Char) : Bool :=
  c.toNat < 128

/-- The byte offset of each character and of the end, cut off at the largest offset. Offsets of
characters and of bytes agree in ASCII, so there is no table then. -/
def byteOffsetsOf (chars : List Char) : Option (Array Nat) :=
  if chars.all isAscii then none else some (pushByteOffsets #[] 0 chars)

/-- A text of at most `maxOffset` characters with its indices. -/
structure Snapshot where
  chars : Array Char
  lineStarts : Array Nat := lineStartsOf chars.toList
  byteOffsets : Option (Array Nat) := byteOffsetsOf chars.toList
  size_le : chars.size ≤ maxOffset
  lineStarts_eq : lineStarts = lineStartsOf chars.toList := by rfl
  byteOffsets_eq : byteOffsets = byteOffsetsOf chars.toList := by rfl

namespace Snapshot

/-- The snapshot of `chars`, or of as many of them as offsets can address. -/
def ofArray (chars : Array Char) : Snapshot :=
  if h : chars.size ≤ maxOffset then { chars, size_le := h }
  else { chars := chars.extract 0 maxOffset, size_le := by rw [Array.size_extract]; omega }

/-- The snapshot of a list of characters. -/
def ofList (chars : List Char) : Snapshot :=
  ofArray chars.toArray

/-- The snapshot of a string. -/
def ofString (text : String) : Snapshot :=
  ofList text.toList

instance : Source Snapshot where
  length s := s.chars.size
  charAt s offset := s.chars.getD offset sentinel
  length_le s := s.size_le
  charAt_min s offset := by
    rcases Nat.le_total offset maxOffset with h | h
    · rw [Nat.min_eq_left h]
    · -- Either offset is past the end, where there is no character.
      have hend := s.size_le
      rw [Nat.min_eq_right h]
      simp [Array.getD, Nat.not_lt.2 hend, Nat.not_lt.2 (Nat.le_trans hend h)]
  charAt_of_length_le {s offset} h := by simp [Array.getD, Nat.not_lt.2 h]

/-- Number of characters. -/
def length (s : Snapshot) : Nat :=
  s.chars.size

/-- The span of the whole snapshot. -/
def whole (s : Snapshot) : Span :=
  ⟨0, s.length⟩

/-- The characters of `span`, cut off at the end of the snapshot. -/
def text (s : Snapshot) (span : Span) : String :=
  String.ofList (s.chars.extract span.start span.stop).toList

/-! ## Lines -/

/-- Number of lines. -/
def lineCount (s : Snapshot) : Nat :=
  s.lineStarts.size

/-- The last line between `low` and, exclusively, `high` that starts at or before `offset`, found by
halving, where line `low` starts there.

A binary search that tells a hit from a miss gives the line that starts at `offset`, or the place at
which such a line would be inserted, and then the line of the offset is the one before. Both are
this line, so hits and misses are not told apart here. -/
def searchLine (starts : Array Nat) (offset low high : Nat) : Nat :=
  if low + 1 < high then
    let middle := (low + high) / 2
    if starts.getD middle 0 ≤ offset then searchLine starts offset middle high
    else searchLine starts offset low middle
  else low
termination_by high - low

/-- The line that holds `offset`, counted from zero. A line break belongs to the line that it ends,
and offsets past the end belong to the last line. -/
def lineOf (s : Snapshot) (offset : Nat) : Nat :=
  searchLine s.lineStarts offset 0 s.lineCount

/-- Where the content of a line ends whose line feed stands at `lineFeed`: before the CR of a CRLF.
-/
def contentEnd (s : Snapshot) (start lineFeed : Nat) : Nat :=
  if start < lineFeed ∧ Source.charAt s (lineFeed - 1) = '\r' then lineFeed - 1 else lineFeed

/-- The span of a line without its line break. -/
def lineSpan? (s : Snapshot) (line : Nat) : Option Span :=
  s.lineStarts[line]?.map fun start =>
    match s.lineStarts[line + 1]? with
    | some next => ⟨start, s.contentEnd start (next - 1)⟩
    | none => ⟨start, s.length⟩

/-! ## Bytes -/

/-- The number of bytes before the character at `offset` in UTF-8. Offsets past the end count as the
end. -/
def byteOffset (s : Snapshot) (offset : Nat) : Nat :=
  match s.byteOffsets with
  | none => min offset s.length
  | some table => table.getD (min offset s.length) 0

/-- The bytes that encode the characters of `span`, as a start and an end. -/
def byteRange (s : Snapshot) (span : Span) : Nat × Nat :=
  (s.byteOffset span.start, s.byteOffset span.stop)

/-! ## Elementary facts -/

/-- A snapshot is as long as a source as it is by itself. -/
@[simp] theorem source_length (s : Snapshot) : Source.length s = s.length := rfl

theorem length_le (s : Snapshot) : s.length ≤ maxOffset := s.size_le

/-- Nothing is cut off where offsets reach all characters. -/
@[simp] theorem chars_ofList {chars : List Char} (h : chars.length ≤ maxOffset) :
    (ofList chars).chars = chars.toArray := by
  simp [ofList, ofArray, h]

@[simp] theorem length_ofList {chars : List Char} (h : chars.length ≤ maxOffset) :
    (ofList chars).length = chars.length := by
  simp [length, h]

end Snapshot

end OdinSyntax
