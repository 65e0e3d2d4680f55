import OdinSyntax.Text.Source

/-!
# Readers

A `Reader` is a position in a source that moves forward. It never fails: past the end it reads
sentinels, and it is at the end as soon as its position is not before the end.
-/

namespace OdinSyntax

/-- A read position in a source. -/
structure Reader (σ : Type) where
  source : σ
  position : Nat := 0

namespace Reader

variable {σ : Type} [Readable σ]

/-- The character at the position. -/
def current (r : Reader σ) : Char :=
  Source.charAt r.source r.position

/-- The character `distance` after the position. -/
def ahead (r : Reader σ) (distance : Nat) : Char :=
  Source.charAt r.source (r.position + distance)

/-- The reader moved on by `distance` characters. -/
def advance (r : Reader σ) (distance : Nat) : Reader σ :=
  { r with position := r.position + distance }

/-- Whether every character has been read. -/
def atEnd (r : Reader σ) : Bool :=
  Source.length r.source ≤ r.position

/-- Length of the line break at the position. -/
def lineBreakLength (r : Reader σ) : Nat :=
  Source.lineBreakLength r.source r.position

/-- Append the characters of `span` to `out`. -/
def collect (r : Reader σ) (span : Span) (out : String) : String :=
  out ++ String.ofList (Source.slice r.source span)

/-- What a debugger shows of the reader. -/
def describe (r : Reader σ) : String :=
  "Cursor \x7b pos: " ++ toString r.position ++ ", source_len: " ++
    toString (Source.length r.source) ++ ", .. \x7d"

end Reader

end OdinSyntax
