import OdinSyntax.Painting.Palette
import OdinSyntax.Scan.Tokenize

/-!
# Painting

A `Painter` tokenizes a snapshot and paints the tokens that meet a region or a range of lines. What
is asked for has to lie within the snapshot. The answer holds whole tokens: none is cut off at the
bounds of the region.
-/

namespace OdinSyntax

/-- A span of a snapshot and the category in which it is painted. -/
structure Painted where
  span : Span
  category : Category
deriving DecidableEq, Inhabited

/-- Why a part of a snapshot cannot be painted. -/
inductive PaintError
  | regionOutOfBounds (region : Span) (length : Nat)
  | linesOutOfBounds (first stop lineCount : Nat)
deriving DecidableEq

/-- What the user reads about a refused part. -/
def PaintError.message : PaintError → String
  | .regionOutOfBounds region length =>
    "region " ++ toString region ++ " extends past end of snapshot (length " ++
      toString length ++ ")"
  | .linesOutOfBounds first stop lineCount =>
    "lines " ++ toString first ++ ".." ++ toString stop ++ " out of bounds (snapshot has " ++
      toString lineCount ++ " lines)"

/-- How snapshots are tokenized and painted. -/
structure Painter where
  options : Scan.Options := {}
  palette : Palette := {}
deriving DecidableEq, Inhabited

namespace Painter

/-- The token with the category of its kind. -/
def paintToken (painter : Painter) (token : Token) : Painted :=
  ⟨token.span, painter.palette.resolve token.kind⟩

/-- The painted tokens that meet `region`, in the order of the text. -/
def paint (painter : Painter) (snapshot : Snapshot) (region : Span) :
    Except PaintError (List Painted) :=
  if snapshot.length < region.stop then .error (.regionOutOfBounds region snapshot.length)
  else .ok ((tokenize painter.options snapshot region).map painter.paintToken)

/-- All painted tokens. -/
def paintAll (painter : Painter) (snapshot : Snapshot) : Except PaintError (List Painted) :=
  painter.paint snapshot snapshot.whole

/-- The painted tokens on the lines from `first` up to, and without, `stop`. -/
def paintLines (painter : Painter) (snapshot : Snapshot) (first stop : Nat) :
    Except PaintError (List Painted) :=
  if stop < first ∨ snapshot.lineCount < stop then
    .error (.linesOutOfBounds first stop snapshot.lineCount)
  else if first = stop then .ok []
  else
    match snapshot.lineSpan? first, snapshot.lineSpan? (stop - 1) with
    | some top, some bottom => painter.paint snapshot ⟨top.start, bottom.stop⟩
    | _, _ => .error (.linesOutOfBounds first stop snapshot.lineCount)

end Painter

end OdinSyntax
