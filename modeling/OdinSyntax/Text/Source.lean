import OdinSyntax.Span
import OdinSyntax.Text.Blank

/-!
# Sources of characters

A `Readable` text is one that is read by absolute offset. A `Source` is a readable text that is over
at its length: a read at or past the end gives the `sentinel`, a space. It is blank, and it occurs
in no delimiter and no operator, so a look ahead near the end of the text needs no case of its own:
it ends words and numbers and continues nothing.

The scan and the look aheads run on every readable text. That they do what they should is said of
sources only: an array with more characters than offsets reach is readable and no source.

Line breaks are LF and CRLF. A lone CR is an ordinary blank character.
-/

namespace OdinSyntax

/-- What a read outside of a source gives. -/
def sentinel : Char := ' '

/-- A text that is read by absolute offset. Its length is an offset, and there is no offset past the
largest one: where a sum of two offsets is, it stands for the largest one. -/
class Readable (σ : Type) where
  /-- Number of characters, of those that offsets reach. -/
  length : σ → Nat
  /-- The character at an offset. -/
  charAt : σ → Nat → Char
  length_le : ∀ text, length text ≤ maxOffset
  charAt_min : ∀ text offset, charAt text (min offset maxOffset) = charAt text offset

/-- A readable text that is over at its length: where it has no character, a read gives the
sentinel. -/
class Source (σ : Type) extends Readable σ where
  charAt_of_length_le : ∀ {text offset}, length text ≤ offset → charAt text offset = sentinel

namespace Source

export Readable (length charAt length_le charAt_min)

variable {σ : Type} [Readable σ]

/-- Whether the source holds no characters. -/
def isEmpty (text : σ) : Bool :=
  length text == 0

/-- Length of the line break at `offset`: one for LF, two for CRLF, zero where none starts. -/
def lineBreakLength (text : σ) (offset : Nat) : Nat :=
  if charAt text offset = '\n' then 1
  else if charAt text offset = '\r' ∧ charAt text (offset + 1) = '\n' then 2
  else 0

/-- The first offset at or after `offset` that is past the end or holds no blank. -/
def skipBlanks (text : σ) (offset : Nat) : Nat :=
  if offset < length text ∧ isBlank (charAt text offset) then skipBlanks text (offset + 1)
  else offset
termination_by length text - offset

/-- The first character at or after `offset` that is not blank, or the sentinel where only blanks
are left. -/
def nextNonBlank (text : σ) (offset : Nat) : Char :=
  let found := skipBlanks text offset
  if found < length text then charAt text found else sentinel

/-- Whether the characters from `offset` on spell `pattern`. In a source, they are sentinels past
the end. -/
def matchesAt (text : σ) (offset : Nat) : List Char → Bool
  | [] => true
  | c :: pattern => charAt text offset == c && matchesAt text (offset + 1) pattern

/-- Whether `pattern` follows the blanks at `offset`. -/
def matchesAfterBlanks (text : σ) (offset : Nat) (pattern : List Char) : Bool :=
  matchesAt text (skipBlanks text offset) pattern

/-- The characters of `span` that lie within the source. -/
def slice (text : σ) (span : Span) : List Char :=
  (List.range' span.start (min span.stop (length text) - span.start)).map (charAt text)

/-- All characters of the source. -/
def toList (text : σ) : List Char :=
  slice text ⟨0, length text⟩

/-! ## Elementary facts -/

/-- No line break has more than two characters. -/
theorem lineBreakLength_le (text : σ) (offset : Nat) : lineBreakLength text offset ≤ 2 := by
  unfold lineBreakLength
  split
  · omega
  · split <;> omega

/-- A line break lies within the source. -/
theorem add_lineBreakLength_le {σ : Type} [Source σ] {text : σ} {offset : Nat}
    (h : offset ≤ length text) :
    offset + lineBreakLength text offset ≤ length text := by
  have past : ∀ {o}, charAt text o = '\n' → o < length text := by
    intro o ho
    apply Nat.lt_of_not_le
    intro hle
    rw [charAt_of_length_le hle] at ho
    exact absurd ho (by decide)
  unfold lineBreakLength
  split
  · next h₁ => exact past h₁
  · split
    · next h₂ => exact past h₂.2
    · omega

/-- Blanks are skipped forward. -/
theorem le_skipBlanks (text : σ) (offset : Nat) : offset ≤ skipBlanks text offset := by
  fun_induction skipBlanks text offset with
  | case1 _ _ ih => omega
  | case2 => omega

end Source

/-! ## Arrays -/

/-- An array of any size. It may have a character at the largest offset, which is no less than its
length, and then a read there gives that character. -/
instance : Readable (Array Char) where
  length text := min text.size maxOffset
  charAt text offset := text.getD (min offset maxOffset) sentinel
  length_le _ := Nat.min_le_right _ _
  charAt_min _ _ := by rw [Nat.min_assoc, Nat.min_self]

/-- Characters that offsets do not reach do not count. -/
theorem Readable.length_array (text : Array Char) : length text = min text.size maxOffset := rfl

/-- The read stops at the largest offset, not at the length. -/
theorem Readable.charAt_array (text : Array Char) (offset : Nat) :
    charAt text offset = text.getD (min offset maxOffset) sentinel := rfl

/-- Behind an array there is the sentinel. -/
theorem Readable.charAt_of_size_le {text : Array Char} {offset : Nat}
    (h : text.size ≤ min offset maxOffset) : charAt text offset = sentinel := by
  rw [charAt_array, Array.getD, dif_neg (Nat.not_lt.mpr h)]

/-- An array whose characters are all reached by offsets is a source. -/
instance : Source { text : Array Char // text.size ≤ maxOffset } where
  length text := Readable.length text.val
  charAt text := Readable.charAt text.val
  length_le text := Readable.length_le text.val
  charAt_min text := Readable.charAt_min text.val
  charAt_of_length_le {text offset} h := by
    apply Readable.charAt_of_size_le
    have hsize := text.property
    rw [Readable.length_array] at h
    omega

end OdinSyntax
