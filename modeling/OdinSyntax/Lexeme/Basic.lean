import OdinSyntax.Lexicon.Symbols
import OdinSyntax.Text.Source

/-!
# Lexemes

A text is a sequence of lexemes, and every character belongs to exactly one of them. `lexemesFrom`
reads them off a list of characters, one whole lexeme at a time: `Lexeme.head` says what the first
one is and how far it extends, by looking for the end of it in the rest of the text.
-/

namespace OdinSyntax

/-- What a lexeme is, and for those with a closer whether it was found. -/
inductive Shape
  | lineBreak
  | blank
  /-- A `*/` with no comment to close. -/
  | strayClose
  | lineComment
  | blockComment (closed : Bool)
  | quoted (closed : Bool)
  | rawString (closed : Bool)
  | number
  | operator
  | punctuation
  | word
deriving DecidableEq

/-- A lexeme of a text with its offset, its characters, and the characters that follow it. -/
structure Lexeme where
  shape : Shape
  offset : Nat
  text : List Char
  rest : List Char
deriving DecidableEq

namespace Lexeme

/-! ## Extents -/

/-- Length of the line break that the text starts with, zero for none. -/
def breakLength : List Char → Nat
  | '\n' :: _ => 1
  | '\r' :: '\n' :: _ => 2
  | _ => 0

/-- The text up to its first line break. -/
def lineContent : List Char → List Char
  | [] => []
  | c :: rest => if breakLength (c :: rest) = 0 then c :: lineContent rest else []

/-- Number of characters through the closer of a block comment, in a text where `depth` closers are
awaited. -/
def closeBlock? : Nat → List Char → Option Nat
  | 0, _ => some 0
  | _ + 1, [] => none
  | depth + 1, '/' :: '*' :: rest => (closeBlock? (depth + 2) rest).map (· + 2)
  | depth + 1, '*' :: '/' :: rest => (closeBlock? depth rest).map (· + 2)
  | depth + 1, _ :: rest => (closeBlock? (depth + 1) rest).map (· + 1)

/-- Number of characters through the first `quote` that no backslash escapes. -/
def closeQuote? (quote : Char) : List Char → Option Nat
  | [] => none
  | '\\' :: _ :: rest => (closeQuote? quote rest).map (· + 2)
  | c :: rest => if c = quote then some 1 else (closeQuote? quote rest).map (· + 1)

/-- Number of characters through the first backtick. -/
def closeRaw? (text : List Char) : Option Nat :=
  (text.findIdx? (· == '\x60')).map (· + 1)

/-- Whether `c` is a character of words. -/
def isWordPart (c : Char) : Bool :=
  !isBlank c && !isPunctuation c

/-! ## The first lexeme -/

/-- The shape of the literal that `quote` opens before `rest`, and how many characters of `rest`
belong to it. It ends before the line break where it is not closed. -/
def quotedExtent (quote : Char) (rest : List Char) : Shape × Nat :=
  match closeQuote? quote (lineContent rest) with
  | some n => (.quoted true, n)
  | none => (.quoted false, (lineContent rest).length)

/-- The shape of the comment or raw string whose closer was looked for in `rest`, and how many
characters of `rest` belong to it. -/
def closedExtent (shape : Bool → Shape) (rest : List Char) (close? : Option Nat) : Shape × Nat :=
  match close? with
  | some n => (shape true, n)
  | none => (shape false, rest.length)

/-- The shape of the lexeme that `c` starts before `rest`, and how many characters of `rest` belong
to it. -/
def headExtent (c : Char) (rest : List Char) : Shape × Nat :=
  let next := rest.headD sentinel
  let afterNext := rest.tail.headD sentinel
  if 0 < breakLength (c :: rest) then (.lineBreak, breakLength (c :: rest) - 1)
  else if c = '/' ∧ next = '*' then
    closedExtent .blockComment rest ((closeBlock? 1 rest.tail).map (· + 1))
  else if c = '*' ∧ next = '/' then (.strayClose, 1)
  else if c = '/' ∧ next = '/' then (.lineComment, (lineContent rest).length)
  else if c = '"' ∨ c = '\'' then quotedExtent c rest
  else if c = '\x60' then closedExtent .rawString rest (closeRaw? rest)
  else if isNumberStart c next then (.number, (rest.takeWhile isNumberPart).length)
  -- No operator starts with a character of words, so a word is what is left in the end.
  else match operatorLength? c next afterNext with
    | some n => (.operator, n - 1)
    | none =>
      if isPunctuation c then (.punctuation, 0)
      else if isBlank c then (.blank, 0)
      else (.word, (rest.takeWhile isWordPart).length)

/-- The lexeme that `c` starts at `offset` before `rest`. -/
def head (offset : Nat) (c : Char) (rest : List Char) : Lexeme :=
  let (shape, n) := headExtent c rest
  ⟨shape, offset, c :: rest.take n, rest.drop n⟩

end Lexeme

/-- The lexemes of a text that starts at `offset`. -/
def lexemesFrom (offset : Nat) : List Char → List Lexeme
  | [] => []
  | c :: rest =>
    let lexeme := Lexeme.head offset c rest
    lexeme :: lexemesFrom (offset + lexeme.text.length) lexeme.rest
termination_by text => text.length
decreasing_by
  show (rest.drop _).length < rest.length + 1
  rw [List.length_drop]
  omega

/-! ## Elementary facts -/

@[simp] theorem lexemesFrom_nil (offset : Nat) : lexemesFrom offset [] = [] := by
  rw [lexemesFrom]

/-- The first lexeme, and those of what is behind it. -/
theorem lexemesFrom_cons (offset : Nat) (c : Char) (rest : List Char) :
    lexemesFrom offset (c :: rest) =
      Lexeme.head offset c rest ::
        lexemesFrom (offset + (Lexeme.head offset c rest).text.length)
          (Lexeme.head offset c rest).rest := by
  rw [lexemesFrom]

/-- A lexeme and what follows it are the text it was read from. -/
@[simp] theorem Lexeme.text_append_rest_head (offset : Nat) (c : Char) (rest : List Char) :
    (head offset c rest).text ++ (head offset c rest).rest = c :: rest := by
  simp [head]

/-- The lexemes make up the text: no character is lost and none is added. -/
theorem flatMap_text_lexemesFrom (offset : Nat) (text : List Char) :
    (lexemesFrom offset text).flatMap Lexeme.text = text := by
  fun_induction lexemesFrom offset text with
  | case1 => rfl
  | case2 offset c rest lexeme ih =>
    rw [List.flatMap_cons, ih]
    exact Lexeme.text_append_rest_head offset c rest

end OdinSyntax
