import OdinSyntax.Lexeme.Basic
import OdinSyntax.Scan.Tokenize

/-!
# Tokens of lexemes

Most lexemes yield one token. A block comment or raw string yields one for each line on which it has
characters. Line breaks, blanks, a stray `*/` and a literal without its closing quote yield none.

`tokensOf` is a second account of what `tokenize` computes: it knows no modes, and it reads each
lexeme as a whole.
-/

namespace OdinSyntax

namespace Lexeme

/-- The spans of the pieces between the line breaks of `text`, empty ones too. The first piece
starts at `start`, and the first character of `text` has the offset `here`. -/
def piecesFrom (start here : Nat) : List Char → List Span
  | [] => [⟨start, here⟩]
  | '\n' :: rest => ⟨start, here⟩ :: piecesFrom (here + 1) (here + 1) rest
  | '\r' :: '\n' :: rest => ⟨start, here⟩ :: piecesFrom (here + 2) (here + 2) rest
  | _ :: rest => piecesFrom start (here + 1) rest

/-- The pieces of the lexeme that yield tokens. The last one of a lexeme that is not closed is a
tail. -/
def pieces (options : Scan.Options) (lexeme : Lexeme) (closed : Bool) : List Span :=
  let all := piecesFrom lexeme.offset lexeme.offset lexeme.text
  let kept := if closed || options.emitTails then all else all.dropLast
  kept.filter (!·.isEmpty)

/-- The span of the whole lexeme. -/
def span (lexeme : Lexeme) : Span :=
  ⟨lexeme.offset, lexeme.offset + lexeme.text.length⟩

/-- The tokens that the lexeme yields. -/
def tokens (options : Scan.Options) (lexeme : Lexeme) : List Token :=
  match lexeme.shape with
  | .lineBreak | .blank | .strayClose | .quoted false => []
  | .lineComment => [⟨lexeme.span, .comment⟩]
  | .blockComment closed => (lexeme.pieces options closed).map (⟨·, .comment⟩)
  | .quoted true => [⟨lexeme.span, .stringLiteral⟩]
  | .rawString closed => (lexeme.pieces options closed).map (⟨·, .stringLiteral⟩)
  | .number => [⟨lexeme.span, .number⟩]
  | .operator => [⟨lexeme.span, .operator⟩]
  | .punctuation => [⟨lexeme.span, .punctuation⟩]
  | .word => [⟨lexeme.span, Kind.ofWord lexeme.text lexeme.rest⟩]

end Lexeme

/-- The tokens of a text by way of its lexemes. -/
def tokensOf (options : Scan.Options) (text : List Char) : List Token :=
  (lexemesFrom 0 text).flatMap (·.tokens options)

end OdinSyntax
