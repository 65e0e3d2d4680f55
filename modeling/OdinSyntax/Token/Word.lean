import OdinSyntax.Lexicon.Words
import OdinSyntax.Text.Source
import OdinSyntax.Token.Basic

/-!
# Kinds of words

What a word is gets guessed from its spelling and from the text behind it. The vocabularies come
first, the built-in procedures before the keywords and these before the built-in types; any other
word is a reference before `(`, a definition before `::`, and an identifier otherwise. Blanks and
line breaks may stand in between.
-/

namespace OdinSyntax

/-- The kind of the word `word` before the text `rest`. -/
def Kind.ofWord (word rest : List Char) : Kind :=
  let spelling := String.ofList word
  if isBuiltinProc spelling then .reference
  else if isKeyword spelling then .keyword
  else if isBuiltinType spelling then .typeName
  else match rest.dropWhile isBlank with
    | '(' :: _ => .reference
    | ':' :: ':' :: _ => .definition
    | _ => .identifier

/-- The kind of the word at `span` of a source. The look ahead goes to the end of the source.

The spelling is the slice itself. A buffer that is cleared before each word, into which the
characters of the word are then collected, holds the same, so no buffer is handed from word to word
here. -/
def Source.wordKind {σ : Type} [Readable σ] (text : σ) (span : Span) : Kind :=
  let spelling := String.ofList (slice text span)
  if isBuiltinProc spelling then .reference
  else if isKeyword spelling then .keyword
  else if isBuiltinType spelling then .typeName
  else if nextNonBlank text span.stop = '(' then .reference
  else if matchesAfterBlanks text span.stop [':', ':'] then .definition
  else .identifier

end OdinSyntax
