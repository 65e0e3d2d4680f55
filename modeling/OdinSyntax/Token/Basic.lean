import OdinSyntax.Text.Snapshot

/-!
# Tokens

A token is a span of the text with the kind of lexeme it holds. The kinds are flat: what an editor
paints depends on the kind alone.
-/

namespace OdinSyntax

/-- What kind of lexeme a token holds. -/
inductive Kind
  | keyword
  | identifier
  | typeName
  | operator
  | punctuation
  | comment
  /-- The use of a name: a built-in procedure or a name that is called. -/
  | reference
  /-- A name followed by `::`. -/
  | definition
  /-- A string, a raw string or a character literal, or the part of one on a line. -/
  | stringLiteral
  | number
deriving DecidableEq, Inhabited

namespace Kind

/-- All kinds, in their order. -/
def all : List Kind :=
  [keyword, identifier, typeName, operator, punctuation, comment, reference, definition,
    stringLiteral, number]

theorem mem_all (kind : Kind) : kind ∈ all := by
  cases kind <;> decide

/-- The name a user reads. -/
def displayName : Kind → String
  | keyword => "keyword"
  | identifier => "identifier"
  | typeName => "type"
  | operator => "operator"
  | punctuation => "punctuation"
  | comment => "comment"
  | reference => "symbol reference"
  | definition => "symbol definition"
  | stringLiteral => "string literal"
  | number => "number"

/-- The name a debugger shows. -/
def debugName : Kind → String
  | keyword => "Keyword"
  | identifier => "Identifier"
  | typeName => "Type"
  | operator => "Operator"
  | punctuation => "Punctuation"
  | comment => "Comment"
  | reference => "SymbolReference"
  | definition => "SymbolDefinition"
  | stringLiteral => "StringLiteral"
  | number => "Number"

/-- The kind with a display name. -/
def ofDisplayName? (name : String) : Option Kind :=
  all.find? (·.displayName == name)

/-- Place of the kind in the order of all kinds. -/
def rank (kind : Kind) : Nat :=
  all.idxOf kind

instance : Ord Kind where
  compare a b := compare a.rank b.rank

/-- Whether tokens of the kind are words: runs of characters that are neither blank nor
punctuation. -/
def isWord : Kind → Bool
  | keyword | identifier | typeName | reference | definition => true
  | operator | punctuation | comment | stringLiteral | number => false

end Kind

/-- A span of the text and the kind of lexeme it holds. -/
structure Token where
  span : Span
  kind : Kind
deriving DecidableEq, Inhabited

namespace Token

/-- Number of characters of the token. -/
def length (t : Token) : Nat :=
  t.span.length

/-- Whether the token has no characters. -/
def isEmpty (t : Token) : Bool :=
  t.span.isEmpty

/-- The characters of the token in a snapshot. -/
def text (t : Token) (snapshot : Snapshot) : String :=
  snapshot.text t.span

/-- What a debugger shows of the token. -/
def describe (t : Token) : String :=
  "Token \x7b span: " ++ toString t.span ++ ", kind: " ++ t.kind.debugName ++ " \x7d"

end Token

end OdinSyntax
