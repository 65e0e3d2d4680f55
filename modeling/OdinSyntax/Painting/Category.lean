import OdinSyntax.Token.Basic

/-!
# Categories

A `Category` is one of the classes of text for which an editor has a colour of its own. There is one
for each kind of token.
-/

namespace OdinSyntax

/-- A class of text that an editor paints alike. -/
inductive Category
  | keyword
  | identifier
  | typeName
  | operator
  | punctuation
  | comment
  | reference
  | definition
  | literal
  | number
deriving DecidableEq, Inhabited

namespace Category

/-- All categories, in their order. -/
def all : List Category :=
  [keyword, identifier, typeName, operator, punctuation, comment, reference, definition, literal,
    number]

/-- The name by which an editor knows the category. -/
def name : Category → String
  | keyword => "keyword"
  | identifier => "identifier"
  | typeName => "type"
  | operator => "operator"
  | punctuation => "punctuation"
  | comment => "comment"
  | reference => "symbol reference"
  | definition => "symbol definition"
  | literal => "string"
  | number => "number"

/-- The name a debugger shows. -/
def debugName : Category → String
  | keyword => "Keyword"
  | identifier => "Identifier"
  | typeName => "Type"
  | operator => "Operator"
  | punctuation => "Punctuation"
  | comment => "Comment"
  | reference => "SymbolReference"
  | definition => "SymbolDefinition"
  | literal => "String"
  | number => "Number"

/-- The category with a name. -/
def ofName? (name : String) : Option Category :=
  all.find? (·.name == name)

end Category

/-- The category in which tokens of a kind are painted unless the user has chosen another one. -/
def Kind.category : Kind → Category
  | .keyword => .keyword
  | .identifier => .identifier
  | .typeName => .typeName
  | .operator => .operator
  | .punctuation => .punctuation
  | .comment => .comment
  | .reference => .reference
  | .definition => .definition
  | .stringLiteral => .literal
  | .number => .number

/-- A format that the user can style by itself and that looks like `base` until then. -/
structure Format where
  name : String
  base : Category
deriving DecidableEq

/-- The formats for Odin, in the order in which an editor lists them. -/
def odinFormats : List Format :=
  [⟨"OdinKeyword", .keyword⟩, ⟨"OdinType", .keyword⟩, ⟨"OdinOperator", .keyword⟩]

end OdinSyntax
