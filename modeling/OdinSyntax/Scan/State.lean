import OdinSyntax.Token.Basic

/-!
# Scan states

Between two steps a scan is at a position of the text, in one `Mode`, and has found some tokens. A
mode other than `code` says which lexeme is being read and carries the offset where its next token
starts. Block comments and raw strings may extend over several lines; they yield a token for each
line, so their modes hold the start of the part on the present line, the *segment*.

The scan reads the whole text, whatever region is asked for. The region only decides which tokens
are kept, in `State.emit`.
-/

namespace OdinSyntax.Scan

/-- The two quotes of literals that end with their line. -/
inductive Quote
  | double
  | single
deriving DecidableEq

/-- The character that opens and closes the literal. -/
def Quote.char : Quote → Char
  | double => '"'
  | single => '\''

/-- Which lexeme is being read, and where its next token starts. -/
inductive Mode
  /-- Between lexemes. -/
  | code
  | word (start : Nat)
  | number (start : Nat)
  | quoted (quote : Quote) (start : Nat)
  | rawString (segment : Nat)
  | lineComment (start : Nat)
  /-- A block comment in which `depth` openers wait for their closers. -/
  | blockComment (segment depth : Nat)
deriving DecidableEq

/-- Where the next token of the lexeme starts, unless the mode is `code`. -/
def Mode.start? : Mode → Option Nat
  | code => none
  | word start | number start | quoted _ start | lineComment start => some start
  | rawString segment | blockComment segment _ => some segment

/-- A scan between two steps. -/
structure State where
  position : Nat := 0
  mode : Mode := .code
  tokens : Array Token := #[]

namespace State

/-- Keep a token if it has characters and meets the region. -/
def emit (st : State) (region span : Span) (kind : Kind) : State :=
  if !span.isEmpty && span.intersects region then { st with tokens := st.tokens.push ⟨span, kind⟩ }
  else st

/-- Go on in `mode`, `distance` characters further. -/
def enter (st : State) (mode : Mode) (distance : Nat) : State :=
  { st with position := st.position + distance, mode }

@[simp] theorem position_emit (st : State) (region span : Span) (kind : Kind) :
    (st.emit region span kind).position = st.position := by
  unfold emit; split <;> rfl

@[simp] theorem mode_emit (st : State) (region span : Span) (kind : Kind) :
    (st.emit region span kind).mode = st.mode := by
  unfold emit; split <;> rfl

@[simp] theorem position_enter (st : State) (mode : Mode) (distance : Nat) :
    (st.enter mode distance).position = st.position + distance := rfl

@[simp] theorem mode_enter (st : State) (mode : Mode) (distance : Nat) :
    (st.enter mode distance).mode = mode := rfl

@[simp] theorem tokens_enter (st : State) (mode : Mode) (distance : Nat) :
    (st.enter mode distance).tokens = st.tokens := rfl

end State

end OdinSyntax.Scan
