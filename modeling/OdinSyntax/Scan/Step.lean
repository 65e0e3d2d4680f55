import OdinSyntax.Lexicon.Symbols
import OdinSyntax.Scan.State
import OdinSyntax.Token.Word

/-!
# Scan steps

One step of a scan in each mode. A step looks at most two characters ahead, and it always moves the
position forward (`position_lt_step`).

No text is refused:

* `*/` outside of a comment is skipped,
* a string or character literal that meets a line break is given up and yields no token, and the
  next line is read as code,
* a block comment or raw string that is never closed is read to the end of the text.
-/

namespace OdinSyntax.Scan

open Source

variable {σ : Type} [Readable σ]

/-! ## Code -/

/-- Read one character of a word that starts at `start`. The word ends where a blank or a
punctuation character follows. Its kind is looked for only if the region asks for it. -/
def wordStep (text : σ) (region : Span) (start : Nat) (st : State) : State :=
  let stop := st.position + 1
  let next := charAt text stop
  if isBlank next || isPunctuation next then
    let span := Span.mk start stop
    if span.intersects region then
      { st.enter .code 1 with tokens := st.tokens.push ⟨span, wordKind text span⟩ }
    else st.enter .code 1
  else st.enter (.word start) 1

/-- Read the longest operator at the position, or else one punctuation character. -/
def symbolStep (text : σ) (region : Span) (st : State) : State :=
  let start := st.position
  match operatorLength? (charAt text start) (charAt text (start + 1)) (charAt text (start + 2)) with
  | some n => (st.emit region ⟨start, start + n⟩ .operator).enter .code n
  | none => (st.emit region ⟨start, start + 1⟩ .punctuation).enter .code 1

/-- Begin the lexeme at the position. -/
def codeStep (text : σ) (region : Span) (st : State) : State :=
  let start := st.position
  let c := charAt text start
  let next := charAt text (start + 1)
  let breakLength := lineBreakLength text start
  if 0 < breakLength then st.enter .code breakLength
  -- The delimiters of comments are made of operators, so they come before the symbols.
  else if c = '/' ∧ next = '*' then st.enter (.blockComment start 1) 2
  else if c = '*' ∧ next = '/' then st.enter .code 2
  else if c = '/' ∧ next = '/' then st.enter (.lineComment start) 2
  else if c = '"' then st.enter (.quoted .double start) 1
  else if c = '\'' then st.enter (.quoted .single start) 1
  else if c = '\x60' then st.enter (.rawString start) 1
  -- A point before a digit starts a number and is no operator.
  else if isNumberStart c next then st.enter (.number start) 1
  else if isPunctuation c then symbolStep text region st
  else if isBlank c then st.enter .code 1
  else wordStep text region start st

/-- Go on with a number, or close it and begin the next lexeme at once. -/
def numberStep (text : σ) (region : Span) (start : Nat) (st : State) : State :=
  if isNumberPart (charAt text st.position) then st.enter (.number start) 1
  else
    -- The character that ends the number has not been read yet.
    codeStep text region ((st.emit region ⟨start, st.position⟩ .number).enter .code 0)

/-! ## Literals -/

/-- Go on with a string or character literal. A backslash takes the next character with it, but
neither a line break nor the end of the text. -/
def quotedStep (text : σ) (region : Span) (quote : Quote) (start : Nat) (st : State) : State :=
  let here := st.position
  let breakLength := lineBreakLength text here
  if 0 < breakLength then st.enter .code breakLength
  else if charAt text here = '\\' then
    if here + 1 < length text ∧ lineBreakLength text (here + 1) = 0 then
      st.enter (.quoted quote start) 2
    else st.enter (.quoted quote start) 1
  else if charAt text here = quote.char then
    (st.emit region ⟨start, here + 1⟩ .stringLiteral).enter .code 1
  else st.enter (.quoted quote start) 1

/-- Go on with a raw string: there are no escapes, and a line break ends the segment only. -/
def rawStringStep (text : σ) (region : Span) (segment : Nat) (st : State) : State :=
  let here := st.position
  let breakLength := lineBreakLength text here
  if 0 < breakLength then
    (st.emit region ⟨segment, here⟩ .stringLiteral).enter (.rawString (here + breakLength))
      breakLength
  else if charAt text here = '\x60' then
    (st.emit region ⟨segment, here + 1⟩ .stringLiteral).enter .code 1
  else st.enter (.rawString segment) 1

/-! ## Comments -/

/-- Go on with a line comment, which ends before the line break. -/
def lineCommentStep (text : σ) (region : Span) (start : Nat) (st : State) : State :=
  let here := st.position
  let breakLength := lineBreakLength text here
  if 0 < breakLength then (st.emit region ⟨start, here⟩ .comment).enter .code breakLength
  else st.enter (.lineComment start) 1

/-- Go on with a block comment. Openers and closers nest, and a line break ends the segment only. -/
def blockCommentStep (text : σ) (region : Span) (segment depth : Nat) (st : State) : State :=
  let here := st.position
  let c := charAt text here
  let next := charAt text (here + 1)
  let breakLength := lineBreakLength text here
  if c = '/' ∧ next = '*' then st.enter (.blockComment segment (depth + 1)) 2
  else if c = '*' ∧ next = '/' then
    if depth ≤ 1 then (st.emit region ⟨segment, here + 2⟩ .comment).enter .code 2
    else st.enter (.blockComment segment (depth - 1)) 2
  else if 0 < breakLength then
    (st.emit region ⟨segment, here⟩ .comment).enter (.blockComment (here + breakLength) depth)
      breakLength
  else st.enter (.blockComment segment depth) 1

/-! ## The step -/

/-- One step of the scan, for a position within the text. -/
def step (text : σ) (region : Span) (st : State) : State :=
  match st.mode with
  | .code => codeStep text region st
  | .word start => wordStep text region start st
  | .number start => numberStep text region start st
  | .quoted quote start => quotedStep text region quote start st
  | .rawString segment => rawStringStep text region segment st
  | .lineComment start => lineCommentStep text region start st
  | .blockComment segment depth => blockCommentStep text region segment depth st

/-! ## Progress -/

theorem position_wordStep (text : σ) (region : Span) (start : Nat) (st : State) :
    (wordStep text region start st).position = st.position + 1 := by
  fun_cases wordStep text region start st <;> rfl

/-- An operator or a punctuation character is read at once. -/
theorem position_lt_symbolStep (text : σ) (region : Span) (st : State) :
    st.position < (symbolStep text region st).position := by
  fun_cases symbolStep text region st with
  | case1 _ n h => simpa using operatorLength?_pos h
  | case2 => simp

/-- Every branch of code reads a character at least. -/
theorem position_lt_codeStep (text : σ) (region : Span) (st : State) :
    st.position < (codeStep text region st).position := by
  fun_cases codeStep text region st
  case case9 => exact position_lt_symbolStep text region st
  case case11 =>
    rw [position_wordStep]
    omega
  all_goals
    rw [State.position_enter]
    omega

/-- A number that has ended hands its character on to code, which reads it. -/
theorem position_lt_numberStep (text : σ) (region : Span) (start : Nat) (st : State) :
    st.position < (numberStep text region start st).position := by
  fun_cases numberStep text region start st with
  | case1 => simp
  | case2 =>
    simpa using position_lt_codeStep text region
      ((st.emit region ⟨start, st.position⟩ .number).enter .code 0)

theorem position_lt_quotedStep (text : σ) (region : Span) (quote : Quote) (start : Nat)
    (st : State) : st.position < (quotedStep text region quote start st).position := by
  fun_cases quotedStep text region quote start st
  all_goals
    simp only [State.position_enter, State.position_emit]
    omega

theorem position_lt_rawStringStep (text : σ) (region : Span) (segment : Nat) (st : State) :
    st.position < (rawStringStep text region segment st).position := by
  fun_cases rawStringStep text region segment st
  all_goals
    simp only [State.position_enter, State.position_emit]
    omega

theorem position_lt_lineCommentStep (text : σ) (region : Span) (start : Nat) (st : State) :
    st.position < (lineCommentStep text region start st).position := by
  fun_cases lineCommentStep text region start st
  all_goals
    simp only [State.position_enter, State.position_emit]
    omega

theorem position_lt_blockCommentStep (text : σ) (region : Span) (segment depth : Nat) (st : State) :
    st.position < (blockCommentStep text region segment depth st).position := by
  fun_cases blockCommentStep text region segment depth st
  all_goals
    simp only [State.position_enter, State.position_emit]
    omega

/-- Every step moves the position forward. -/
theorem position_lt_step (text : σ) (region : Span) (st : State) :
    st.position < (step text region st).position := by
  fun_cases step text region st with
  | case1 => exact position_lt_codeStep ..
  | case2 =>
    rw [position_wordStep]
    omega
  | case3 => exact position_lt_numberStep ..
  | case4 => exact position_lt_quotedStep ..
  | case5 => exact position_lt_rawStringStep ..
  | case6 => exact position_lt_lineCommentStep ..
  | case7 => exact position_lt_blockCommentStep ..

end OdinSyntax.Scan
