import OdinSyntax.Scan.Step

/-!
# Tokenizing

`tokenize` scans a text from its start to its end and gives the tokens that meet a region, in the
order of the text. Each call reads the whole text, so comments and literals that are open where the
region starts are known.
-/

namespace OdinSyntax

open Source

variable {σ : Type} [Readable σ]

namespace Scan

/-- What a tokenizer can be asked for. -/
structure Options where
  /-- Whether a block comment or raw string that is open at the end of the text yields a token for
  its last line. -/
  emitTails : Bool := true
deriving DecidableEq, Inhabited

/-- Step until the position is at the end of the text. -/
def run (text : σ) (region : Span) (st : State) : State :=
  if st.position < length text then run text region (step text region st) else st
termination_by length text - st.position
decreasing_by
  have := position_lt_step text region st
  omega

/-- Close what is open at the end of the text, `stop`. A literal with a missing quote is given up. A
word is never open there, for the sentinel has ended it. -/
def finish (options : Options) (stop : Nat) (region : Span) (st : State) : State :=
  let st' := match st.mode with
    | .number start => st.emit region ⟨start, stop⟩ .number
    | .lineComment start => st.emit region ⟨start, stop⟩ .comment
    | .blockComment segment _ =>
      if options.emitTails then st.emit region ⟨segment, stop⟩ .comment else st
    | .rawString segment =>
      if options.emitTails then st.emit region ⟨segment, stop⟩ .stringLiteral else st
    | .code | .word _ | .quoted _ _ => st
  { st' with mode := .code }

/-- The scan of the whole text, before what is open at its end is closed. -/
def scan (text : σ) (region : Span) : State :=
  run text region {}

end Scan

/-- The tokens of `text` that meet `region`. -/
def tokenize (options : Scan.Options) (text : σ) (region : Span) : List Token :=
  (Scan.finish options (length text) region (Scan.scan text region)).tokens.toList

/-- All tokens of `text`. -/
def tokenizeAll (text : σ) : List Token :=
  tokenize {} text ⟨0, length text⟩

end OdinSyntax
