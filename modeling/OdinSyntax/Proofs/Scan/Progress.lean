import Mathlib.Logic.Function.Iterate
import OdinSyntax.Proofs.Scan.Invariant

/-!
# Progress and bounds

The offsets of a scan are numbers of 32 bits, and an addition of two of them is only right as long
as the sum is one too. Here is the scan with each addition checked (`step?`, `run?`): it comes to
nothing if a sum is past the largest offset, or if the end of the text is not reached within a given
number of steps. It comes to what the scan comes to, within as many steps as the text has characters
(`run?_eq_scan`).

A checked step can only go wrong where the step leads past the largest offset (`Checks`), and the
invariant of the scan says that it does not lead past the end of the text. The depth of a comment is
no more than half of the position.
-/

namespace OdinSyntax.Scan

open Source

variable {σ : Type} [Source σ]

/-! ## Checked additions -/

/-- The sum of two offsets, if it is one. -/
def sum? (a b : Nat) : Option Nat :=
  if a + b ≤ maxOffset then some (a + b) else none

/-- The character `n` places behind `offset`. The offset it is read at stops at the largest one,
where no text has a character. -/
def ahead (text : σ) (offset n : Nat) : Char :=
  charAt text (min (offset + n) maxOffset)

/-- Length of the line break at `offset`, told by such reads. -/
def breakAhead (text : σ) (offset : Nat) : Nat :=
  if charAt text offset = '\n' then 1
  else if charAt text offset = '\r' ∧ ahead text offset 1 = '\n' then 2
  else 0

/-- Go on in `mode`, `distance` characters further. -/
def State.enter? (st : State) (mode : Mode) (distance : Nat) : Option State :=
  (sum? st.position distance).map fun position => { st with position, mode }

theorem sum?_of_le {a b : Nat} (h : a + b ≤ maxOffset) : sum? a b = some (a + b) :=
  if_pos h

/-- The bound changes no read, since past the largest offset a text reads as it does there. -/
@[simp] theorem ahead_eq_charAt (text : σ) (offset n : Nat) :
    ahead text offset n = charAt text (offset + n) :=
  charAt_min text (offset + n)

/-- Hence the same line breaks are found. -/
@[simp] theorem breakAhead_eq_lineBreakLength (text : σ) (offset : Nat) :
    breakAhead text offset = lineBreakLength text offset := by
  rw [breakAhead, ahead_eq_charAt, lineBreakLength]

example : sum? maxOffset 1 = none := by decide

/-! ## Checked steps -/

/-- `wordStep` with checked additions. -/
def wordStep? (text : σ) (region : Span) (start : Nat) (st : State) : Option State :=
  (st.enter? (.word start) 1).map fun st =>
    let next := charAt text st.position
    if isBlank next || isPunctuation next then
      let span := Span.mk start st.position
      if span.intersects region then
        { st with mode := .code, tokens := st.tokens.push ⟨span, wordKind text span⟩ }
      else { st with mode := .code }
    else st

/-- `symbolStep` with checked additions. -/
def symbolStep? (text : σ) (region : Span) (st : State) : Option State :=
  let start := st.position
  match operatorLength? (charAt text start) (ahead text start 1) (ahead text start 2) with
  | some n => (st.emit region (.ofLength start n) .operator).enter? .code n
  | none => (st.emit region (.ofLength start 1) .punctuation).enter? .code 1

/-- `codeStep` with checked additions. -/
def codeStep? (text : σ) (region : Span) (st : State) : Option State :=
  let start := st.position
  let c := charAt text start
  let next := ahead text start 1
  let breakLength := breakAhead text start
  if 0 < breakLength then st.enter? .code breakLength
  else if c = '/' ∧ next = '*' then st.enter? (.blockComment start 1) 2
  else if c = '*' ∧ next = '/' then st.enter? .code 2
  else if c = '/' ∧ next = '/' then st.enter? (.lineComment start) 2
  else if c = '"' then st.enter? (.quoted .double start) 1
  else if c = '\'' then st.enter? (.quoted .single start) 1
  else if c = '\x60' then st.enter? (.rawString start) 1
  else if isNumberStart c next then st.enter? (.number start) 1
  else if isPunctuation c then symbolStep? text region st
  else if isBlank c then st.enter? .code 1
  else wordStep? text region start st

/-- `numberStep` with checked additions. -/
def numberStep? (text : σ) (region : Span) (start : Nat) (st : State) : Option State :=
  if isNumberPart (charAt text st.position) then st.enter? (.number start) 1
  else codeStep? text region ((st.emit region ⟨start, st.position⟩ .number).enter .code 0)

/-- `quotedStep` with checked additions. A character that is escaped is passed by a second one. -/
def quotedStep? (text : σ) (region : Span) (quote : Quote) (start : Nat) (st : State) :
    Option State :=
  let here := st.position
  let breakLength := breakAhead text here
  if 0 < breakLength then st.enter? .code breakLength
  else if charAt text here = '\\' then
    (st.enter? (.quoted quote start) 1).bind fun st =>
      if st.position < length text ∧ breakAhead text st.position = 0 then
        st.enter? (.quoted quote start) 1
      else some st
  else if charAt text here = quote.char then
    (sum? here 1).bind fun stop => (st.emit region ⟨start, stop⟩ .stringLiteral).enter? .code 1
  else st.enter? (.quoted quote start) 1

/-- `rawStringStep` with checked additions. -/
def rawStringStep? (text : σ) (region : Span) (segment : Nat) (st : State) : Option State :=
  let here := st.position
  let breakLength := breakAhead text here
  if 0 < breakLength then
    (sum? here breakLength).bind fun next =>
      (st.emit region ⟨segment, here⟩ .stringLiteral).enter? (.rawString next) breakLength
  else if charAt text here = '\x60' then
    (sum? here 1).bind fun stop => (st.emit region ⟨segment, stop⟩ .stringLiteral).enter? .code 1
  else st.enter? (.rawString segment) 1

/-- `lineCommentStep` with checked additions. -/
def lineCommentStep? (text : σ) (region : Span) (start : Nat) (st : State) : Option State :=
  let here := st.position
  let breakLength := breakAhead text here
  if 0 < breakLength then (st.emit region ⟨start, here⟩ .comment).enter? .code breakLength
  else st.enter? (.lineComment start) 1

/-- `blockCommentStep` with checked additions. -/
def blockCommentStep? (text : σ) (region : Span) (segment depth : Nat) (st : State) :
    Option State :=
  let here := st.position
  let c := charAt text here
  let next := ahead text here 1
  let breakLength := breakAhead text here
  if c = '/' ∧ next = '*' then
    (sum? depth 1).bind fun deeper => st.enter? (.blockComment segment deeper) 2
  else if c = '*' ∧ next = '/' then
    if depth ≤ 1 then
      (sum? here 2).bind fun stop => (st.emit region ⟨segment, stop⟩ .comment).enter? .code 2
    else st.enter? (.blockComment segment (depth - 1)) 2
  else if 0 < breakLength then
    (sum? here breakLength).bind fun next =>
      (st.emit region ⟨segment, here⟩ .comment).enter? (.blockComment next depth) breakLength
  else st.enter? (.blockComment segment depth) 1

/-- `step` with checked additions. -/
def step? (text : σ) (region : Span) (st : State) : Option State :=
  match st.mode with
  | .code => codeStep? text region st
  | .word start => wordStep? text region start st
  | .number start => numberStep? text region start st
  | .quoted quote start => quotedStep? text region quote start st
  | .rawString segment => rawStringStep? text region segment st
  | .lineComment start => lineCommentStep? text region start st
  | .blockComment segment depth => blockCommentStep? text region segment depth st

/-- Step with checked additions until the position is at the end of the text, which has to be within
`n` steps. -/
def run? (text : σ) (region : Span) : Nat → State → Option State
  | 0, st => if st.position < length text then none else some st
  | n + 1, st =>
    if st.position < length text then (step? text region st).bind (run? text region n) else some st

/-! ## Steps within the largest offset -/

/-- Checked additions come to `st`, unless its position is past the largest offset. -/
def Checks (st? : Option State) (st : State) : Prop :=
  st.position ≤ maxOffset → st? = some st

theorem Checks.ite {p : Prop} [Decidable p] {a? b? : Option State} {a b : State}
    (h : Checks a? a) (h' : Checks b? b) : Checks (if p then a? else b?) (if p then a else b) := by
  split
  · exact h
  · exact h'

variable {text : σ} {region : Span} {st : State}

/-- The position is the only thing that a step adds to. -/
theorem checks_enter (mode : Mode) (distance : Nat) :
    Checks (st.enter? mode distance) (st.enter mode distance) := by
  intro h
  rw [State.enter?, sum?_of_le h]
  rfl

/-- Where a sum is the next position, it is no further than that. -/
theorem checks_sum (next : Nat → State) (mode : Nat → Mode) {distance : Nat}
    (hnext : ∀ n, (next n).position = st.position) :
    Checks ((sum? st.position distance).bind fun n => (next n).enter? (mode n) distance)
      ((next (st.position + distance)).enter (mode (st.position + distance)) distance) := by
  intro h
  have hle : st.position + distance ≤ maxOffset := by
    rwa [State.position_enter, hnext] at h
  rw [sum?_of_le hle]
  exact checks_enter _ _ h

theorem checks_wordStep (start : Nat) :
    Checks (wordStep? text region start st) (wordStep text region start st) := by
  intro h
  rw [position_wordStep] at h
  rw [wordStep?, checks_enter _ _ h]
  rfl

theorem ofLength_eq {start n : Nat} (h : start + n ≤ maxOffset) :
    Span.ofLength start n = ⟨start, start + n⟩ := by
  rw [Span.ofLength, Nat.min_eq_left h]

/-- A symbol ends at the next position. -/
theorem checks_symbol (kind : Kind) (n : Nat) :
    Checks ((st.emit region (.ofLength st.position n) kind).enter? .code n)
      ((st.emit region ⟨st.position, st.position + n⟩ kind).enter .code n) := by
  intro h
  have hle : st.position + n ≤ maxOffset := by
    rwa [State.position_enter, State.position_emit] at h
  rw [ofLength_eq hle]
  exact checks_enter _ _ h

theorem checks_symbolStep : Checks (symbolStep? text region st) (symbolStep text region st) := by
  rw [symbolStep?, symbolStep]
  simp only [ahead_eq_charAt]
  cases operatorLength? (charAt text st.position) (charAt text (st.position + 1))
      (charAt text (st.position + 2)) with
  | some n => exact checks_symbol .operator n
  | none => exact checks_symbol .punctuation 1

/-- Code adds at most the length of a line break or a delimiter. -/
theorem checks_codeStep : Checks (codeStep? text region st) (codeStep text region st) := by
  rw [codeStep?, codeStep]
  simp only [ahead_eq_charAt, breakAhead_eq_lineBreakLength]
  refine .ite (checks_enter _ _) <| .ite (checks_enter _ _) <| .ite (checks_enter _ _) <|
    .ite (checks_enter _ _) <| .ite (checks_enter _ _) <| .ite (checks_enter _ _) <|
    .ite (checks_enter _ _) <| .ite (checks_enter _ _) <| .ite checks_symbolStep <|
    .ite (checks_enter _ _) (checks_wordStep _)

/-- Numbers add one character, or leave it to code. -/
theorem checks_numberStep (start : Nat) :
    Checks (numberStep? text region start st) (numberStep text region start st) :=
  .ite (checks_enter _ _) checks_codeStep

/-- A backslash and the character it escapes are passed one after the other. -/
theorem checks_escape (quote : Quote) (start : Nat) :
    Checks
      ((st.enter? (.quoted quote start) 1).bind fun st =>
        if st.position < length text ∧ lineBreakLength text st.position = 0 then
          st.enter? (.quoted quote start) 1
        else some st)
      (if st.position + 1 < length text ∧ lineBreakLength text (st.position + 1) = 0 then
        st.enter (.quoted quote start) 2
      else st.enter (.quoted quote start) 1) := by
  intro h
  have hle : st.position + 1 ≤ maxOffset := by
    split at h <;> exact Nat.le_trans (Nat.add_le_add_left (by decide) _) h
  rw [checks_enter _ _ hle, Option.bind_some]
  exact Checks.ite (checks_enter _ _) (fun _ => rfl) h

/-- Literals add one character, or two for an escape. -/
theorem checks_quotedStep (quote : Quote) (start : Nat) :
    Checks (quotedStep? text region quote start st) (quotedStep text region quote start st) := by
  rw [quotedStep?, quotedStep]
  simp only [breakAhead_eq_lineBreakLength]
  refine .ite (checks_enter _ _) <| .ite (checks_escape quote start) <|
    .ite ?_ (checks_enter _ _)
  exact checks_sum (fun stop => st.emit region ⟨start, stop⟩ .stringLiteral) (fun _ => .code)
    fun _ => State.position_emit ..

theorem checks_rawStringStep (segment : Nat) :
    Checks (rawStringStep? text region segment st) (rawStringStep text region segment st) := by
  rw [rawStringStep?, rawStringStep]
  simp only [breakAhead_eq_lineBreakLength]
  refine .ite ?_ <| .ite ?_ (checks_enter _ _)
  · exact checks_sum (fun _ => st.emit region ⟨segment, st.position⟩ .stringLiteral) .rawString
      fun _ => State.position_emit ..
  · exact checks_sum (fun stop => st.emit region ⟨segment, stop⟩ .stringLiteral) (fun _ => .code)
      fun _ => State.position_emit ..

theorem checks_lineCommentStep (start : Nat) :
    Checks (lineCommentStep? text region start st) (lineCommentStep text region start st) := by
  rw [lineCommentStep?, lineCommentStep]
  simp only [breakAhead_eq_lineBreakLength]
  exact .ite (checks_enter _ _) (checks_enter _ _)

/-- The depth of a comment is no more than half of the position. -/
theorem checks_blockCommentStep {segment depth : Nat} (hdepth : 2 * depth ≤ st.position) :
    Checks (blockCommentStep? text region segment depth st)
      (blockCommentStep text region segment depth st) := by
  rw [blockCommentStep?, blockCommentStep]
  simp only [ahead_eq_charAt, breakAhead_eq_lineBreakLength]
  refine .ite ?_ <| .ite (.ite ?_ (checks_enter _ _)) <| .ite ?_ (checks_enter _ _)
  · intro h
    have hle : st.position + 2 ≤ maxOffset := h
    rw [sum?_of_le (by omega)]
    exact checks_enter _ _ h
  · exact checks_sum (fun stop => st.emit region ⟨segment, stop⟩ .comment) (fun _ => .code)
      fun _ => State.position_emit ..
  · exact checks_sum (fun _ => st.emit region ⟨segment, st.position⟩ .comment)
      (fun next => .blockComment next depth) fun _ => State.position_emit ..

/-- Within the text no addition goes wrong. -/
theorem Inv.step?_eq (h : Inv text region st) (hlt : st.position < length text) :
    step? text region st = some (step text region st) := by
  -- The invariant keeps the next position within the text, and the text ends at the largest offset
  -- at the latest.
  have hle := Nat.le_trans (inv_step hlt h).position_le (length_le text)
  have hfits := h.fits
  rw [step?]
  rw [step] at hle ⊢
  cases hmode : st.mode with
  | code =>
    rw [hmode] at hle
    exact checks_codeStep hle
  | word start =>
    rw [hmode] at hle
    exact checks_wordStep start hle
  | number start =>
    rw [hmode] at hle
    exact checks_numberStep start hle
  | quoted quote start =>
    rw [hmode] at hle
    exact checks_quotedStep quote start hle
  | rawString segment =>
    rw [hmode] at hle
    exact checks_rawStringStep segment hle
  | lineComment start =>
    rw [hmode] at hle
    exact checks_lineCommentStep start hle
  | blockComment segment depth =>
    rw [hmode] at hle hfits
    exact checks_blockCommentStep hfits.2.2.2 hle

/-! ## Runs -/

/-- As many steps as characters are left bring the checked scan to the end. -/
theorem Inv.run?_eq {n : Nat} (h : Inv text region st) (hn : length text ≤ st.position + n) :
    run? text region n st = some (run text region st) := by
  induction n generalizing st with
  | zero =>
    have hend : ¬ st.position < length text := by omega
    rw [run?, if_neg hend, run_of_le hn]
  | succ n ih =>
    rw [run?]
    split
    · next hlt =>
      have hnext := position_lt_step text region st
      rw [h.step?_eq hlt, Option.bind_some, ih (inv_step hlt h) (by omega), ← run_of_lt hlt]
    · next hge => rw [run_of_le (Nat.le_of_not_lt hge)]

/-- Since each step moves the position, there are no more of them than characters. -/
theorem exists_iterate_eq_run (text : σ) (region : Span) (st : State) :
    ∃ n ≤ length text - st.position, (step text region)^[n] st = run text region st ∧
      ∀ k < n, ((step text region)^[k] st).position < length text := by
  fun_induction run text region st with
  | case1 st hlt ih =>
    obtain ⟨n, hn, hrun, hbefore⟩ := ih
    have hnext := position_lt_step text region st
    refine ⟨n + 1, by omega, hrun, fun k hk => ?_⟩
    cases k with
    | zero => exact hlt
    | succ k => exact hbefore k (Nat.lt_of_succ_lt_succ hk)
  | case2 st hge => exact ⟨0, Nat.zero_le _, rfl, fun k hk => absurd hk (Nat.not_lt_zero k)⟩

/-- **A scan moves on, stays within the text and adds no two numbers past the largest offset.** Each
state it passes through has a position within the text. A step from before the end leads further and
not past the end, and it is the same with all additions checked. The scan gets to the end, in no
more steps than the text has characters, and with all additions checked it does so too. No step
holds a loop over positions: those of a line comment are steps of their own. -/
theorem scan_within (text : σ) (region : Span) :
    (∀ st, Reached text region st → st.position ≤ length text ∧
      (st.position < length text → st.position < (step text region st).position ∧
        (step text region st).position ≤ length text ∧
        step? text region st = some (step text region st))) ∧
    (∃ n ≤ length text, (step text region)^[n] {} = scan text region ∧
      ∀ k < n, ((step text region)^[k] {}).position < length text) ∧
    (scan text region).position = length text ∧
    run? text region (length text) {} = some (scan text region) := by
  refine ⟨fun st hreached => ⟨hreached.inv.position_le, fun hlt => ⟨?_, ?_, ?_⟩⟩, ?_, ?_, ?_⟩
  · exact position_lt_step text region st
  · exact (inv_step hlt hreached.inv).position_le
  · exact hreached.inv.step?_eq hlt
  · exact exists_iterate_eq_run text region {}
  · exact position_scan text region
  · exact (inv_init text region).run?_eq (Nat.le_add_left _ _)

/-- A line comment whose line break ends the text. -/
theorem scan_within_lineBreak :
    let text := Snapshot.ofString "//\r\n"
    let st : State := ⟨2, .lineComment 0, #[]⟩
    Reached text ⟨0, 4⟩ st ∧ 2 < (step text ⟨0, 4⟩ st).position ∧
      (step text ⟨0, 4⟩ st).position ≤ 4 ∧
      step? text ⟨0, 4⟩ st = some (step text ⟨0, 4⟩ st) ∧
      run? text ⟨0, 4⟩ 4 {} = some (scan text ⟨0, 4⟩) := by
  intro text st
  have hreached : Reached text ⟨0, 4⟩ st := reaches_step (show 0 < length text by decide)
  obtain ⟨hstates, -, -, hrun⟩ := scan_within text ⟨0, 4⟩
  obtain ⟨hlt, hle, hstep⟩ := (hstates st hreached).2 (by decide)
  exact ⟨hreached, hlt, hle, hstep, hrun⟩

end OdinSyntax.Scan
