import OdinSyntax.Proofs.Lexeme.Extent
import OdinSyntax.Proofs.Lexeme.Pieces
import OdinSyntax.Proofs.Scan.Invariant

/-!
# The scan within a lexeme

A scan reads a text character by character and knows only its mode; the lexemes of a text are read
off it one at a time. The two accounts meet where one lexeme ends and the next begins. `Between`
says that a scan is at such an offset. It need not be in code there: a number may be waiting for its
first other character, and a line comment or an open literal for the line break, which is a lexeme
of its own. What `Between` asks is that the next step is the one that code would make and that the
end of the text is handled as code would handle it, once the pending token has been added.

For each mode there is one lemma that follows the scan from inside a lexeme to the end of it, by
recursion on the characters that are left (`leads_number`, `leads_blockComment`, ...). Where the
mode goes on, the step and the extent of the lexeme change alike.
-/

namespace OdinSyntax.Scan

open Source Lexeme

variable {σ : Type} [Source σ] {options : Options} {text : σ} {region : Span} {st : State}

/-! ## Between two lexemes -/

/-- The scan is between two lexemes at `position`, and it has found `tokens`, the pending one
included. -/
structure Between (options : Options) (text : σ) (region : Span) (position : Nat)
    (tokens : List Token) (st : State) : Prop where
  position_eq : st.position = position
  position_le : position ≤ length text
  step_eq : position < length text →
    step text region st = codeStep text region ⟨position, .code, tokens.toArray⟩
  finish_eq : position = length text →
    (finish options (length text) region st).tokens.toList = tokens
  atLexeme : position < length text → lineBreakLength text position = 0 → st.AtLexeme text

/-- In code, what has been found is found for good, and nothing is pending. -/
theorem between_code (hmode : st.mode = .code) (hle : st.position ≤ length text) :
    Between options text region st.position st.tokens.toList st where
  position_eq := rfl
  position_le := hle
  step_eq _ := by
    obtain ⟨position, mode, tokens⟩ := st
    obtain rfl : mode = .code := hmode
    rw [Array.toArray_toList]
    rfl
  finish_eq _ := by rw [finish, hmode]
  atLexeme _ _ := .inl hmode

/-- A number has ended before the position. -/
theorem between_number {start : Nat} (hmode : st.mode = .number start)
    (hle : st.position ≤ length text) (h : isNumberPart (charAt text st.position) = false) :
    Between options text region st.position
      (st.emit region ⟨start, st.position⟩ .number).tokens.toList st where
  position_eq := rfl
  position_le := hle
  step_eq _ := by
    rw [step, hmode]
    dsimp only
    rw [numberStep, if_neg (by rw [h]; exact Bool.false_ne_true), State.enter,
      State.position_emit, Array.toArray_toList, Nat.add_zero]
  finish_eq hend := by
    rw [finish, hmode, ← hend]
  atLexeme _ _ := .inr ⟨start, hmode, h⟩

/-- A line comment has come to the end of its line. -/
theorem between_lineComment {start : Nat} (hmode : st.mode = .lineComment start)
    (hle : st.position ≤ length text)
    (h : st.position < length text → 0 < lineBreakLength text st.position) :
    Between options text region st.position
      (st.emit region ⟨start, st.position⟩ .comment).tokens.toList st where
  position_eq := rfl
  position_le := hle
  step_eq hlt := by
    rw [step, hmode]
    dsimp only
    rw [lineCommentStep, codeStep, if_pos (h hlt), if_pos (h hlt), State.enter, State.enter,
      State.position_emit, Array.toArray_toList]
  finish_eq hend := by
    rw [finish, hmode, ← hend]
  atLexeme hlt hzero := absurd (h hlt) (by omega)

/-- A literal has come to the end of its line, so it is given up. -/
theorem between_quoted {quote : Quote} {start : Nat} (hmode : st.mode = .quoted quote start)
    (hle : st.position ≤ length text)
    (h : st.position < length text → 0 < lineBreakLength text st.position) :
    Between options text region st.position st.tokens.toList st where
  position_eq := rfl
  position_le := hle
  step_eq hlt := by
    rw [step, hmode]
    dsimp only
    rw [quotedStep, codeStep, if_pos (h hlt), if_pos (h hlt), State.enter, State.enter,
      Array.toArray_toList]
  finish_eq _ := by rw [finish, hmode]
  atLexeme hlt hzero := absurd (h hlt) (by omega)

/-- At the end of the text all is between two lexemes, once what is open has been closed. -/
theorem between_end (h : st.position = length text) :
    Between options text region (length text)
      (finish options (length text) region st).tokens.toList st where
  position_eq := h
  position_le := Nat.le_refl _
  step_eq hlt := absurd hlt (Nat.lt_irrefl _)
  finish_eq _ := rfl
  atLexeme hlt _ := absurd hlt (Nat.lt_irrefl _)

/-- The scan gets from `st` to between two lexemes at `position`, where it has found `tokens`. -/
def Leads (options : Options) (text : σ) (region : Span) (st : State) (position : Nat)
    (tokens : List Token) : Prop :=
  ∃ st', Reaches text region st st' ∧ Between options text region position tokens st'

theorem Between.leads {position : Nat} {tokens : List Token}
    (h : Between options text region position tokens st) :
    Leads options text region st position tokens :=
  ⟨st, .refl, h⟩

/-- A step may come first. -/
theorem Leads.of_step {position : Nat} {tokens : List Token} (hlt : st.position < length text)
    (h : Leads options text region (step text region st) position tokens) :
    Leads options text region st position tokens := by
  obtain ⟨st', hreaches, hbetween⟩ := h
  exact ⟨st', .of_step hlt hreaches, hbetween⟩

theorem Leads.position_le {position : Nat} {tokens : List Token}
    (h : Leads options text region st position tokens) : position ≤ length text := by
  obtain ⟨st', -, hbetween⟩ := h
  exact hbetween.position_le

/-- Back in code, the scan is between two lexemes. -/
theorem leads_code {position : Nat} {tokens : List Token} (hmode : st.mode = .code)
    (hposition : st.position = position) (hle : position ≤ length text)
    (htokens : st.tokens.toList = tokens) :
    Leads options text region st position tokens := by
  subst hposition htokens
  exact (between_code hmode hle).leads

/-! ## Words, numbers and line comments -/

/-- The last character of a word closes it. -/
theorem leads_wordStep_end {start : Nat} (hle : start ≤ st.position)
    (hlt : st.position < length text) (h : isWordPart (charAt text (st.position + 1)) = false) :
    Leads options text region (wordStep text region start st) (st.position + 1)
      (st.tokens.toList ++
        [⟨⟨start, st.position + 1⟩, wordKind text ⟨start, st.position + 1⟩⟩].filter
          (keeps region)) := by
  rw [wordStep_of_not_isWordPart region hle h]
  apply leads_code rfl _ hlt
  · rw [State.tokens_enter, toList_tokens_emit]
  · rw [State.position_enter, State.position_emit]

/-- A word goes on as long as characters of words follow. -/
theorem leads_wordStep {start : Nat} (st : State) (hle : start ≤ st.position)
    (hlt : st.position < length text) :
    let stop := st.position + 1 + ((suffix text (st.position + 1)).takeWhile isWordPart).length
    Leads options text region (wordStep text region start st) stop
      (st.tokens.toList ++
        [⟨⟨start, stop⟩, wordKind text ⟨start, stop⟩⟩].filter (keeps region)) := by
  -- The step looks one character ahead: either that character belongs to the word, and the
  -- recursion goes on from it, or the word ends here.
  by_cases hpart : isWordPart (charAt text (st.position + 1)) = true
  · have hlt' : st.position + 1 < length text :=
      lt_length_of_not_isBlank ((isWordPart_iff _).mp hpart).1
    have htake : ((suffix text (st.position + 1)).takeWhile isWordPart).length =
        1 + ((suffix text (st.position + 1 + 1)).takeWhile isWordPart).length := by
      rw [suffix_of_lt hlt', List.takeWhile_cons_of_pos hpart, List.length_cons, Nat.add_comm]
    have h := leads_wordStep (st.enter (.word start) 1) (Nat.le_succ_of_le hle) hlt'
    rw [wordStep_of_isWordPart region start st hpart, htake, ← Nat.add_assoc]
    exact Leads.of_step hlt' h
  · have htake : (suffix text (st.position + 1)).takeWhile isWordPart = [] := by
      by_cases hlt' : st.position + 1 < length text
      · rw [suffix_of_lt hlt', List.takeWhile_cons_of_neg hpart]
      · rw [suffix_of_length_le (by omega), List.takeWhile_nil]
    rw [htake]
    exact leads_wordStep_end hle hlt (eq_false_of_ne_true hpart)
termination_by length text - st.position
decreasing_by
  rw [State.position_enter]
  omega

/-- A number goes on as long as characters of numerals follow. -/
theorem leads_number {start : Nat} (st : State) (hmode : st.mode = .number start)
    (hle : st.position ≤ length text) :
    let stop := st.position + ((suffix text st.position).takeWhile isNumberPart).length
    Leads options text region st stop
      (st.tokens.toList ++ [⟨⟨start, stop⟩, .number⟩].filter (keeps region)) := by
  by_cases hpart : isNumberPart (charAt text st.position) = true
  · have hlt : st.position < length text :=
      lt_length_of_not_isBlank (isBlank_of_isNumberPart hpart)
    have hstep : step text region st = st.enter (.number start) 1 := by
      rw [step, hmode]
      dsimp only
      rw [numberStep, if_pos hpart]
    have htake : ((suffix text st.position).takeWhile isNumberPart).length =
        1 + ((suffix text (st.position + 1)).takeWhile isNumberPart).length := by
      rw [suffix_of_lt hlt, List.takeWhile_cons_of_pos hpart, List.length_cons, Nat.add_comm]
    have h := leads_number (st.enter (.number start) 1) rfl hlt
    apply Leads.of_step hlt
    rw [hstep, htake, ← Nat.add_assoc]
    exact h
  · have htake : (suffix text st.position).takeWhile isNumberPart = [] := by
      by_cases hlt : st.position < length text
      · rw [suffix_of_lt hlt, List.takeWhile_cons_of_neg hpart]
      · rw [suffix_of_length_le (by omega), List.takeWhile_nil]
    dsimp only
    rw [htake, List.length_nil, Nat.add_zero, ← toList_tokens_emit]
    exact (between_number hmode hle (eq_false_of_ne_true hpart)).leads
termination_by length text - st.position
decreasing_by
  rw [State.position_enter]
  omega

/-- A line comment goes on to the end of its line. -/
theorem leads_lineComment {start : Nat} (st : State) (hmode : st.mode = .lineComment start)
    (hle : st.position ≤ length text) :
    let stop := st.position + (lineContent (suffix text st.position)).length
    Leads options text region st stop
      (st.tokens.toList ++ [⟨⟨start, stop⟩, .comment⟩].filter (keeps region)) := by
  by_cases h : st.position < length text ∧ lineBreakLength text st.position = 0
  · obtain ⟨hlt, hzero⟩ := h
    have hstep : step text region st = st.enter (.lineComment start) 1 := by
      rw [step, hmode]
      dsimp only
      rw [lineCommentStep, if_neg (by omega)]
    have hcontent : (lineContent (suffix text st.position)).length =
        1 + (lineContent (suffix text (st.position + 1))).length := by
      rw [lineContent_suffix_of_eq_zero hlt hzero, List.length_cons, Nat.add_comm]
    have h := leads_lineComment (st.enter (.lineComment start) 1) rfl hlt
    apply Leads.of_step hlt
    rw [hstep, hcontent, ← Nat.add_assoc]
    exact h
  · have hbreak : st.position < length text → 0 < lineBreakLength text st.position :=
      fun hlt => Nat.pos_of_ne_zero fun hzero => h ⟨hlt, hzero⟩
    have hcontent : lineContent (suffix text st.position) = [] := by
      by_cases hlt : st.position < length text
      · exact lineContent_suffix_of_pos (hbreak hlt)
      · rw [suffix_of_length_le (by omega), lineContent]
    dsimp only
    rw [hcontent, List.length_nil, Nat.add_zero, ← toList_tokens_emit]
    exact (between_lineComment hmode hle hbreak).leads
termination_by length text - st.position
decreasing_by
  rw [State.position_enter]
  omega

/-! ## Literals on one line -/

/-- A literal that is closed on its line is one token, and any other one is none. -/
theorem leads_quoted {quote : Quote} {start : Nat} (st : State)
    (hmode : st.mode = .quoted quote start) (hle : st.position ≤ length text) :
    let found := quotedFrom text quote.char st.position
    let stop := st.position + found.2
    Leads options text region st stop
      (st.tokens.toList ++
        (if found.1 then [⟨⟨start, stop⟩, .stringLiteral⟩] else []).filter (keeps region)) := by
  have hquote : quote.char ≠ '\\' := by
    cases quote <;> decide
  have hstep : step text region st = quotedStep text region quote start st := by
    rw [step, hmode]
  dsimp only
  by_cases h : st.position < length text → 0 < lineBreakLength text st.position
  · rw [quotedFrom_of_lineEnd h]
    simpa using (between_quoted hmode hle h : Between options text region _ _ st).leads
  · obtain ⟨hlt, hpos⟩ := Classical.not_imp.mp h
    have hzero : lineBreakLength text st.position = 0 := Nat.eq_zero_of_not_pos hpos
    apply Leads.of_step hlt
    rw [hstep, quotedStep, if_neg hpos]
    by_cases hescape : charAt text st.position = '\\'
    · rw [if_pos hescape]
      -- A backslash takes the next character of the line, if there is one.
      by_cases hnext : st.position + 1 < length text ∧ lineBreakLength text (st.position + 1) = 0
      · rw [if_pos hnext, quotedFrom_escape hlt hzero hescape hnext.1 hnext.2,
          ← Nat.add_assoc]
        exact leads_quoted (st.enter (.quoted quote start) 2) rfl hnext.1
      · have hend : st.position + 1 < length text → 0 < lineBreakLength text (st.position + 1) :=
          fun hlt' => Nat.pos_of_ne_zero fun hzero' => hnext ⟨hlt', hzero'⟩
        rw [if_neg hnext, quotedFrom_escape_lineEnd hlt hzero hquote hescape hend]
        have hbetween : Between options text region _ _ (st.enter (.quoted quote start) 1) :=
          between_quoted rfl hlt hend
        simpa using hbetween.leads
    · rw [if_neg hescape]
      by_cases hc : charAt text st.position = quote.char
      · rw [if_pos hc, quotedFrom_quote hlt hzero hquote hc, if_pos rfl]
        apply leads_code rfl _ hlt
        · rw [State.tokens_enter, toList_tokens_emit]
        · rw [State.position_enter, State.position_emit]
      · rw [if_neg hc, quotedFrom_of_ne hlt hzero hescape hc, ← Nat.add_assoc]
        exact leads_quoted (st.enter (.quoted quote start) 1) rfl hlt
termination_by length text - st.position
decreasing_by
  all_goals
    rw [State.position_enter]
    omega

/-! ## Literals and comments that are cut at line breaks -/

/-- The pieces that yield tokens. The last one of a construct that is not closed is a tail. -/
def keptPieces (options : Options) (closed : Bool) (pieces : List Span) : List Span :=
  if closed || options.emitTails then pieces else pieces.dropLast

theorem keptPieces_true (options : Options) (pieces : List Span) :
    keptPieces options true pieces = pieces := rfl

/-- A piece that is not the last one is kept with tails and without. -/
theorem keptPieces_cons {closed : Bool} {span : Span} {pieces : List Span} (h : pieces ≠ []) :
    keptPieces options closed (span :: pieces) = span :: keptPieces options closed pieces := by
  unfold keptPieces
  split
  · rfl
  · rw [List.dropLast_cons_of_ne_nil h]

/-- The tokens of the pieces from `here` to `stop`, where the first piece starts at `segment`. -/
def pieceTokens (options : Options) (text : σ) (kind : Kind) (closed : Bool)
    (segment here stop : Nat) : List Token :=
  (keptPieces options closed (piecesFrom segment here (slice text ⟨here, stop⟩))).map (⟨·, kind⟩)

/-- Characters without a line break do not change the pieces. -/
theorem pieceTokens_skip {kind : Kind} {closed : Bool} {segment here middle stop : Nat}
    (h : here ≤ middle) (hu : Unbroken text here middle) (hm : middle ≤ stop)
    (hle : stop ≤ length text) :
    pieceTokens options text kind closed segment here stop =
      pieceTokens options text kind closed segment middle stop := by
  rw [pieceTokens, pieceTokens, piecesFrom_skip segment h hu hm hle]

/-- A line break makes the piece before it a token. -/
theorem pieceTokens_break {kind : Kind} {closed : Bool} {segment here stop : Nat}
    (hb : 0 < lineBreakLength text here) (hm : here + lineBreakLength text here ≤ stop)
    (hle : stop ≤ length text) :
    pieceTokens options text kind closed segment here stop =
      ⟨⟨segment, here⟩, kind⟩ :: pieceTokens options text kind closed
        (here + lineBreakLength text here) (here + lineBreakLength text here) stop := by
  rw [pieceTokens, pieceTokens, piecesFrom_break segment hb hm hle,
    keptPieces_cons (piecesFrom_ne_nil _ _ _), List.map_cons]

/-- The closer makes the last piece a token, with tails and without. -/
theorem pieceTokens_closed {kind : Kind} {segment here : Nat} :
    pieceTokens options text kind true segment here here = [⟨⟨segment, here⟩, kind⟩] := by
  rw [pieceTokens, piecesFrom_self, keptPieces_true]
  rfl

/-- Characters without a line break go to the present piece. -/
theorem Leads.of_skip {kind : Kind} {closed : Bool} {segment stop distance : Nat} {mode : Mode}
    (hu : Unbroken text st.position (st.position + distance))
    (hm : st.position + distance ≤ stop)
    (h : Leads options text region (st.enter mode distance) stop (st.tokens.toList ++
      (pieceTokens options text kind closed segment (st.position + distance) stop).filter
        (keeps region))) :
    Leads options text region (st.enter mode distance) stop (st.tokens.toList ++
      (pieceTokens options text kind closed segment st.position stop).filter (keeps region)) := by
  rw [pieceTokens_skip (Nat.le_add_right _ _) hu hm h.position_le]
  exact h

/-- A line break closes a piece, and the rest of the construct is read in the mode `mode`. -/
theorem Leads.of_break {kind : Kind} {closed : Bool} {segment stop : Nat} {mode : Mode}
    (hb : 0 < lineBreakLength text st.position)
    (hm : st.position + lineBreakLength text st.position ≤ stop)
    (h : Leads options text region
      ((st.emit region ⟨segment, st.position⟩ kind).enter mode (lineBreakLength text st.position))
      stop ((st.emit region ⟨segment, st.position⟩ kind).tokens.toList ++
        (pieceTokens options text kind closed (st.position + lineBreakLength text st.position)
          (st.position + lineBreakLength text st.position) stop).filter (keeps region))) :
    Leads options text region
      ((st.emit region ⟨segment, st.position⟩ kind).enter mode (lineBreakLength text st.position))
      stop (st.tokens.toList ++
        (pieceTokens options text kind closed segment st.position stop).filter (keeps region)) := by
  rw [pieceTokens_break hb hm h.position_le, ← List.singleton_append, List.filter_append,
    ← List.append_assoc, ← toList_tokens_emit]
  exact h

/-- The closer ends the last piece. -/
theorem leads_closer {kind : Kind} {segment distance : Nat}
    (hu : Unbroken text st.position (st.position + distance))
    (hle : st.position + distance ≤ length text) :
    Leads options text region
      ((st.emit region ⟨segment, st.position + distance⟩ kind).enter .code distance)
      (st.position + distance) (st.tokens.toList ++
        (pieceTokens options text kind true segment st.position (st.position + distance)).filter
          (keeps region)) := by
  rw [pieceTokens_skip (Nat.le_add_right _ _) hu (Nat.le_refl _) hle, pieceTokens_closed,
    ← toList_tokens_emit]
  apply leads_code rfl _ hle rfl
  rw [State.position_enter, State.position_emit]

/-- At the end of the text, the last piece is a tail. -/
theorem leads_tail {kind : Kind} {segment : Nat} (hend : st.position = length text)
    (h : (finish options (length text) region st).tokens =
      (if options.emitTails then st.emit region ⟨segment, length text⟩ kind else st).tokens) :
    Leads options text region st st.position (st.tokens.toList ++
      (pieceTokens options text kind false segment st.position st.position).filter
        (keeps region)) := by
  have htail : (finish options (length text) region st).tokens.toList = st.tokens.toList ++
      (pieceTokens options text kind false segment st.position st.position).filter
        (keeps region) := by
    rw [h, pieceTokens, piecesFrom_self, keptPieces, Bool.false_or, hend]
    split
    · exact toList_tokens_emit ..
    · exact (List.append_nil _).symm
  rw [← htail, hend]
  exact (between_end hend).leads

/-- A raw string is read with one token for each piece. -/
theorem leads_rawString {segment : Nat} (st : State) (hmode : st.mode = .rawString segment)
    (hle : st.position ≤ length text) :
    let found := rawFrom text st.position
    let stop := st.position + found.2
    Leads options text region st stop
      (st.tokens.toList ++
        (pieceTokens options text .stringLiteral found.1 segment st.position stop).filter
          (keeps region)) := by
  have hstep : step text region st = rawStringStep text region segment st := by
    rw [step, hmode]
  dsimp only
  rcases Nat.eq_or_lt_of_le hle with hend | hlt
  · rw [rawFrom_of_length_le (Nat.le_of_eq hend.symm)]
    apply leads_tail hend
    rw [finish, hmode]
  apply Leads.of_step hlt
  rw [hstep, rawStringStep]
  by_cases hbreak : 0 < lineBreakLength text st.position
  · rw [if_pos hbreak, rawFrom_break hlt, ← Nat.add_assoc]
    apply Leads.of_break hbreak (Nat.le_add_right _ _)
    -- The recursion is used at the state behind the break, whose position has to be computed first.
    have hposition : ((st.emit region ⟨segment, st.position⟩ .stringLiteral).enter
        (.rawString (st.position + lineBreakLength text st.position))
        (lineBreakLength text st.position)).position =
          st.position + lineBreakLength text st.position := by
      rw [State.position_enter, State.position_emit]
    have h := leads_rawString _ rfl (by rw [hposition]; exact add_lineBreakLength_le hle)
    rw [hposition] at h
    exact h
  · have hu : Unbroken text st.position (st.position + 1) :=
      (Unbroken.refl _ _).succ (Nat.eq_zero_of_not_pos hbreak)
    rw [if_neg hbreak]
    by_cases hc : charAt text st.position = '\x60'
    · rw [if_pos hc, rawFrom_backtick hlt hc]
      exact leads_closer hu hlt
    · rw [if_neg hc, rawFrom_of_ne hlt hc, ← Nat.add_assoc]
      apply Leads.of_skip hu (Nat.le_add_right _ _)
      exact leads_rawString (st.enter (.rawString segment) 1) rfl hlt
termination_by length text - st.position
decreasing_by
  all_goals
    simp only [State.position_enter, State.position_emit]
    omega

/-- A block comment is read with one token for each piece. -/
theorem leads_blockComment {segment depth : Nat} (st : State)
    (hmode : st.mode = .blockComment segment (depth + 1)) (hle : st.position ≤ length text) :
    let found := blockFrom text (depth + 1) st.position
    let stop := st.position + found.2
    Leads options text region st stop
      (st.tokens.toList ++
        (pieceTokens options text .comment found.1 segment st.position stop).filter
          (keeps region)) := by
  have hstep : step text region st = blockCommentStep text region segment (depth + 1) st := by
    rw [step, hmode]
  dsimp only
  rcases Nat.eq_or_lt_of_le hle with hend | hlt
  · rw [blockFrom_of_length_le (Nat.le_of_eq hend.symm)]
    apply leads_tail hend
    rw [finish, hmode]
  apply Leads.of_step hlt
  rw [hstep, blockCommentStep]
  by_cases hopen : charAt text st.position = '/' ∧ charAt text (st.position + 1) = '*'
  · obtain ⟨hle', hu⟩ := delimiter_within isBlank_slash isBlank_star hopen
    rw [if_pos hopen, blockFrom_open hle' hopen, ← Nat.add_assoc]
    apply Leads.of_skip hu (Nat.le_add_right _ _)
    exact leads_blockComment (st.enter (.blockComment segment (depth + 1 + 1)) 2) rfl hle'
  rw [if_neg hopen]
  by_cases hclose : charAt text st.position = '*' ∧ charAt text (st.position + 1) = '/'
  · obtain ⟨hle', hu⟩ := delimiter_within isBlank_star isBlank_slash hclose
    rw [if_pos hclose, blockFrom_close hle' hclose]
    -- The closer is the last one awaited, or the comment goes on.
    cases depth with
    | zero =>
      rw [if_pos (Nat.le_refl 1), blockFrom_zero]
      exact leads_closer hu hle'
    | succ depth =>
      rw [if_neg (by omega), Nat.add_sub_cancel, ← Nat.add_assoc]
      apply Leads.of_skip hu (Nat.le_add_right _ _)
      exact leads_blockComment (st.enter (.blockComment segment (depth + 1)) 2) rfl hle'
  rw [if_neg hclose]
  by_cases hbreak : 0 < lineBreakLength text st.position
  · rw [if_pos hbreak, blockFrom_break hlt, ← Nat.add_assoc]
    apply Leads.of_break hbreak (Nat.le_add_right _ _)
    have hposition : ((st.emit region ⟨segment, st.position⟩ .comment).enter
        (.blockComment (st.position + lineBreakLength text st.position) (depth + 1))
        (lineBreakLength text st.position)).position =
          st.position + lineBreakLength text st.position := by
      rw [State.position_enter, State.position_emit]
    have h := leads_blockComment _ rfl (by rw [hposition]; exact add_lineBreakLength_le hle)
    rw [hposition] at h
    exact h
  · have hu : Unbroken text st.position (st.position + 1) :=
      (Unbroken.refl _ _).succ (Nat.eq_zero_of_not_pos hbreak)
    rw [if_neg hbreak, blockFrom_of_ne hlt hopen hclose, ← Nat.add_assoc]
    apply Leads.of_skip hu (Nat.le_add_right _ _)
    exact leads_blockComment (st.enter (.blockComment segment (depth + 1)) 1) rfl hlt
termination_by length text - st.position
decreasing_by
  all_goals
    simp only [State.position_enter, State.position_emit]
    omega

end OdinSyntax.Scan
