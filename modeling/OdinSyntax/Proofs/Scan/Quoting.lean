import OdinSyntax.Proofs.Scan.Coverage
import OdinSyntax.Proofs.Scan.LineState

/-!
# Literals and their closing quotes

A backslash in a literal takes the next character with it, so the scan goes over a run of
backslashes in pairs. Whether it sees a quote depends on the run before the quote: the quote closes
the literal if and only if the run is of even length (`Closes`). The invariant is that the scan of a
literal, between two steps, has an even number of backslashes right before it
(`exists_reaches_quoted`).

A literal that is not closed on its line leaves no trace. It yields no token, and the scan goes on
with the next line as if there had been nothing before.

Main statement: **`tokenize_literal`**.
-/

namespace OdinSyntax.Scan

open Source Lexeme

variable {σ : Type} [Source σ] {options : Options} {text : σ} {region : Span} {st : State}
  {quote : Quote} {start offset : Nat}

/-! ## Runs of backslashes -/

/-- Length of the run of backslashes right before an offset, counted back to `low` at most. -/
def backslashesBefore (text : σ) (low : Nat) : Nat → Nat
  | 0 => 0
  | offset + 1 =>
    if low ≤ offset ∧ charAt text offset = '\\' then backslashesBefore text low offset + 1 else 0

/-- Whether the character at `offset` closes the literal that is opened at `start`. -/
def Closes (text : σ) (quote : Quote) (start offset : Nat) : Prop :=
  start < offset ∧ charAt text offset = quote.char ∧
    backslashesBefore text (start + 1) offset % 2 = 0

instance (text : σ) (quote : Quote) (start offset : Nat) :
    Decidable (Closes text quote start offset) :=
  inferInstanceAs (Decidable (_ ∧ _))

/-- Where the line ends on which `offset` lies: at its line break, or at the end of the text. -/
def lineEnd (text : σ) (offset : Nat) : Nat :=
  offset + (lineContent (suffix text offset)).length

/-- A line ends at or behind each of its offsets. -/
theorem le_lineEnd (text : σ) (offset : Nat) : offset ≤ lineEnd text offset :=
  Nat.le_add_right _ _

theorem lineEnd_self (h : offset < length text → 0 < lineBreakLength text offset) :
    lineEnd text offset = offset := by
  rw [lineEnd, lineContent_suffix_of_lineEnd h]
  rfl

/-- A character that starts no line break is part of the line. -/
theorem lineEnd_succ (hlt : offset < length text) (hzero : lineBreakLength text offset = 0) :
    lineEnd text offset = lineEnd text (offset + 1) := by
  rw [lineEnd, lineEnd, lineContent_suffix_of_eq_zero hlt hzero, List.length_cons]
  omega

theorem backslashesBefore_self (text : σ) (low : Nat) : backslashesBefore text low low = 0 := by
  cases low with
  | zero => rfl
  | succ low => rw [backslashesBefore, if_neg (by omega)]

theorem backslashesBefore_succ {low : Nat} (hle : low ≤ offset) (hc : charAt text offset = '\\') :
    backslashesBefore text low (offset + 1) = backslashesBefore text low offset + 1 := by
  rw [backslashesBefore, if_pos ⟨hle, hc⟩]

theorem backslashesBefore_of_ne {low : Nat} (hc : charAt text offset ≠ '\\') :
    backslashesBefore text low (offset + 1) = 0 := by
  rw [backslashesBefore, if_neg fun h => hc h.2]

/-- A backslash behind an even number of them takes a character with it, which is a backslash or
breaks the run. -/
theorem even_backslashesBefore_add_two {low : Nat} (hle : low ≤ offset)
    (hc : charAt text offset = '\\') (heven : backslashesBefore text low offset % 2 = 0) :
    backslashesBefore text low (offset + 2) % 2 = 0 := by
  by_cases hnext : charAt text (offset + 1) = '\\'
  · rw [backslashesBefore_succ (Nat.le_succ_of_le hle) hnext, backslashesBefore_succ hle hc]
    omega
  · rw [backslashesBefore_of_ne hnext]

/-- No quote is a backslash, so none escapes what is behind it. -/
theorem Quote.char_ne_backslash (quote : Quote) : quote.char ≠ '\\' := by
  cases quote <;> decide

/-! ## Up to the closing quote or the end of the line -/

/-- The scan of a literal comes to the first quote that closes the literal, or else to the end of
the line at `stop`. -/
def ReadsLiteral (text : σ) (region : Span) (quote : Quote) (start stop : Nat)
    (st : State) : Prop :=
  ∃ st', Reaches text region st st' ∧ st'.mode = .quoted quote start ∧ st'.tokens = st.tokens ∧
    (∀ i, st.position ≤ i → i < st'.position → ¬ Closes text quote start i) ∧
    (st'.position = stop ∧ (stop < length text → 0 < lineBreakLength text stop) ∨
      st'.position < stop ∧ Closes text quote start st'.position)

/-- A step within the literal comes first, if it goes over no quote that closes. -/
theorem ReadsLiteral.of_step {stop distance : Nat} {mode : Mode} (hlt : st.position < length text)
    (hstep : step text region st = st.enter mode distance)
    (hnone : ∀ i, st.position ≤ i → i < st.position + distance → ¬ Closes text quote start i)
    (h : ReadsLiteral text region quote start stop (st.enter mode distance)) :
    ReadsLiteral text region quote start stop st := by
  obtain ⟨st', hreaches, hmode, htokens, hlater, hstop⟩ := h
  refine ⟨st', .of_step hlt (hstep ▸ hreaches), hmode, htokens, fun i hi hi' => ?_, hstop⟩
  rcases Nat.lt_or_ge i (st.position + distance) with hbefore | hbehind
  · exact hnone i hi hbefore
  · exact hlater i hbehind hi'

/-- At the end of the line there is nothing more to read. -/
theorem readsLiteral_lineEnd (hmode : st.mode = .quoted quote start)
    (h : st.position < length text → 0 < lineBreakLength text st.position) :
    ReadsLiteral text region quote start st.position st :=
  ⟨st, .refl, hmode, rfl, fun i hi hi' => absurd hi' (by omega), .inl ⟨rfl, h⟩⟩

/-- From an even number of backslashes on, the scan reads the literal. -/
theorem readsLiteral (st : State) (hmode : st.mode = .quoted quote start)
    (hlt : start < st.position)
    (heven : backslashesBefore text (start + 1) st.position % 2 = 0) :
    ReadsLiteral text region quote start (lineEnd text st.position) st := by
  have hstep : step text region st = quotedStep text region quote start st := by
    rw [step, hmode]
  by_cases hline : st.position < length text → 0 < lineBreakLength text st.position
  · rw [lineEnd_self hline]
    exact readsLiteral_lineEnd hmode hline
  obtain ⟨hin, hpos⟩ := Classical.not_imp.mp hline
  have hzero : lineBreakLength text st.position = 0 := Nat.eq_zero_of_not_pos hpos
  have hsucc := lineEnd_succ hin hzero
  rw [quotedStep, if_neg hpos] at hstep
  by_cases hescape : charAt text st.position = '\\'
  · have hnone : ¬ Closes text quote start st.position := fun h =>
      quote.char_ne_backslash (h.2.1.symm.trans hescape)
    have hodd : backslashesBefore text (start + 1) (st.position + 1) =
        backslashesBefore text (start + 1) st.position + 1 := backslashesBefore_succ hlt hescape
    rw [if_pos hescape] at hstep
    -- At the end of the line there is no character that the backslash could take with it.
    by_cases hnext : st.position + 1 < length text ∧ lineBreakLength text (st.position + 1) = 0
    · rw [if_pos hnext] at hstep
      rw [hsucc, lineEnd_succ hnext.1 hnext.2]
      refine .of_step hin hstep (fun i hi hi' hcloses => ?_) ?_
      · obtain rfl | rfl : i = st.position ∨ i = st.position + 1 := by omega
        · exact hnone hcloses
        · have hrun := hcloses.2.2
          omega
      · exact readsLiteral (st.enter (.quoted quote start) 2) rfl (Nat.lt_add_right 2 hlt)
          (even_backslashesBefore_add_two hlt hescape heven)
    · have hend : st.position + 1 < length text → 0 < lineBreakLength text (st.position + 1) :=
        fun hlt' => Nat.pos_of_ne_zero fun hzero' => hnext ⟨hlt', hzero'⟩
      rw [if_neg hnext] at hstep
      rw [hsucc, lineEnd_self hend]
      refine .of_step hin hstep (fun i hi hi' hcloses => ?_) ?_
      · obtain rfl : i = st.position := by omega
        exact hnone hcloses
      · exact readsLiteral_lineEnd rfl hend
  · rw [if_neg hescape] at hstep
    by_cases hc : charAt text st.position = quote.char
    · have hbound : st.position < lineEnd text st.position := hsucc ▸ le_lineEnd text _
      exact ⟨st, .refl, hmode, rfl, fun i hi hi' => absurd hi' (by omega),
        .inr ⟨hbound, hlt, hc, heven⟩⟩
    · rw [if_neg hc] at hstep
      rw [hsucc]
      refine .of_step hin hstep (fun i hi hi' hcloses => ?_) ?_
      · obtain rfl : i = st.position := by omega
        exact hc hcloses.2.1
      · refine readsLiteral (st.enter (.quoted quote start) 1) rfl (Nat.lt_succ_of_lt hlt) ?_
        rw [State.position_enter, backslashesBefore_of_ne hescape]
termination_by length text - st.position
decreasing_by
  all_goals
    rw [State.position_enter]
    omega

/-! ## Where a quote opens a literal -/

theorem Quote.isBlank_char (quote : Quote) : isBlank quote.char = false := by
  cases quote <;> decide

theorem codeStep_quote {position : Nat} {tokens : Array Token}
    (hc : charAt text position = quote.char) :
    codeStep text region ⟨position, .code, tokens⟩ =
      ⟨position + 1, .quoted quote position, tokens⟩ := by
  have hzero : lineBreakLength text position = 0 :=
    lineBreakLength_eq_zero_of_not_isBlank (hc ▸ quote.isBlank_char)
  rw [codeStep, hzero, hc]
  cases quote <;> simp [Quote.char, State.enter]

/-- From an opening quote on, the scan reads the literal, and it has found tokens before the quote
only. -/
theorem Reached.exists_literal (h : Reached text region st) (hat : st.AtLexeme text)
    (hc : charAt text st.position = quote.char) :
    ∃ st', Reached text region st' ∧ st'.mode = .quoted quote st.position ∧
      Kept text region st.position st'.tokens.toList ∧
      (∀ i < st'.position, ¬ Closes text quote st.position i) ∧
      (st'.position = lineEnd text (st.position + 1) ∧
          (st'.position < length text → 0 < lineBreakLength text st'.position) ∨
        st'.position < lineEnd text (st.position + 1) ∧
          Closes text quote st.position st'.position) := by
  have hlt : st.position < length text := lt_length_of_not_isBlank (hc ▸ quote.isBlank_char)
  obtain ⟨tokens, hstep, hkept⟩ := h.inv.exists_step_eq_codeStep hat
  rw [codeStep_quote hc] at hstep
  have hreads : ReadsLiteral text region quote st.position (lineEnd text (st.position + 1))
      ⟨st.position + 1, .quoted quote st.position, tokens⟩ :=
    readsLiteral _ rfl (Nat.lt_succ_self _) (by rw [backslashesBefore_self])
  obtain ⟨st', hreaches, hmode, htokens, hnone, hstop⟩ := hreads
  refine ⟨st', h.trans (Reaches.of_step hlt (hstep ▸ hreaches)), hmode, htokens ▸ hkept,
    fun i hi hcloses => hnone i hcloses.1 hi hcloses, ?_⟩
  rcases hstop with ⟨hposition, hbreak⟩ | hcloses
  · exact .inl ⟨hposition, hposition ▸ hbreak⟩
  · exact .inr hcloses

/-- The step over the closing quote yields the literal. -/
theorem Reached.exists_closed (h : Reached text region st) (hat : st.AtLexeme text)
    (hc : charAt text st.position = quote.char) {close : Nat}
    (hlt : close < lineEnd text (st.position + 1)) (hcloses : Closes text quote st.position close)
    (hfirst : ∀ i < close, ¬ Closes text quote st.position i) :
    ∃ st' before, Reached text region st' ∧ st'.mode = .code ∧ st'.position = close + 1 ∧
      Kept text region st.position before ∧
      st'.tokens.toList =
        before ++ [⟨⟨st.position, close + 1⟩, .stringLiteral⟩].filter (keeps region) := by
  obtain ⟨st', hreached, hmode, hkept, hnone, hstop⟩ := h.exists_literal hat hc
  -- The loop stops at the first quote that closes the literal: it neither stops earlier nor goes
  -- over it.
  obtain rfl : st'.position = close := by
    rcases Nat.lt_trichotomy st'.position close with hbefore | heq | hbehind
    · rcases hstop with ⟨hend, -⟩ | ⟨-, hcloses'⟩
      · omega
      · exact absurd hcloses' (hfirst _ hbefore)
    · exact heq
    · exact absurd hcloses (hnone _ hbehind)
  have hin : st'.position < length text :=
    lt_length_of_not_isBlank (hcloses.2.1 ▸ quote.isBlank_char)
  have hzero : ¬ 0 < lineBreakLength text st'.position := by
    rw [lineBreakLength_eq_zero_of_not_isBlank (hcloses.2.1 ▸ quote.isBlank_char)]
    exact Nat.lt_irrefl 0
  have hescape : charAt text st'.position ≠ '\\' := by
    rw [hcloses.2.1]
    exact quote.char_ne_backslash
  have hstep : step text region st' =
      (st'.emit region ⟨st.position, st'.position + 1⟩ .stringLiteral).enter .code 1 := by
    rw [step, hmode]
    dsimp only
    rw [quotedStep, if_neg hzero, if_neg hescape, if_pos hcloses.2.1]
  refine ⟨_, _, hreached.tail ⟨hin, hstep.symm⟩, rfl, ?_, hkept, ?_⟩
  · rw [State.position_enter, State.position_emit]
  · rw [State.tokens_enter, toList_tokens_emit]

/-- A literal with no closing quote ends with its line, or it ends the text. -/
theorem Reached.exists_unclosed (h : Reached text region st) (hat : st.AtLexeme text)
    (hc : charAt text st.position = quote.char)
    (hnone : ∀ close < lineEnd text (st.position + 1), ¬ Closes text quote st.position close) :
    ∃ st', Reached text region st' ∧ Kept text region st.position st'.tokens.toList ∧
      st'.position = lineEnd text (st.position + 1) +
        lineBreakLength text (lineEnd text (st.position + 1)) ∧
      (lineEnd text (st.position + 1) < length text ∧ st'.mode = .code ∨
        lineEnd text (st.position + 1) = length text ∧ st'.mode = .quoted quote st.position) := by
  obtain ⟨st', hreached, hmode, hkept, -, hstop⟩ := h.exists_literal hat hc
  -- The loop has come to the end of the line, for no quote could stop it.
  rcases hstop with ⟨hposition, hbreak⟩ | ⟨hlt, hcloses⟩
  · rw [← hposition]
    by_cases hlt : st'.position < length text
    · have hstep : step text region st' = st'.enter .code (lineBreakLength text st'.position) := by
        rw [step, hmode]
        dsimp only
        rw [quotedStep, if_pos (hbreak hlt)]
      exact ⟨_, hreached.tail ⟨hlt, hstep.symm⟩, hkept, rfl, .inl ⟨hlt, rfl⟩⟩
    · have hend : st'.position = length text :=
        Nat.le_antisymm hreached.inv.position_le (Nat.le_of_not_lt hlt)
      have hwithin := add_lineBreakLength_le (Nat.le_of_eq hend)
      exact ⟨st', hreached, hkept, by omega, .inr ⟨hend, hmode⟩⟩
  · exact absurd hcloses (hnone _ hlt)

/-! ## Tokens -/

theorem tokenize_ofList_nil (options : Options) (region : Span) :
    tokenize options (Snapshot.ofList []) region = [] := by
  rw [List.eq_nil_iff_forall_not_mem]
  intro t ht
  have hkept := kept_tokenize options (Snapshot.ofList []) region
  exact absurd (hkept.stop_le t ht) (Nat.not_le.mpr (Nat.zero_lt_of_lt (hkept.nonempty t ht)))

/-- A literal that is closed is the one token that starts between its quotes. -/
theorem Reached.filter_tokenize_of_closed (options : Options)
    (h : Reached text ⟨0, length text⟩ st) {close : Nat} {before : List Token}
    (hlt : start < close) (hmode : st.mode = .code) (hposition : st.position = close + 1)
    (hkept : Kept text ⟨0, length text⟩ start before)
    (htokens : st.tokens.toList =
      before ++ [⟨⟨start, close + 1⟩, .stringLiteral⟩].filter (keeps ⟨0, length text⟩)) :
    (tokenize options text ⟨0, length text⟩).filter
        (fun t => start ≤ t.span.start && t.span.start ≤ close) =
      [⟨⟨start, close + 1⟩, .stringLiteral⟩] := by
  have hle : close + 1 ≤ length text := hposition ▸ h.inv.position_le
  have hwhole : keeps ⟨0, length text⟩ ⟨⟨start, close + 1⟩, .stringLiteral⟩ = true :=
    keeps_whole (Nat.lt_succ_of_lt hlt) hle
  -- What was found before ends at `start`, and what comes behind starts behind `close`.
  have hbefore : before.filter (fun t => start ≤ t.span.start && t.span.start ≤ close) = [] :=
    hkept.filter_eq_nil fun t ht => of_decide_eq_true (Bool.and_eq_true_iff.mp ht).1
  have hbehind : ∀ tokens : List Token, (tokens.map (Token.shift (close + 1))).filter
      (fun t => start ≤ t.span.start && t.span.start ≤ close) = [] := by
    intro tokens
    rw [List.filter_eq_nil_iff]
    intro t ht hin
    have hstart := Token.le_start_of_mem_map_shift ht
    have hstop := of_decide_eq_true (Bool.and_eq_true_iff.mp hin).2
    omega
  rw [tokenize_eq_append_tokenize (Snapshot.sameSuffix_suffix hle) h hposition hmode, htokens,
    List.filter_cons_of_pos hwhole, List.filter_nil, List.filter_append, List.filter_append,
    hbefore, hbehind, List.append_nil, List.nil_append, List.filter_cons_of_pos, List.filter_nil]
  rw [Bool.and_eq_true_iff]
  exact ⟨decide_eq_true (Nat.le_refl _), decide_eq_true (Nat.le_of_lt hlt)⟩

/-- Between tokens that end before a literal and tokens that start behind it there is none. -/
theorem not_contains_append_shift {before later : List Token} {stop next i : Nat} {t : Token}
    (hkept : Kept text region start before) (hle : stop ≤ next)
    (ht : t ∈ before ++ later.map (Token.shift next)) (hi : start ≤ i) (hi' : i < stop) :
    t.span.contains i = false := by
  rw [← Bool.not_eq_true, Span.contains_iff]
  rintro ⟨hstart, hstop⟩
  rcases List.mem_append.mp ht with ht | ht
  · have hbefore := hkept.stop_le t ht
    omega
  · have hbehind := Token.le_start_of_mem_map_shift ht
    omega

/-- Where a literal was given up, the scan goes on as with the rest alone. -/
theorem Reached.tokenize_eq_append_behind (options : Options) {next : Nat}
    (h : Reached text ⟨0, length text⟩ st) (hposition : st.position = next)
    (hmode : st.mode = .code ∨ next = length text ∧ st.mode = .quoted quote start) :
    tokenize options text ⟨0, length text⟩ = st.tokens.toList ++
      (tokenize options (Snapshot.ofList (suffix text next))
        ⟨0, length (Snapshot.ofList (suffix text next))⟩).map (Token.shift next) := by
  rcases hmode with hcode | ⟨hend, hquoted⟩
  · have hle : next ≤ length text := hposition ▸ h.inv.position_le
    exact tokenize_eq_append_tokenize (Snapshot.sameSuffix_suffix hle) h hposition hcode
  · rw [suffix_of_length_le (Nat.le_of_eq hend.symm), tokenize_ofList_nil, List.map_nil,
      List.append_nil]
    exact h.tokenize_eq_tokens_of_quoted options (hposition.trans hend) hquoted

/-- **A literal ends at the first quote behind an even number of backslashes**. Let the scan meet a
quote between two lexemes. If some quote of its line closes the literal, then the literal up to the
first such quote is the only token that starts there, and the scan is in code behind it. If none
does, then no token holds a character of the literal, and the lines behind it are read as a text of
their own. -/
theorem tokenize_literal (options : Options) (h : Reached text ⟨0, length text⟩ st)
    (hat : st.AtLexeme text) (hc : charAt text st.position = quote.char) :
    let stop := lineEnd text (st.position + 1)
    let next := stop + lineBreakLength text stop
    let behind := Snapshot.ofList (suffix text next)
    let tokens := tokenize options text ⟨0, length text⟩
    (∀ close < stop, Closes text quote st.position close →
      (∀ i < close, ¬ Closes text quote st.position i) →
        tokens.filter (fun t => st.position ≤ t.span.start && t.span.start ≤ close) =
          [⟨⟨st.position, close + 1⟩, .stringLiteral⟩] ∧
        ∃ st', Reached text ⟨0, length text⟩ st' ∧ st'.mode = .code ∧
          st'.position = close + 1) ∧
    ((∀ close < stop, ¬ Closes text quote st.position close) →
      (∀ t ∈ tokens, ∀ i, st.position ≤ i → i < stop → t.span.contains i = false) ∧
      (∃ st', Reached text ⟨0, length text⟩ st' ∧ st'.position = next ∧
        (stop < length text → st'.mode = .code)) ∧
      tokens.filter (fun t => stop ≤ t.span.start) =
        (tokenize options behind ⟨0, length behind⟩).map (Token.shift next)) := by
  intro stop next behind tokens
  constructor
  · intro close hlt hcloses hfirst
    obtain ⟨st', before, hreached, hmode, hposition, hkept, htokens⟩ :=
      h.exists_closed hat hc hlt hcloses hfirst
    exact ⟨hreached.filter_tokenize_of_closed options hcloses.1 hmode hposition hkept htokens,
      st', hreached, hmode, hposition⟩
  · intro hnone
    -- Behind the line the scan is in code, or the text is over: in both cases the rest has the
    -- tokens of a text of its own.
    obtain ⟨st', hreached, hkept, hposition, hmode⟩ := h.exists_unclosed hat hc hnone
    have hnext : st'.position = next := hposition
    have hend : stop = length text → next = length text := by
      intro hstop
      have hle := add_lineBreakLength_le (Nat.le_of_eq hstop)
      omega
    have htokens : tokens = st'.tokens.toList ++
        (tokenize options behind ⟨0, length behind⟩).map (Token.shift next) :=
      hreached.tokenize_eq_append_behind options hnext
        (hmode.imp And.right fun hopen => ⟨hend hopen.1, hopen.2⟩)
    have hstop : st.position ≤ stop := Nat.le_of_succ_le (le_lineEnd text _)
    rw [htokens]
    refine ⟨fun t ht i => ?_, ⟨st', hreached, hnext, fun hlt => ?_⟩, ?_⟩
    · exact not_contains_append_shift hkept (Nat.le_add_right _ _) ht
    · rcases hmode with ⟨-, hcode⟩ | ⟨heq, -⟩
      · exact hcode
      · exact absurd heq (Nat.ne_of_lt hlt)
    · exact hkept.filter_append_shift hstop (Nat.le_add_right _ _)

/-- A string that a quote behind two backslashes closes, and a character literal whose only other
quote is escaped. -/
theorem tokenize_literal_escapes :
    let text := Snapshot.ofString "\"\\\\\"'\\'\r\n1"
    let tokens := tokenize {} text ⟨0, length text⟩
    Closes text .double 0 3 ∧ ¬ Closes text .single 4 6 ∧
      tokens.filter (fun t => 0 ≤ t.span.start && t.span.start ≤ 3) =
        [⟨⟨0, 4⟩, .stringLiteral⟩] ∧
      (∀ t ∈ tokens, t.span.contains 6 = false) ∧
      tokens.filter (fun t => 7 ≤ t.span.start) = [⟨⟨9, 10⟩, .number⟩] := by
  intro text tokens
  have hcloses : Closes text .double 0 3 := by decide +kernel
  have hfirst : ∀ i < 3, ¬ Closes text .double 0 i := by decide +kernel
  have hline : lineEnd text 1 = 7 := by decide +kernel
  have hquote : charAt text 0 = Quote.double.char := by decide +kernel
  obtain ⟨hclosed, -⟩ := tokenize_literal {} (.refl : Reached text ⟨0, length text⟩ {}) (.inl rfl)
    hquote
  obtain ⟨hliteral, st, hreached, hmode, hposition⟩ :=
    hclosed 3 (by rw [hline]; decide) hcloses hfirst
  -- The second literal starts right behind the first one.
  have hquote' : charAt text st.position = Quote.single.char := by
    rw [hposition]
    decide +kernel
  have hnone : ∀ close < 7, ¬ Closes text .single 4 close := by decide +kernel
  have hline' : lineEnd text 5 = 7 := by decide +kernel
  obtain ⟨-, hopen⟩ := tokenize_literal {} hreached (.inl hmode) hquote'
  rw [hposition, hline'] at hopen
  obtain ⟨hskipped, -, hbehind⟩ := hopen hnone
  refine ⟨hcloses, hnone 6 (by decide), hliteral,
    fun t ht => hskipped t ht 6 (by decide) (by decide), ?_⟩
  rw [hbehind, tokenize_eq_steps]
  decide +kernel

end OdinSyntax.Scan
