import OdinSyntax.Proofs.Scan.Lexemes

/-!
# Characters and the tokens that hold them

With tails, the scan of a whole text accounts for each of its characters (`tokenize_covers`). One
that is not blank lies in exactly one token, or else the scan has skipped it: as part of a `*/` that
it met in code, or as part of a literal whose line ended before its closing quote (`Skipped`). A
blank lies in no token but those of comments and literals.

`Covers` says that tokens lie one behind the other, with only blanks and skipped characters in
between. It knows nothing of modes. What it spans are the *frontiers* of states, the offsets where
the next token starts: a step may move the position and leave the frontier behind, and wherever the
frontier moves, the characters that it leaves are covered (`advances_step`).

That no token holds a skipped character needs the order of tokens too. The tokens found before end
before it, and the later ones start behind the frontier, which has left it (`Reached.not_contains`).
-/

namespace OdinSyntax.Scan

open Source Lexeme

variable {σ : Type} [Source σ] {options : Options} {text : σ} {st st' st'' : State} {i : Nat}

/-! ## Skipped characters -/

/-- The scan of the text goes over `offset` as part of a `*/` that it meets in code. -/
def InStrayClose (text : σ) (offset : Nat) : Prop :=
  ∃ st, Reached text ⟨0, length text⟩ st ∧ st.AtLexeme text ∧
    (charAt text st.position = '*' ∧ charAt text (st.position + 1) = '/') ∧
    st.position ≤ offset ∧ offset < st.position + 2

/-- The scan of the text goes over `offset` as part of a literal, from its opening quote on, that
meets a line break or the end of the text before its closing quote. -/
def InGivenUpLiteral (text : σ) (offset : Nat) : Prop :=
  ∃ st quote start, Reached text ⟨0, length text⟩ st ∧ st.mode = .quoted quote start ∧
    (st.position = length text ∨ 0 < lineBreakLength text st.position) ∧
    start ≤ offset ∧ offset < st.position

/-- The scan of the text goes over `offset` for good without a token. -/
def Skipped (text : σ) (offset : Nat) : Prop :=
  InStrayClose text offset ∨ InGivenUpLiteral text offset

/-! ## Tokens one behind the other -/

/-- The tokens from `first` up to `stop`, in order. What lies between two of them is blank or
skipped, and only comments and literals hold blanks. -/
inductive Covers (text : σ) (first : Nat) : Nat → List Token → Prop
  | nil : Covers text first first []
  | token {stop next : Nat} {tokens : List Token} {kind : Kind}
      (prior : Covers text first stop tokens) (hlt : stop < next)
      (hblank : ∀ i, stop ≤ i → i < next → isBlank (charAt text i) = true →
        kind = .comment ∨ kind = .stringLiteral) :
      Covers text first next (tokens ++ [⟨⟨stop, next⟩, kind⟩])
  | gap {stop next : Nat} {tokens : List Token} (prior : Covers text first stop tokens)
      (hle : stop ≤ next)
      (hgap : ∀ i, stop ≤ i → i < next → isBlank (charAt text i) = true ∨ Skipped text i) :
      Covers text first next tokens

section Covers

variable {first middle stop : Nat} {tokens later : List Token} {t : Token}

/-- Covers of two parts that meet make one of both. -/
theorem Covers.trans (h : Covers text first middle tokens) (h' : Covers text middle stop later) :
    Covers text first stop (tokens ++ later) := by
  induction h' with
  | nil =>
    rw [List.append_nil]
    exact h
  | token _ hlt hblank ih =>
    rw [← List.append_assoc]
    exact ih.token hlt hblank
  | gap _ hle hgap ih => exact ih.gap hle hgap

theorem Covers.le (h : Covers text first stop tokens) : first ≤ stop := by
  induction h with
  | nil => exact Nat.le_refl _
  | token _ hlt _ ih => omega
  | gap _ hle _ ih => omega

theorem Covers.le_start (h : Covers text first stop tokens) (ht : t ∈ tokens) :
    first ≤ t.span.start := by
  induction h with
  | nil => cases ht
  | token prior _ _ ih =>
    rcases List.mem_append.mp ht with ht | ht
    · exact ih ht
    · obtain rfl := List.mem_singleton.mp ht
      exact prior.le
  | gap _ _ _ ih => exact ih ht

/-- A character that is not blank lies in a token, or the scan has skipped it. -/
theorem Covers.exists_contains (h : Covers text first stop tokens) (hle : first ≤ i)
    (hlt : i < stop) (hi : isBlank (charAt text i) = false) :
    (∃ t ∈ tokens, t.span.contains i = true) ∨ Skipped text i := by
  induction h with
  | nil => exact absurd hle (Nat.not_le.mpr hlt)
  | @token stop next tokens kind _ _ _ ih =>
    by_cases hbefore : i < stop
    · refine (ih hbefore).imp_left ?_
      rintro ⟨t, ht, hcontains⟩
      exact ⟨t, List.mem_append_left _ ht, hcontains⟩
    · refine .inl ⟨⟨⟨stop, next⟩, kind⟩, List.mem_append_right _ List.mem_cons_self, ?_⟩
      exact (Span.contains_iff _ _).mpr ⟨Nat.le_of_not_lt hbefore, hlt⟩
  | @gap stop next tokens _ _ hgap ih =>
    by_cases hbefore : i < stop
    · exact ih hbefore
    · rcases hgap i (Nat.le_of_not_lt hbefore) hlt with hblank | hskipped
      · rw [hi] at hblank
        cases hblank
      · exact .inr hskipped

/-- Only comments and literals hold blanks. -/
theorem Covers.kind_of_isBlank (h : Covers text first stop tokens) (ht : t ∈ tokens)
    (hcontains : t.span.contains i = true) (hi : isBlank (charAt text i) = true) :
    t.kind = .comment ∨ t.kind = .stringLiteral := by
  induction h with
  | nil => cases ht
  | token _ _ hblank ih =>
    rcases List.mem_append.mp ht with ht | ht
    · exact ih ht
    · obtain rfl := List.mem_singleton.mp ht
      obtain ⟨hle, hlt⟩ := (Span.contains_iff _ _).mp hcontains
      exact hblank i hle hlt hi
  | gap _ _ _ ih => exact ih ht

end Covers

/-! ## Frontiers that move -/

/-- The tokens that are found on the way from `st` to `st'` cover the characters between the two
frontiers. -/
def Advances (text : σ) (st st' : State) : Prop :=
  ∃ found, st'.tokens.toList = st.tokens.toList ++ found ∧
    Covers text st.frontier st'.frontier found

/-- What two runs find, one after the other, covers the way of both. -/
theorem Advances.trans (h : Advances text st st') (h' : Advances text st' st'') :
    Advances text st st'' := by
  obtain ⟨found, htokens, hcovers⟩ := h
  obtain ⟨later, htokens', hcovers'⟩ := h'
  exact ⟨found ++ later, by rw [htokens', htokens, List.append_assoc], hcovers.trans hcovers'⟩

/-- The frontier goes over blanks and skipped characters. -/
theorem advances_of_gap (htokens : st'.tokens = st.tokens) (hle : st.frontier ≤ st'.frontier)
    (hgap : ∀ i, st.frontier ≤ i → i < st'.frontier →
      isBlank (charAt text i) = true ∨ Skipped text i) : Advances text st st' :=
  ⟨[], by rw [htokens, List.append_nil], Covers.nil.gap hle hgap⟩

/-- The frontier stays where it is. -/
theorem advances_of_frontier_eq (htokens : st'.tokens = st.tokens)
    (hfrontier : st'.frontier = st.frontier) : Advances text st st' :=
  advances_of_gap htokens (Nat.le_of_eq hfrontier.symm)
    fun i hle hlt => absurd hle (by omega)

theorem advances_refl (text : σ) (st : State) : Advances text st st :=
  advances_of_frontier_eq rfl rfl

/-- The frontier goes over a token, which may be empty and is left out then, and over the line break
behind it. -/
theorem advances_of_emit {start stop : Nat} {kind : Kind} (hfrontier : st.frontier = start)
    (hle : start ≤ stop) (hstop : stop ≤ length text)
    (hblank : ∀ i, start ≤ i → i < stop → isBlank (charAt text i) = true →
      kind = .comment ∨ kind = .stringLiteral)
    (htokens : st'.tokens = (st.emit ⟨0, length text⟩ ⟨start, stop⟩ kind).tokens)
    (hnext : stop ≤ st'.frontier)
    (hgap : ∀ i, stop ≤ i → i < st'.frontier → isBlank (charAt text i) = true) :
    Advances text st st' := by
  subst hfrontier
  have htokens' : st'.tokens.toList = st.tokens.toList ++
      [⟨⟨st.frontier, stop⟩, kind⟩].filter (keeps ⟨0, length text⟩) := by
    rw [htokens, toList_tokens_emit]
  have hgap' : ∀ i, stop ≤ i → i < st'.frontier →
      isBlank (charAt text i) = true ∨ Skipped text i :=
    fun i hi hi' => .inl (hgap i hi hi')
  -- Segments of constructs over several lines may be empty, and no token is made of these.
  rcases Nat.eq_or_lt_of_le hle with rfl | hlt
  · have hempty : ¬ keeps ⟨0, length text⟩ ⟨⟨st.frontier, st.frontier⟩, kind⟩ = true :=
      fun hkeeps => absurd (keeps_iff.mp hkeeps).1 (Nat.lt_irrefl _)
    rw [List.filter_cons_of_neg hempty, List.filter_nil] at htokens'
    exact ⟨[], htokens', Covers.nil.gap hnext hgap'⟩
  · have hkeeps : keeps ⟨0, length text⟩ ⟨⟨st.frontier, stop⟩, kind⟩ = true :=
      @keeps_whole _ _ text ⟨⟨st.frontier, stop⟩, kind⟩ hlt hstop
    rw [List.filter_cons_of_pos hkeeps, List.filter_nil] at htokens'
    exact ⟨_, htokens', (Covers.nil.token hlt hblank).gap hnext hgap'⟩

/-- A token ends with its lexeme, and the scan is back in code. -/
theorem advances_emit_code {start : Nat} {kind : Kind} (distance : Nat)
    (hfrontier : st.frontier = start) (hle : start ≤ st.position + distance)
    (hstop : st.position + distance ≤ length text)
    (hblank : ∀ i, start ≤ i → i < st.position + distance →
      isBlank (charAt text i) = true → kind = .comment ∨ kind = .stringLiteral) :
    Advances text st
      ((st.emit ⟨0, length text⟩ ⟨start, st.position + distance⟩ kind).enter .code distance) := by
  have hnext : ((st.emit ⟨0, length text⟩ ⟨start, st.position + distance⟩ kind).enter .code
      distance).frontier = st.position + distance := by
    show (st.emit _ _ kind).position + distance = _
    rw [State.position_emit]
  exact advances_of_emit hfrontier hle hstop hblank rfl (Nat.le_of_eq hnext.symm)
    fun i hi hi' => absurd hi (by omega)

/-- A piece of a comment or literal ends at a line break, and the next one starts behind it. -/
theorem advances_emit_lineBreak {start : Nat} {kind : Kind} {mode : Mode}
    (hfrontier : st.frontier = start) (hle : start ≤ st.position)
    (hlt : st.position < length text) (hkind : kind = .comment ∨ kind = .stringLiteral)
    (hmode : mode.start?.getD (st.position + lineBreakLength text st.position) =
      st.position + lineBreakLength text st.position) :
    Advances text st ((st.emit ⟨0, length text⟩ ⟨start, st.position⟩ kind).enter mode
      (lineBreakLength text st.position)) := by
  have hnext : ((st.emit ⟨0, length text⟩ ⟨start, st.position⟩ kind).enter mode
      (lineBreakLength text st.position)).frontier =
        st.position + lineBreakLength text st.position := by
    show mode.start?.getD ((st.emit _ _ kind).position + _) = _
    rw [State.position_emit, hmode]
  refine advances_of_emit hfrontier hle (Nat.le_of_lt hlt) (fun _ _ _ _ => hkind) rfl ?_ ?_
  · rw [hnext]
    exact Nat.le_add_right _ _
  · intro i hi hi'
    rw [hnext] at hi'
    exact isBlank_of_lt_lineBreakLength hi hi'

/-! ## Steps -/

/-- A word is one token when it ends, and its start waits until then. -/
theorem advances_wordStep {start : Nat} (hfrontier : st.frontier = start)
    (hle : start ≤ st.position) (hlt : st.position < length text)
    (hparts : ∀ i, start ≤ i → i ≤ st.position → isWordPart (charAt text i) = true) :
    Advances text st (wordStep text ⟨0, length text⟩ start st) := by
  by_cases hpart : isWordPart (charAt text (st.position + 1)) = true
  · rw [wordStep_of_isWordPart _ _ _ hpart]
    exact advances_of_frontier_eq rfl hfrontier.symm
  · rw [wordStep_of_not_isWordPart _ hle (eq_false_of_ne_true hpart)]
    refine advances_emit_code _ hfrontier (Nat.le_succ_of_le hle) hlt fun i hi hi' hblank => ?_
    rw [((isWordPart_iff _).mp (hparts i hi (Nat.le_of_lt_succ hi'))).1] at hblank
    cases hblank

/-- An operator or a punctuation character is one token. -/
theorem advances_symbolStep (hfrontier : st.frontier = st.position)
    (hlt : st.position < length text) (hc : isPunctuation (charAt text st.position) = true) :
    Advances text st (symbolStep text ⟨0, length text⟩ st) := by
  fun_cases symbolStep text ⟨0, length text⟩ st with
  | case1 start n h =>
    refine advances_emit_code _ hfrontier (Nat.le_add_right _ n) (operatorLength?_le hlt h)
      fun i hi hi' hblank => ?_
    rw [isBlank_of_operatorLength? h i hi hi'] at hblank
    cases hblank
  | case2 start h =>
    refine advances_emit_code _ hfrontier (Nat.le_add_right _ 1) hlt fun i hi hi' hblank => ?_
    obtain rfl : i = st.position := Nat.le_antisymm (Nat.le_of_lt_succ hi') hi
    rw [isBlank_of_isPunctuation hc] at hblank
    cases hblank

/-- A lexeme is opened, and its first token starts with it. -/
theorem advances_open {mode : Mode} {distance : Nat} (hfrontier : st.frontier = st.position)
    (hmode : mode.start? = some st.position) : Advances text st (st.enter mode distance) := by
  have hnext : (st.enter mode distance).frontier = st.position := by
    rw [State.frontier, State.mode_enter, hmode]
    rfl
  exact advances_of_frontier_eq rfl (hnext.trans hfrontier.symm)

/-- The scan goes on in code behind characters that no token will hold. -/
theorem advances_enter_code {start : Nat} (distance : Nat) (hfrontier : st.frontier = start)
    (hle : start ≤ st.position + distance)
    (hgap : ∀ i, start ≤ i → i < st.position + distance →
      isBlank (charAt text i) = true ∨ Skipped text i) :
    Advances text st (st.enter .code distance) := by
  subst hfrontier
  exact advances_of_gap rfl hle hgap

/-- In code, a character is blank, or skipped in a stray closer, or it is in the token that starts
there. -/
theorem advances_codeStep (hfrontier : st.frontier = st.position)
    (hlt : st.position < length text)
    (hstray : charAt text st.position = '*' ∧ charAt text (st.position + 1) = '/' →
      ∀ i, st.position ≤ i → i < st.position + 2 → Skipped text i) :
    Advances text st (codeStep text ⟨0, length text⟩ st) := by
  fun_cases codeStep text ⟨0, length text⟩ st with
  | case1 =>
    exact advances_enter_code _ hfrontier (Nat.le_add_right _ _)
      fun i hi hi' => .inl (isBlank_of_lt_lineBreakLength hi hi')
  | case3 _ _ _ _ _ _ h =>
    exact advances_enter_code _ hfrontier (Nat.le_add_right _ _)
      fun i hi hi' => .inr (hstray h i hi hi')
  | case9 _ _ _ _ _ _ _ _ _ _ _ _ h => exact advances_symbolStep hfrontier hlt h
  | case10 _ _ _ _ _ _ _ _ _ _ _ _ _ h =>
    refine advances_enter_code _ hfrontier (Nat.le_add_right _ _) fun i hi hi' => .inl ?_
    obtain rfl : i = st.position := Nat.le_antisymm (Nat.le_of_lt_succ hi') hi
    exact h
  | case11 start c next _ _ _ _ _ _ _ _ _ hpunctuation hblank =>
    refine advances_wordStep hfrontier (Nat.le_refl _) hlt fun i hi hi' => ?_
    obtain rfl : i = st.position := Nat.le_antisymm hi' hi
    exact (isWordPart_iff _).mpr ⟨eq_false_of_ne_true hblank, eq_false_of_ne_true hpunctuation⟩
  -- The frontier stays at the opener or at the first character of a number.
  | _ => exact advances_open hfrontier rfl

/-- A number that has ended is one token, and the next lexeme begins at once. -/
theorem advances_numberStep {start : Nat} (hfrontier : st.frontier = start)
    (hfits : (Mode.number start).Fits text st.position) (hlt : st.position < length text)
    (hstray : charAt text st.position = '*' ∧ charAt text (st.position + 1) = '/' →
      isNumberPart (charAt text st.position) = false →
      ∀ i, st.position ≤ i → i < st.position + 2 → Skipped text i) :
    Advances text st (numberStep text ⟨0, length text⟩ start st) := by
  obtain ⟨hstart, hparts⟩ := hfits
  fun_cases numberStep text ⟨0, length text⟩ start st with
  | case1 => exact advances_of_frontier_eq rfl hfrontier.symm
  | case2 hend =>
    -- The token of the number, and then the step in code from the same position.
    have hnumber : Advances text st
        ((st.emit ⟨0, length text⟩ ⟨start, st.position⟩ .number).enter .code 0) := by
      refine advances_emit_code 0 hfrontier (Nat.le_of_lt hstart) (Nat.le_of_lt hlt)
        fun i hi hi' hblank => ?_
      rw [isBlank_of_isNumberPart (hparts i hi hi')] at hblank
      cases hblank
    have hposition : ((st.emit ⟨0, length text⟩ ⟨start, st.position⟩ .number).enter .code
        0).position = st.position := by
      rw [State.position_enter, State.position_emit, Nat.add_zero]
    refine hnumber.trans (advances_codeStep rfl ?_ ?_)
    · rw [hposition]
      exact hlt
    · rw [hposition]
      exact fun h => hstray h (eq_false_of_ne_true hend)

/-- A literal is one token when it is closed, and skipped when its line ends. -/
theorem advances_quotedStep {quote : Quote} {start : Nat} (hfrontier : st.frontier = start)
    (hfits : (Mode.quoted quote start).Fits text st.position) (hlt : st.position < length text)
    (hgivenUp : 0 < lineBreakLength text st.position →
      ∀ i, start ≤ i → i < st.position → Skipped text i) :
    Advances text st (quotedStep text ⟨0, length text⟩ quote start st) := by
  have hle : start ≤ st.position := Nat.le_of_lt hfits.1
  fun_cases quotedStep text ⟨0, length text⟩ quote start st with
  | case1 here breakLength hbreak =>
    refine advances_enter_code _ hfrontier (Nat.le_add_right_of_le hle) fun i hi hi' => ?_
    by_cases hbefore : i < st.position
    · exact .inr (hgivenUp hbreak i hi hbefore)
    · exact .inl (isBlank_of_lt_lineBreakLength (Nat.le_of_not_lt hbefore) hi')
  | case4 =>
    exact advances_emit_code _ hfrontier (Nat.le_succ_of_le hle) hlt fun _ _ _ _ => .inr rfl
  | case2 | case3 | case5 => exact advances_of_frontier_eq rfl hfrontier.symm

/-- A segment of a raw string is one token when its line ends or the string does. -/
theorem advances_rawStringStep {segment : Nat} (hfrontier : st.frontier = segment)
    (hfits : (Mode.rawString segment).Fits text st.position) (hlt : st.position < length text) :
    Advances text st (rawStringStep text ⟨0, length text⟩ segment st) := by
  fun_cases rawStringStep text ⟨0, length text⟩ segment st with
  | case1 => exact advances_emit_lineBreak hfrontier hfits.1 hlt (.inr rfl) rfl
  | case2 =>
    exact advances_emit_code _ hfrontier (Nat.le_succ_of_le hfits.1) hlt fun _ _ _ _ => .inr rfl
  | case3 => exact advances_of_frontier_eq rfl hfrontier.symm

theorem advances_lineCommentStep {start : Nat} (hfrontier : st.frontier = start)
    (hfits : (Mode.lineComment start).Fits text st.position) (hlt : st.position < length text) :
    Advances text st (lineCommentStep text ⟨0, length text⟩ start st) := by
  fun_cases lineCommentStep text ⟨0, length text⟩ start st with
  | case1 => exact advances_emit_lineBreak hfrontier (Nat.le_of_lt hfits.1) hlt (.inl rfl) rfl
  | case2 => exact advances_of_frontier_eq rfl hfrontier.symm

/-- A segment of a block comment is one token when its line ends or the comment does. -/
theorem advances_blockCommentStep {segment depth : Nat} (hfrontier : st.frontier = segment)
    (hfits : (Mode.blockComment segment depth).Fits text st.position)
    (hlt : st.position < length text) :
    Advances text st (blockCommentStep text ⟨0, length text⟩ segment depth st) := by
  fun_cases blockCommentStep text ⟨0, length text⟩ segment depth st with
  | case2 here c next _ h _ =>
    have hwithin := (delimiter_within isBlank_star isBlank_slash h).1
    exact advances_emit_code _ hfrontier (Nat.le_add_right_of_le hfits.1) hwithin
      fun _ _ _ _ => .inl rfl
  | case4 => exact advances_emit_lineBreak hfrontier hfits.1 hlt (.inl rfl) rfl
  | case1 | case3 | case5 => exact advances_of_frontier_eq rfl hfrontier.symm

/-! ## Runs -/

/-- Where the scan begins a lexeme with `*/`, it skips both characters. -/
theorem Reached.skipped_strayClose (h : Reached text ⟨0, length text⟩ st) (hat : st.AtLexeme text)
    (hclose : charAt text st.position = '*' ∧ charAt text (st.position + 1) = '/') (i : Nat)
    (hi : st.position ≤ i) (hi' : i < st.position + 2) : Skipped text i :=
  .inl ⟨st, h, hat, hclose, hi, hi'⟩

/-- Wherever a step moves the frontier, tokens cover the characters that it leaves. -/
theorem advances_step (h : Reached text ⟨0, length text⟩ st) (hlt : st.position < length text) :
    Advances text st (step text ⟨0, length text⟩ st) := by
  obtain ⟨position, mode, tokens⟩ := st
  have hfits := h.inv.fits
  cases mode with
  | code => exact advances_codeStep rfl hlt (h.skipped_strayClose (.inl rfl))
  | word start => exact advances_wordStep rfl (Nat.le_of_lt hfits.1) hlt hfits.2.2
  | number start =>
    exact advances_numberStep rfl hfits hlt fun hclose hend =>
      h.skipped_strayClose (.inr ⟨start, rfl, hend⟩) hclose
  | quoted quote start =>
    exact advances_quotedStep rfl hfits hlt fun hbreak i hi hi' =>
      .inr ⟨_, quote, start, h, rfl, .inr hbreak, hi, hi'⟩
  | rawString segment => exact advances_rawStringStep rfl hfits hlt
  | lineComment start => exact advances_lineCommentStep rfl hfits hlt
  | blockComment segment depth => exact advances_blockCommentStep rfl hfits hlt

/-- So do any number of steps. -/
theorem Reached.advances (h : Reached text ⟨0, length text⟩ st)
    (h' : Reaches text ⟨0, length text⟩ st st') : Advances text st st' := by
  induction h' with
  | refl => exact advances_refl text st
  | tail hreaches hnext ih =>
    rw [hnext.2]
    exact ih.trans (advances_step (h.trans hreaches) hnext.1)

/-- With tails, the end of the text leaves no character uncovered. -/
theorem advances_finish (htails : options.emitTails = true)
    (h : Reached text ⟨0, length text⟩ st) (hend : st.position = length text) :
    Advances text st (finish options (length text) ⟨0, length text⟩ st) := by
  obtain ⟨position, mode, tokens⟩ := st
  obtain rfl : position = length text := hend
  have hfits := h.inv.fits
  cases mode with
  | code => exact advances_refl _ _
  | word start => exact absurd hfits.2.1 (Nat.lt_irrefl _)
  | number start =>
    refine advances_emit_code 0 rfl (Nat.le_of_lt hfits.1) (Nat.le_refl _)
      fun i hi hi' hblank => ?_
    rw [isBlank_of_isNumberPart (hfits.2 i hi hi')] at hblank
    cases hblank
  -- A literal that is open at the end is given up: this is the one construct without a tail.
  | quoted quote start =>
    refine advances_enter_code 0 rfl (Nat.le_of_lt hfits.1) fun i hi hi' => ?_
    exact .inr (.inr ⟨_, quote, start, h, rfl, .inl rfl, hi, hi'⟩)
  | lineComment start =>
    exact advances_emit_code 0 rfl (Nat.le_of_lt hfits.1) (Nat.le_refl _)
      fun _ _ _ _ => .inl rfl
  | rawString segment =>
    rw [finish, htails]
    exact advances_emit_code 0 rfl hfits.1 (Nat.le_refl _) fun _ _ _ _ => .inr rfl
  | blockComment segment depth =>
    rw [finish, htails]
    exact advances_emit_code 0 rfl hfits.1 (Nat.le_refl _) fun _ _ _ _ => .inl rfl

theorem frontier_finish (options : Options) (stop : Nat) (region : Span) (st : State) :
    (finish options stop region st).frontier = st.position := by
  obtain ⟨position, mode, tokens⟩ := st
  cases mode with
  | code | word | quoted => rfl
  | number | lineComment => exact State.position_emit ..
  | rawString | blockComment =>
    show (if options.emitTails = true then _ else _ : State).position = position
    split
    · exact State.position_emit ..
    · rfl

/-- What the scan finds behind a state covers the characters from its frontier to the end. -/
theorem Reached.exists_covers (htails : options.emitTails = true)
    (h : Reached text ⟨0, length text⟩ st) :
    ∃ found, tokenize options text ⟨0, length text⟩ = st.tokens.toList ++ found ∧
      Covers text st.frontier (length text) found := by
  have hrun : scan text ⟨0, length text⟩ = run text ⟨0, length text⟩ st := run_eq_of_reaches h
  have hend := position_scan text ⟨0, length text⟩
  have hreaches := reaches_run text ⟨0, length text⟩ st
  rw [← hrun] at hreaches
  obtain ⟨found, htokens, hcovers⟩ :=
    (h.advances hreaches).trans (advances_finish htails (h.trans hreaches) hend)
  rw [frontier_finish, hend] at hcovers
  exact ⟨found, htokens, hcovers⟩

theorem covers_tokenize (htails : options.emitTails = true) (text : σ) :
    Covers text 0 (length text) (tokenize options text ⟨0, length text⟩) := by
  have hstart : Reached text ⟨0, length text⟩ {} := .refl
  obtain ⟨found, htokens, hcovers⟩ := hstart.exists_covers htails
  rw [htokens]
  exact hcovers

/-! ## Skipped characters lie in no token -/

/-- A character between the tokens found so far and the frontier lies in no token. -/
theorem Reached.not_contains (htails : options.emitTails = true)
    (h : Reached text ⟨0, length text⟩ st) (hstop : ∀ t ∈ st.tokens.toList, t.span.stop ≤ i)
    (hlt : i < st.frontier) {t : Token} (ht : t ∈ tokenize options text ⟨0, length text⟩) :
    t.span.contains i = false := by
  obtain ⟨found, htokens, hcovers⟩ := h.exists_covers htails
  rw [htokens] at ht
  rw [← Bool.not_eq_true, Span.contains_iff]
  rcases List.mem_append.mp ht with ht | ht
  · have := hstop t ht
    omega
  · have := hcovers.le_start ht
    omega

/-- Where a lexeme begins, the step is that of code, with the pending number added. -/
theorem Inv.exists_step_eq_codeStep {region : Span} (h : Inv text region st)
    (hat : st.AtLexeme text) :
    ∃ tokens, step text region st = codeStep text region ⟨st.position, .code, tokens⟩ ∧
      Kept text region st.position tokens.toList := by
  obtain ⟨position, mode, tokens⟩ := st
  obtain ⟨-, hfits, hkept⟩ := h
  rcases hat with hmode | ⟨start, hmode, hend⟩
  · obtain rfl : mode = .code := hmode
    exact ⟨tokens, rfl, hkept⟩
  · obtain rfl : mode = .number start := hmode
    refine ⟨_, ?_, hkept.emit .number (Nat.le_of_lt hfits.1) hfits.unbroken_number⟩
    rw [step]
    dsimp only
    rw [numberStep, if_neg (by rw [hend]; exact Bool.false_ne_true), State.enter,
      State.position_emit, Nat.add_zero]
    rfl

/-- A stray closer is gone over in one step, so no token gets hold of it. -/
theorem not_contains_of_inStrayClose (htails : options.emitTails = true)
    (h : InStrayClose text i) {t : Token}
    (ht : t ∈ tokenize options text ⟨0, length text⟩) : t.span.contains i = false := by
  obtain ⟨st, hreached, hat, hclose, hle, hlt⟩ := h
  obtain ⟨tokens, hstep, hkept⟩ := hreached.inv.exists_step_eq_codeStep hat
  obtain ⟨hwithin, hu⟩ := delimiter_within isBlank_star isBlank_slash hclose
  have hskip : step text ⟨0, length text⟩ st =
      State.enter ⟨st.position, .code, tokens⟩ .code 2 := by
    have hbreak : lineBreakLength text st.position = 0 := hu _ (Nat.le_refl _) (by omega)
    have hopen : ¬ (charAt text st.position = '/' ∧ charAt text (st.position + 1) = '*') := by
      rw [hclose.1]
      exact fun h => absurd h.1 (by decide)
    rw [hstep, codeStep, if_neg (Nat.not_lt.mpr (Nat.le_of_eq hbreak)), if_neg hopen,
      if_pos hclose]
  have hnext : Reached text ⟨0, length text⟩ (State.enter ⟨st.position, .code, tokens⟩ .code 2) :=
    hreached.tail ⟨by omega, hskip.symm⟩
  exact hnext.not_contains htails (fun u hu => Nat.le_trans (hkept.stop_le u hu) hle) hlt ht

/-- A literal that is open at the end of the text yields no token. -/
theorem Reached.tokenize_eq_tokens_of_quoted {quote : Quote} {start : Nat} (options : Options)
    (h : Reached text ⟨0, length text⟩ st) (hend : st.position = length text)
    (hmode : st.mode = .quoted quote start) :
    tokenize options text ⟨0, length text⟩ = st.tokens.toList := by
  rw [tokenize, scan, run_eq_of_reaches h, run_of_le (Nat.le_of_eq hend.symm), finish, hmode]

/-- A literal that was given up is behind all earlier tokens and before all later ones. -/
theorem not_contains_of_inGivenUpLiteral (htails : options.emitTails = true)
    (h : InGivenUpLiteral text i) {t : Token}
    (ht : t ∈ tokenize options text ⟨0, length text⟩) : t.span.contains i = false := by
  obtain ⟨st, quote, start, hreached, hmode, hend, hle, hlt⟩ := h
  have hfrontier : st.frontier = start := by
    rw [State.frontier, hmode]
    rfl
  have hstop : ∀ u ∈ st.tokens.toList, u.span.stop ≤ i := by
    intro u hu
    have hbefore := hreached.inv.kept.stop_le u hu
    omega
  -- At the end of the text no step follows, at a line break the scan goes on behind it.
  rcases hend with hend | hbreak
  · rw [hreached.tokenize_eq_tokens_of_quoted options hend hmode] at ht
    have hbefore := hstop t ht
    rw [← Bool.not_eq_true, Span.contains_iff]
    omega
  · have hwithin := add_lineBreakLength_le hreached.inv.position_le
    have hstep : step text ⟨0, length text⟩ st =
        st.enter .code (lineBreakLength text st.position) := by
      rw [step, hmode]
      dsimp only
      rw [quotedStep, if_pos hbreak]
    have hnext : Reached text ⟨0, length text⟩
        (st.enter .code (lineBreakLength text st.position)) :=
      hreached.tail ⟨by omega, hstep.symm⟩
    exact hnext.not_contains htails hstop (Nat.lt_add_right _ hlt) ht

/-! ## Each character -/

/-- A token is the only one that holds a character of it. -/
theorem Kept.filter_contains {region : Span} {bound : Nat} {tokens : List Token} {t : Token}
    (h : Kept text region bound tokens) (ht : t ∈ tokens) (hi : t.span.contains i = true) :
    tokens.filter (·.span.contains i) = [t] := by
  have hlt := h.nonempty t ht
  have hmeets : ∀ u ∈ tokens, u.span.contains i = true → u.span.intersects t.span = true := by
    intro u _ hu
    have hu' := (Span.contains_iff _ _).mp hu
    have hi' := (Span.contains_iff _ _).mp hi
    exact (Span.intersects_iff_of_lt hlt).mpr ⟨by omega, by omega⟩
  have hfilter : tokens.filter (·.span.contains i) =
      (tokens.filter (·.span.intersects t.span)).filter (·.span.contains i) := by
    rw [List.filter_filter]
    apply List.filter_congr
    intro u hu
    cases hcontains : u.span.contains i with
    | false => rfl
    | true => rw [hmeets u hu hcontains]; rfl
  rw [hfilter, h.filter_intersects ht]
  simp [hi]

/-- **Every character is accounted for**, with tails, in a scan of the whole text. A character that
is not blank lies in no token exactly if it was skipped, as part of a `*/` in code or of a literal
that was given up, and otherwise in one token only. A blank lies in tokens of comments and literals
only. -/
theorem tokenize_covers (htails : options.emitTails = true) (text : σ) (offset : Nat) :
    (isBlank (charAt text offset) = false →
      ((∀ t ∈ tokenize options text ⟨0, length text⟩, t.span.contains offset = false) ↔
        InStrayClose text offset ∨ InGivenUpLiteral text offset) ∧
      (¬ (InStrayClose text offset ∨ InGivenUpLiteral text offset) →
        ∃ t, (tokenize options text ⟨0, length text⟩).filter (·.span.contains offset) = [t])) ∧
    (isBlank (charAt text offset) = true →
      ∀ t ∈ tokenize options text ⟨0, length text⟩, t.span.contains offset = true →
        t.kind = .comment ∨ t.kind = .stringLiteral) := by
  -- The cover gives a token for each character, and that tokens are in order makes it the only one.
  have hcovers := covers_tokenize htails text
  have hkept := kept_tokenize options text ⟨0, length text⟩
  refine ⟨fun hblank => ⟨⟨fun hnone => ?_, ?_⟩, fun hnot => ?_⟩, fun hblank t ht hcontains => ?_⟩
  · rcases hcovers.exists_contains (Nat.zero_le _) (lt_length_of_not_isBlank hblank) hblank with
      ⟨t, ht, hcontains⟩ | hskipped
    · rw [hnone t ht] at hcontains
      cases hcontains
    · exact hskipped
  · rintro (hstray | hgivenUp) t ht
    · exact not_contains_of_inStrayClose htails hstray ht
    · exact not_contains_of_inGivenUpLiteral htails hgivenUp ht
  · rcases hcovers.exists_contains (Nat.zero_le _) (lt_length_of_not_isBlank hblank) hblank with
      ⟨t, ht, hcontains⟩ | hskipped
    · exact ⟨t, hkept.filter_contains ht hcontains⟩
    · exact absurd hskipped hnot
  · exact hcovers.kind_of_isBlank ht hcontains hblank

/-- A `*/` right behind a number, a literal that is given up, and a comment. -/
theorem tokenize_covers_strayClose :
    let text := Snapshot.ofString "1*/'a\n//b c"
    (InStrayClose text 2 ∨ InGivenUpLiteral text 2) ∧
      (InStrayClose text 4 ∨ InGivenUpLiteral text 4) ∧
      (∃ t, (tokenize {} text ⟨0, length text⟩).filter (·.span.contains 8) = [t]) ∧
      ∀ t ∈ tokenize {} text ⟨0, length text⟩, t.span.contains 9 = true →
        t.kind = .comment ∨ t.kind = .stringLiteral := by
  intro text
  have htokens : tokenize {} text ⟨0, length text⟩ =
      [⟨⟨0, 1⟩, .number⟩, ⟨⟨6, 11⟩, .comment⟩] := by
    rw [tokenize_eq_steps]
    decide +kernel
  have hstray := ((tokenize_covers rfl text 2).1 (by decide)).1.mp (by rw [htokens]; decide)
  have hgivenUp := ((tokenize_covers rfl text 4).1 (by decide)).1.mp (by rw [htokens]; decide)
  have hcomment := (tokenize_covers rfl text 8).1 (by decide)
  -- The comment holds the character, so it was not skipped.
  have hnot : ¬ (InStrayClose text 8 ∨ InGivenUpLiteral text 8) := by
    intro hskipped
    have hnone := hcomment.1.mpr hskipped ⟨⟨6, 11⟩, .comment⟩ (by rw [htokens]; decide)
    exact absurd hnone (by decide)
  exact ⟨hstray, hgivenUp, hcomment.2 hnot, (tokenize_covers rfl text 9).2 (by decide)⟩

end OdinSyntax.Scan
