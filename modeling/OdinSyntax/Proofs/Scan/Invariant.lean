import OdinSyntax.Proofs.Lexicon.Characters
import OdinSyntax.Proofs.Scan.Reach
import OdinSyntax.Proofs.Text.Suffix

/-!
# The invariant of a scan

What holds between any two steps of a scan (`Reached.inv`). It has three parts:

* the position is within the text,
* the mode fits the characters that it has read (`Mode.Fits`): no line break lies in the part of a
  literal or comment that is still to become a token, a number holds characters of numbers only,
  and a word goes on at the position,
* the tokens found so far are in order, end where the next one may start, and contain no line break
  (`Kept`).

There is one lemma for each of the functions that make a step.
-/

namespace OdinSyntax.Scan

open Source Lexeme

variable {σ : Type} [Source σ]

/-- What a mode says of the characters before `position`. -/
def Mode.Fits (text : σ) (position : Nat) : Mode → Prop
  | .code => True
  | .word start => start < position ∧ position < length text ∧
      ∀ i, start ≤ i → i ≤ position → isWordPart (charAt text i) = true
  | .number start => start < position ∧
      ∀ i, start ≤ i → i < position → isNumberPart (charAt text i) = true
  | .quoted _ start | .lineComment start => start < position ∧ Unbroken text start position
  | .rawString segment => segment ≤ position ∧ Unbroken text segment position
  | .blockComment segment depth => segment ≤ position ∧ Unbroken text segment position ∧
      0 < depth ∧ 2 * depth ≤ position

/-- Tokens that a scan for `region` has found, where the next one starts at `bound` or later. -/
structure Kept (text : σ) (region : Span) (bound : Nat) (tokens : List Token) : Prop where
  nonempty : ∀ t ∈ tokens, t.span.start < t.span.stop
  stop_le : ∀ t ∈ tokens, t.span.stop ≤ bound
  ordered : tokens.Pairwise fun t u => t.span.stop ≤ u.span.start
  unbroken : ∀ t ∈ tokens, Unbroken text t.span.start t.span.stop
  intersects : ∀ t ∈ tokens, t.span.intersects region = true

/-- The offset where the next token starts at the earliest. -/
def State.frontier (st : State) : Nat :=
  st.mode.start?.getD st.position

/-- No line break lies among the characters of a number. -/
theorem Mode.Fits.unbroken_number {text : σ} {start position : Nat}
    (h : (Mode.number start).Fits text position) : Unbroken text start position :=
  unbroken_of_not_isBlank fun i hi hi' => isBlank_of_isNumberPart (h.2 i hi hi')

/-- What holds between two steps of a scan. -/
structure Inv (text : σ) (region : Span) (st : State) : Prop where
  position_le : st.position ≤ length text
  fits : st.mode.Fits text st.position
  kept : Kept text region st.frontier st.tokens.toList

variable {text : σ} {region : Span} {st : State}

/-! ## Tokens -/

theorem kept_nil (text : σ) (region : Span) (bound : Nat) : Kept text region bound [] where
  nonempty := by simp
  stop_le := by simp
  ordered := .nil
  unbroken := by simp
  intersects := by simp

theorem Kept.mono {bound bound' : Nat} {tokens : List Token} (h : Kept text region bound tokens)
    (hle : bound ≤ bound') : Kept text region bound' tokens :=
  { h with stop_le := fun t ht => Nat.le_trans (h.stop_le t ht) hle }

/-- A further token that the region keeps. -/
theorem Kept.concat {start stop : Nat} {kind : Kind} {tokens : List Token}
    (h : Kept text region start tokens) (hlt : start < stop) (hu : Unbroken text start stop)
    (hi : (Span.mk start stop).intersects region = true) :
    Kept text region stop (tokens ++ [⟨⟨start, stop⟩, kind⟩]) where
  nonempty := by
    intro t ht
    rcases List.mem_append.mp ht with ht | ht
    · exact h.nonempty t ht
    · obtain rfl := List.mem_singleton.mp ht
      exact hlt
  stop_le := by
    intro t ht
    rcases List.mem_append.mp ht with ht | ht
    · exact Nat.le_trans (h.stop_le t ht) (Nat.le_of_lt hlt)
    · obtain rfl := List.mem_singleton.mp ht
      exact Nat.le_refl _
  ordered := by
    refine List.pairwise_append.mpr ⟨h.ordered, List.pairwise_singleton _ _, ?_⟩
    intro t ht u hu
    obtain rfl := List.mem_singleton.mp hu
    exact h.stop_le t ht
  unbroken := by
    intro t ht
    rcases List.mem_append.mp ht with ht | ht
    · exact h.unbroken t ht
    · obtain rfl := List.mem_singleton.mp ht
      exact hu
  intersects := by
    intro t ht
    rcases List.mem_append.mp ht with ht | ht
    · exact h.intersects t ht
    · obtain rfl := List.mem_singleton.mp ht
      exact hi

/-- A token may be emitted, whether the region keeps it or not. -/
theorem Kept.emit {start stop : Nat} (kind : Kind) (h : Kept text region start st.tokens.toList)
    (hle : start ≤ stop) (hu : Unbroken text start stop) :
    Kept text region stop (st.emit region ⟨start, stop⟩ kind).tokens.toList := by
  rw [toList_tokens_emit]
  by_cases hk : keeps region ⟨⟨start, stop⟩, kind⟩ = true
  · rw [List.filter_cons_of_pos hk, List.filter_nil]
    obtain ⟨hlt, hi⟩ := keeps_iff.mp hk
    exact h.concat hlt hu hi
  · rw [List.filter_cons_of_neg hk, List.filter_nil, List.append_nil]
    exact h.mono hle

/-- No token that was found starts where the next one does. -/
theorem Kept.filter_eq_nil {bound : Nat} {tokens : List Token} {p : Token → Bool}
    (h : Kept text region bound tokens) (hp : ∀ t, p t = true → bound ≤ t.span.start) :
    tokens.filter p = [] := by
  rw [List.filter_eq_nil_iff]
  intro t ht hbehind
  have hstart := h.nonempty t ht
  have hstop := h.stop_le t ht
  have hbound := hp t hbehind
  omega

/-- A token is the only one that meets its own span. -/
theorem Kept.filter_intersects {bound : Nat} {tokens : List Token} {t : Token}
    (h : Kept text region bound tokens) (ht : t ∈ tokens) :
    tokens.filter (·.span.intersects t.span) = [t] := by
  have hlt := h.nonempty t ht
  obtain ⟨before, after, rfl⟩ := List.append_of_mem ht
  obtain ⟨-, hafter, hbefore⟩ := List.pairwise_append.mp h.ordered
  -- The tokens before end too early, and the tokens behind start too late.
  have hnone : before.filter (·.span.intersects t.span) = [] := by
    rw [List.filter_eq_nil_iff]
    intro u hu hmeets
    have hstop := hbefore u hu t List.mem_cons_self
    have hstart := ((Span.intersects_iff_of_lt hlt).mp hmeets).2
    omega
  have hnone' : after.filter (·.span.intersects t.span) = [] := by
    rw [List.filter_eq_nil_iff]
    intro u hu hmeets
    have hstart := (List.pairwise_cons.mp hafter).1 u hu
    have hstop := ((Span.intersects_iff_of_lt hlt).mp hmeets).1
    omega
  have hself : t.span.intersects t.span = true :=
    (Span.intersects_iff_of_lt hlt).mpr ⟨hlt, hlt⟩
  rw [List.filter_append, List.filter_cons, if_pos hself, hnone, hnone']
  rfl

/-! ## Steps in code -/

/-- Back in code, the next token may start at once. -/
theorem Kept.inv_code {bound distance : Nat} (h : Kept text region bound st.tokens.toList)
    (hb : bound ≤ st.position + distance) (hle : st.position + distance ≤ length text) :
    Inv text region (st.enter .code distance) where
  position_le := hle
  fits := trivial
  kept := h.mono hb

/-- A word that goes on. -/
theorem wordStep_of_isWordPart (region : Span) (start : Nat) (st : State)
    (h : isWordPart (charAt text (st.position + 1)) = true) :
    wordStep text region start st = st.enter (.word start) 1 := by
  rw [wordStep, if_neg]
  simpa [isWordPart] using h

/-- A word has characters, so its end is like that of any other token. -/
theorem wordStep_of_not_isWordPart (region : Span) {start : Nat} (hle : start ≤ st.position)
    (h : isWordPart (charAt text (st.position + 1)) = false) :
    wordStep text region start st =
      (st.emit region ⟨start, st.position + 1⟩
        (wordKind text ⟨start, st.position + 1⟩)).enter .code 1 := by
  have hend : (isBlank (charAt text (st.position + 1)) ||
      isPunctuation (charAt text (st.position + 1))) = true := by
    rw [← Bool.not_eq_false, Bool.or_eq_false_iff, ← isWordPart_iff, h]
    exact Bool.false_ne_true
  have hne : (Span.mk start (st.position + 1)).isEmpty = false :=
    (Span.isEmpty_eq_false_iff _).mpr (Nat.lt_succ_of_le hle)
  rw [wordStep, if_pos hend, State.emit, hne]
  dsimp only
  rw [Bool.not_false, Bool.true_and]
  split <;> rfl

/-- A word that ends is a token, and one that goes on has its next character in the text. -/
theorem inv_wordStep {start : Nat} (hlt : st.position < length text) (hle : start ≤ st.position)
    (hparts : ∀ i, start ≤ i → i ≤ st.position → isWordPart (charAt text i) = true)
    (hkept : Kept text region start st.tokens.toList) :
    Inv text region (wordStep text region start st) := by
  have notBlank : ∀ i, start ≤ i → i < st.position + 1 → isBlank (charAt text i) = false :=
    fun i hi hi' => ((isWordPart_iff _).mp (hparts i hi (by omega))).1
  fun_cases wordStep text region start st with
  | case1 stop next hnext span hspan =>
    refine ⟨hlt, trivial, ?_⟩
    rw [Array.toList_push]
    exact hkept.concat (Nat.lt_succ_of_le hle) (unbroken_of_not_isBlank notBlank) hspan
  | case2 => exact hkept.inv_code (by omega) hlt
  | case3 stop next hnext =>
    have hnext' : isWordPart (charAt text (st.position + 1)) = true := by
      simpa [isWordPart, stop, next] using hnext
    have hstop : st.position + 1 < length text :=
      lt_length_of_not_isBlank ((isWordPart_iff _).mp hnext').1
    refine ⟨hlt, ⟨Nat.lt_succ_of_le hle, hstop, ?_⟩, hkept⟩
    intro i hi hi'
    rcases Nat.lt_succ_iff_lt_or_eq.mp (Nat.lt_succ_of_le hi') with h | rfl
    · exact hparts i hi (Nat.le_of_lt_succ h)
    · exact hnext'

/-- The characters of an operator lie within the text, and none of them is blank. -/
theorem isBlank_of_operatorLength? {position n : Nat}
    (h : operatorLength? (charAt text position) (charAt text (position + 1))
      (charAt text (position + 2)) = some n) (i : Nat) (hi : position ≤ i)
    (hi' : i < position + n) : isBlank (charAt text i) = false := by
  obtain ⟨hn, hall⟩ := isPunctuation_of_operatorLength? h
  apply isBlank_of_isPunctuation
  apply hall
  obtain rfl | rfl | rfl : i = position ∨ i = position + 1 ∨ i = position + 2 := by omega
  · obtain ⟨m, rfl⟩ : ∃ m, n = m + 1 := ⟨n - 1, by omega⟩
    simp
  · obtain ⟨m, rfl⟩ : ∃ m, n = m + 2 := ⟨n - 2, by omega⟩
    simp
  · obtain rfl : n = 3 := by omega
    simp

/-- An operator lies within the text, for no sentinel is part of it. -/
theorem operatorLength?_le {position n : Nat} (hlt : position < length text)
    (h : operatorLength? (charAt text position) (charAt text (position + 1))
      (charAt text (position + 2)) = some n) : position + n ≤ length text := by
  rcases Nat.eq_zero_or_pos n with rfl | hn
  · omega
  · have := lt_length_of_not_isBlank
      (isBlank_of_operatorLength? h (position + n - 1) (by omega) (by omega))
    omega

theorem inv_symbolStep (hlt : st.position < length text)
    (hc : isPunctuation (charAt text st.position) = true)
    (hkept : Kept text region st.position st.tokens.toList) :
    Inv text region (symbolStep text region st) := by
  fun_cases symbolStep text region st with
  | case1 start n h =>
    have hu := unbroken_of_not_isBlank (isBlank_of_operatorLength? h)
    apply (hkept.emit .operator (Nat.le_add_right _ n) hu).inv_code
    · exact Nat.le_of_eq (by rw [State.position_emit])
    · rw [State.position_emit]
      exact operatorLength?_le hlt h
  | case2 start h =>
    have hu : Unbroken text start (start + 1) :=
      (Unbroken.refl text start).succ
        (lineBreakLength_eq_zero_of_not_isBlank (isBlank_of_isPunctuation hc))
    apply (hkept.emit .punctuation (Nat.le_add_right _ 1) hu).inv_code
    · exact Nat.le_of_eq (by rw [State.position_emit])
    · rw [State.position_emit]
      exact hlt

/-- The two characters of a delimiter lie within the text, and no line break is among them. -/
theorem delimiter_within {position : Nat} {a b : Char} (ha : isBlank a = false)
    (hb : isBlank b = false)
    (h : charAt text position = a ∧ charAt text (position + 1) = b) :
    position + 2 ≤ length text ∧ Unbroken text position (position + 2) := by
  rw [← h.1] at ha
  rw [← h.2] at hb
  refine ⟨lt_length_of_not_isBlank hb, ?_⟩
  exact ((Unbroken.refl text position).succ (lineBreakLength_eq_zero_of_not_isBlank ha)).succ
    (lineBreakLength_eq_zero_of_not_isBlank hb)

/-- What a step in code opens fits the characters that it has read. -/
theorem inv_codeStep (hlt : st.position < length text)
    (hkept : Kept text region st.position st.tokens.toList) :
    Inv text region (codeStep text region st) := by
  fun_cases codeStep text region st with
  | case1 => exact hkept.inv_code (Nat.le_add_right _ _) (add_lineBreakLength_le (Nat.le_of_lt hlt))
  | case2 start c next _ _ h =>
    obtain ⟨hle, hu⟩ := delimiter_within isBlank_slash isBlank_star h
    exact ⟨hle, ⟨Nat.le_add_right _ _, hu, by omega, Nat.le_add_left _ _⟩, hkept⟩
  | case3 start c next _ _ _ h =>
    exact hkept.inv_code (Nat.le_add_right _ _) (delimiter_within isBlank_star isBlank_slash h).1
  | case4 start c next _ _ _ _ h =>
    obtain ⟨hle, hu⟩ := delimiter_within isBlank_slash isBlank_slash h
    exact ⟨hle, ⟨Nat.lt_add_of_pos_right (by omega), hu⟩, hkept⟩
  -- An opening quote is on its line by itself.
  | case5 start c next breakLength hbreak =>
    exact ⟨hlt, ⟨Nat.lt_succ_self _, (Unbroken.refl _ _).succ (Nat.eq_zero_of_not_pos hbreak)⟩,
      hkept⟩
  | case6 start c next breakLength hbreak =>
    exact ⟨hlt, ⟨Nat.lt_succ_self _, (Unbroken.refl _ _).succ (Nat.eq_zero_of_not_pos hbreak)⟩,
      hkept⟩
  | case7 start c next breakLength hbreak =>
    exact ⟨hlt, ⟨Nat.le_succ _, (Unbroken.refl _ _).succ (Nat.eq_zero_of_not_pos hbreak)⟩, hkept⟩
  | case8 start c next _ _ _ _ _ _ _ _ h =>
    refine ⟨hlt, ⟨Nat.lt_succ_self _, ?_⟩, hkept⟩
    intro i hi hi'
    obtain rfl : i = st.position := Nat.le_antisymm (Nat.le_of_lt_succ hi') hi
    exact isNumberPart_of_isNumberStart h
  | case9 start c next _ _ _ _ _ _ _ _ _ h => exact inv_symbolStep hlt h hkept
  | case10 => exact hkept.inv_code (Nat.le_add_right _ _) hlt
  | case11 start c next _ _ _ _ _ _ _ _ _ hpunctuation hblank =>
    refine inv_wordStep hlt (Nat.le_refl _) ?_ hkept
    intro i hi hi'
    obtain rfl : i = st.position := Nat.le_antisymm hi' hi
    rw [isWordPart_iff]
    exact ⟨eq_false_of_ne_true hblank, eq_false_of_ne_true hpunctuation⟩

/-- A number that ends leaves the character behind it to code. -/
theorem inv_numberStep {start : Nat} (hlt : st.position < length text)
    (hfits : (Mode.number start).Fits text st.position)
    (hkept : Kept text region start st.tokens.toList) :
    Inv text region (numberStep text region start st) := by
  fun_cases numberStep text region start st with
  | case1 h =>
    obtain ⟨hstart, hparts⟩ := hfits
    refine ⟨hlt, ⟨Nat.lt_succ_of_lt hstart, ?_⟩, hkept⟩
    intro i hi hi'
    rcases Nat.lt_succ_iff_lt_or_eq.mp hi' with h' | rfl
    · exact hparts i hi h'
    · exact h
  | case2 =>
    apply inv_codeStep
    · simpa using hlt
    · simpa using hkept.emit .number (Nat.le_of_lt hfits.1) hfits.unbroken_number

/-! ## Steps in literals and comments -/

/-- A backslash takes with it a character that is within the text and starts no line break. -/
theorem inv_quotedStep {quote : Quote} {start : Nat} (hlt : st.position < length text)
    (hfits : (Mode.quoted quote start).Fits text st.position)
    (hkept : Kept text region start st.tokens.toList) :
    Inv text region (quotedStep text region quote start st) := by
  obtain ⟨hstart, hu⟩ := hfits
  fun_cases quotedStep text region quote start st with
  | case1 =>
    exact hkept.inv_code (by omega) (add_lineBreakLength_le (Nat.le_of_lt hlt))
  | case2 here breakLength hbreak _ h =>
    refine ⟨h.1, ⟨by exact Nat.lt_add_right 2 hstart, ?_⟩, hkept⟩
    exact (hu.succ (Nat.eq_zero_of_not_pos hbreak)).succ h.2
  | case3 here breakLength hbreak | case5 here breakLength hbreak =>
    exact ⟨hlt, ⟨Nat.lt_succ_of_lt hstart, hu.succ (Nat.eq_zero_of_not_pos hbreak)⟩, hkept⟩
  | case4 here breakLength hbreak =>
    have hu' := hu.succ (Nat.eq_zero_of_not_pos hbreak)
    apply (hkept.emit .stringLiteral (by omega) hu').inv_code
    · exact Nat.le_of_eq (by rw [State.position_emit])
    · rw [State.position_emit]
      exact hlt

/-- A raw string starts a new segment behind each line break. -/
theorem inv_rawStringStep {segment : Nat} (hlt : st.position < length text)
    (hfits : (Mode.rawString segment).Fits text st.position)
    (hkept : Kept text region segment st.tokens.toList) :
    Inv text region (rawStringStep text region segment st) := by
  obtain ⟨hsegment, hu⟩ := hfits
  fun_cases rawStringStep text region segment st with
  | case1 here breakLength hbreak =>
    refine ⟨?_, ⟨?_, ?_⟩, ?_⟩
    · rw [State.position_enter, State.position_emit]
      exact add_lineBreakLength_le (Nat.le_of_lt hlt)
    · exact Nat.le_of_eq (by rw [State.position_enter, State.position_emit])
    · rw [State.position_enter, State.position_emit]
      exact Unbroken.refl _ _
    · exact (hkept.emit .stringLiteral hsegment hu).mono (Nat.le_add_right _ _)
  | case2 here breakLength hbreak =>
    have hu' := hu.succ (Nat.eq_zero_of_not_pos hbreak)
    apply (hkept.emit .stringLiteral (by omega) hu').inv_code
    · exact Nat.le_of_eq (by rw [State.position_emit])
    · rw [State.position_emit]
      exact hlt
  | case3 here breakLength hbreak =>
    exact ⟨hlt, ⟨Nat.le_succ_of_le hsegment, hu.succ (Nat.eq_zero_of_not_pos hbreak)⟩, hkept⟩

theorem inv_lineCommentStep {start : Nat} (hlt : st.position < length text)
    (hfits : (Mode.lineComment start).Fits text st.position)
    (hkept : Kept text region start st.tokens.toList) :
    Inv text region (lineCommentStep text region start st) := by
  obtain ⟨hstart, hu⟩ := hfits
  fun_cases lineCommentStep text region start st with
  | case1 =>
    apply (hkept.emit .comment (Nat.le_of_lt hstart) hu).inv_code
    · rw [State.position_emit]
      exact Nat.le_add_right _ _
    · rw [State.position_emit]
      exact add_lineBreakLength_le (Nat.le_of_lt hlt)
  | case2 here breakLength hbreak =>
    exact ⟨hlt, ⟨Nat.lt_succ_of_lt hstart, hu.succ (Nat.eq_zero_of_not_pos hbreak)⟩, hkept⟩

/-- A block comment starts a new segment behind each line break, and two characters were read for
each level of its depth. -/
theorem inv_blockCommentStep {segment depth : Nat} (hlt : st.position < length text)
    (hfits : (Mode.blockComment segment depth).Fits text st.position)
    (hkept : Kept text region segment st.tokens.toList) :
    Inv text region (blockCommentStep text region segment depth st) := by
  obtain ⟨hsegment, hu, hdepth, hdouble⟩ := hfits
  fun_cases blockCommentStep text region segment depth st with
  | case1 here c next h =>
    obtain ⟨hle, hu'⟩ := delimiter_within isBlank_slash isBlank_star h
    refine ⟨hle, ⟨Nat.le_add_right_of_le hsegment, hu.trans hu', by omega, ?_⟩, hkept⟩
    rw [State.position_enter]
    omega
  | case2 here c next _ h _ =>
    obtain ⟨hle, hu'⟩ := delimiter_within isBlank_star isBlank_slash h
    apply (hkept.emit .comment (by omega) (hu.trans hu')).inv_code
    · exact Nat.le_of_eq (by rw [State.position_emit])
    · rw [State.position_emit]
      exact hle
  | case3 here c next _ h hdepth' =>
    obtain ⟨hle, hu'⟩ := delimiter_within isBlank_star isBlank_slash h
    refine ⟨hle, ⟨Nat.le_add_right_of_le hsegment, hu.trans hu', by omega, ?_⟩, hkept⟩
    rw [State.position_enter]
    omega
  -- The segment ends in front of the line break, and the next one starts behind it.
  | case4 here c next breakLength _ _ hbreak =>
    refine ⟨?_, ⟨?_, ?_, hdepth, ?_⟩, ?_⟩
    · rw [State.position_enter, State.position_emit]
      exact add_lineBreakLength_le (Nat.le_of_lt hlt)
    · exact Nat.le_of_eq (by rw [State.position_enter, State.position_emit])
    · rw [State.position_enter, State.position_emit]
      exact Unbroken.refl _ _
    · rw [State.position_enter, State.position_emit]
      omega
    · exact (hkept.emit .comment hsegment hu).mono (Nat.le_add_right _ _)
  | case5 here c next breakLength _ _ hbreak =>
    refine ⟨hlt, ⟨Nat.le_succ_of_le hsegment, hu.succ (Nat.eq_zero_of_not_pos hbreak), hdepth, ?_⟩,
      hkept⟩
    rw [State.position_enter]
    omega

/-! ## Runs -/

/-- The invariant survives a step. -/
theorem inv_step (hlt : st.position < length text) (h : Inv text region st) :
    Inv text region (step text region st) := by
  obtain ⟨position, mode, tokens⟩ := st
  obtain ⟨-, hfits, hkept⟩ := h
  cases mode with
  | code => exact inv_codeStep hlt hkept
  | word start => exact inv_wordStep hlt (Nat.le_of_lt hfits.1) hfits.2.2 hkept
  | number start => exact inv_numberStep hlt hfits hkept
  | quoted quote start => exact inv_quotedStep hlt hfits hkept
  | rawString segment => exact inv_rawStringStep hlt hfits hkept
  | lineComment start => exact inv_lineCommentStep hlt hfits hkept
  | blockComment segment depth => exact inv_blockCommentStep hlt hfits hkept

theorem inv_init (text : σ) (region : Span) : Inv text region {} where
  position_le := Nat.zero_le _
  fits := trivial
  kept := kept_nil ..

/-- Every state that a scan passes through satisfies the invariant. -/
theorem Reached.inv (h : Reached text region st) : Inv text region st :=
  h.induct (inv_init text region) fun _ => inv_step

/-- The scan ends exactly at the end of the text. -/
theorem position_scan (text : σ) (region : Span) : (scan text region).position = length text :=
  Nat.le_antisymm (reached_scan text region).inv.position_le (length_le_position_run text region {})

/-- What is open at the end of the text is closed by a token like any other. -/
theorem Inv.kept_finish (h : Inv text region st) (hend : st.position = length text)
    (options : Options) :
    Kept text region (length text) (finish options (length text) region st).tokens.toList := by
  obtain ⟨position, mode, tokens⟩ := st
  obtain ⟨-, hfits, hkept⟩ := h
  obtain rfl : position = length text := hend
  cases mode with
  | code => exact hkept
  -- The character at the position is one of the word, so no word is open at the end.
  | word start => exact absurd hfits.2.1 (Nat.lt_irrefl _)
  | number start => exact hkept.emit .number (Nat.le_of_lt hfits.1) hfits.unbroken_number
  | quoted quote start => exact hkept.mono (Nat.le_of_lt hfits.1)
  | lineComment start => exact hkept.emit .comment (Nat.le_of_lt hfits.1) hfits.2
  | rawString segment =>
    dsimp only [finish]
    split
    · exact hkept.emit .stringLiteral hfits.1 hfits.2
    · exact hkept.mono hfits.1
  | blockComment segment depth =>
    dsimp only [finish]
    split
    · exact hkept.emit .comment hfits.1 hfits.2.1
    · exact hkept.mono hfits.1

/-- The tokens of a text are in order, lie within it, contain no line break and meet the region. -/
theorem kept_tokenize (options : Options) (text : σ) (region : Span) :
    Kept text region (length text) (tokenize options text region) :=
  (reached_scan text region).inv.kept_finish (position_scan text region) options

/-- **Tokens follow each other within the text.** For every region, and with tails or without, no
token is empty, each one ends within the text, and each one ends before all later ones start, or
where the next one starts. -/
theorem tokenize_pairwise_stop_le_start (options : Options) (text : σ) (region : Span) :
    (∀ t ∈ tokenize options text region,
      t.span.start < t.span.stop ∧ t.span.stop ≤ length text) ∧
    (tokenize options text region).Pairwise fun t u => t.span.stop ≤ u.span.start := by
  have hkept := kept_tokenize options text region
  exact ⟨fun t ht => ⟨hkept.nonempty t ht, hkept.stop_le t ht⟩, hkept.ordered⟩

/-- A number, a word that follows it at once, and a comment that is open at the end of the text. -/
theorem tokenize_pairwise_stop_le_start_openComment :
    let text := Snapshot.ofString "1.5if/*\n*\n"
    let tokens := tokenize {} text ⟨1, 9⟩
    tokens = [⟨⟨0, 3⟩, .number⟩, ⟨⟨3, 5⟩, .keyword⟩, ⟨⟨5, 7⟩, .comment⟩, ⟨⟨8, 9⟩, .comment⟩] ∧
      9 ≤ length text ∧ tokens.Pairwise fun t u => t.span.stop ≤ u.span.start := by
  intro text tokens
  have htokens : tokens =
      [⟨⟨0, 3⟩, .number⟩, ⟨⟨3, 5⟩, .keyword⟩, ⟨⟨5, 7⟩, .comment⟩, ⟨⟨8, 9⟩, .comment⟩] := by
    dsimp only [tokens]
    rw [tokenize_eq_steps]
    decide +kernel
  have hlast : ⟨⟨8, 9⟩, .comment⟩ ∈ tokens := by
    rw [htokens]
    decide
  obtain ⟨hwithin, hordered⟩ := tokenize_pairwise_stop_le_start {} text ⟨1, 9⟩
  exact ⟨htokens, (hwithin _ hlast).2, hordered⟩

end OdinSyntax.Scan
