import OdinSyntax.Proofs.Scan.Parallel
import OdinSyntax.Proofs.Text.Common

/-!
# Tokens before an edit

An edit of a text leaves the tokens alone that end early enough before it. How early is told by how
far a step looks ahead: a step within the common beginning of the old and the new text, with two
characters of it to come, is the same in both, so the two scans are parallel until the second
character from the end of that beginning. Whatever they find after that ends there or later
(`Reached.addsBehind`), and the one token that may end exactly there is closed by what both texts
share (`State.ending`).

Spans are settled with that, but kinds of words are not, since a word is classified by what follows
the blanks behind it. `Stable` says what remains: the kind of a word can change only if it is in no
vocabulary and the blanks behind it reach the edit.
-/

namespace OdinSyntax.Scan

open Source Lexeme

variable {σ τ : Type} [Source σ] [Source τ] {options : Options} {text : σ} {text' : τ}
  {region : Span} {st st' : State} {p : Nat}

/-! ## Where new tokens end -/

/-- `tokens'` are `tokens` and further ones, which end at `bound` or later. -/
def AddsBehind (bound : Nat) (tokens tokens' : List Token) : Prop :=
  ∃ found, tokens' = tokens ++ found ∧ ∀ t ∈ found, bound ≤ t.span.stop

theorem AddsBehind.refl (bound : Nat) (tokens : List Token) : AddsBehind bound tokens tokens :=
  ⟨[], (List.append_nil _).symm, by simp⟩

theorem AddsBehind.mono {bound bound' : Nat} {tokens tokens' : List Token}
    (h : AddsBehind bound tokens tokens') (hle : bound' ≤ bound) :
    AddsBehind bound' tokens tokens' := by
  obtain ⟨found, htokens, hstop⟩ := h
  exact ⟨found, htokens, fun t ht => Nat.le_trans hle (hstop t ht)⟩

theorem AddsBehind.trans {bound : Nat} {tokens tokens' tokens'' : List Token}
    (h : AddsBehind bound tokens tokens') (h' : AddsBehind bound tokens' tokens'') :
    AddsBehind bound tokens tokens'' := by
  obtain ⟨found, rfl, hstop⟩ := h
  obtain ⟨found', rfl, hstop'⟩ := h'
  refine ⟨found ++ found', List.append_assoc .., fun t ht => ?_⟩
  rcases List.mem_append.mp ht with ht | ht
  · exact hstop t ht
  · exact hstop' t ht

/-- At most one token is added, and it ends where its span does. -/
theorem addsBehind_emit {bound : Nat} {span : Span} (kind : Kind) (h : bound ≤ span.stop) :
    AddsBehind bound st.tokens.toList (st.emit region span kind).tokens.toList := by
  refine ⟨_, toList_tokens_emit .., fun t ht => ?_⟩
  obtain rfl := List.mem_singleton.mp (List.mem_of_mem_filter ht)
  exact h

theorem addsBehind_wordStep (text : σ) (region : Span) (start : Nat) (st : State) :
    AddsBehind (st.position + 1) st.tokens.toList
      (wordStep text region start st).tokens.toList := by
  fun_cases wordStep text region start st with
  | case1 =>
    refine ⟨_, Array.toList_push, fun t ht => ?_⟩
    rw [List.mem_singleton.mp ht]
  | case2 | case3 => exact .refl ..

/-- What code adds ends behind the character that is read. -/
theorem addsBehind_codeStep (text : σ) (region : Span) (st : State) :
    AddsBehind (st.position + 1) st.tokens.toList (codeStep text region st).tokens.toList := by
  fun_cases codeStep text region st
  case case9 =>
    fun_cases symbolStep text region st with
    | case1 start n h =>
      exact addsBehind_emit .operator (Nat.add_le_add_left (operatorLength?_pos h) _)
    | case2 => exact addsBehind_emit .punctuation (Nat.le_refl _)
  case case11 => exact addsBehind_wordStep ..
  all_goals exact .refl ..

/-- The token that the next step closes at the position, where what stands there ends a number, a
line comment or a segment. -/
def State.ending (text : σ) (st : State) : List Token :=
  match st.mode with
  | .number start =>
    if !isNumberPart (charAt text st.position) then [⟨⟨start, st.position⟩, .number⟩] else []
  | .rawString segment =>
    if 0 < lineBreakLength text st.position then [⟨⟨segment, st.position⟩, .stringLiteral⟩] else []
  | .lineComment start | .blockComment start _ =>
    if 0 < lineBreakLength text st.position then [⟨⟨start, st.position⟩, .comment⟩] else []
  | .code | .word _ | .quoted _ _ => []

/-- The pending token ends at the position. -/
theorem State.stop_eq_of_mem_ending {t : Token} (h : t ∈ st.ending text) :
    t.span.stop = st.position := by
  have hstop : ∀ {c : Prop} [Decidable c] {start : Nat} {kind : Kind},
      t ∈ (if c then [⟨⟨start, st.position⟩, kind⟩] else []) → t.span.stop = st.position := by
    intro c _ start kind ht
    rw [List.mem_singleton.mp (List.mem_ite_nil_right.mp ht).2]
  unfold State.ending at h
  cases hmode : st.mode <;> rw [hmode] at h
  case code | word | quoted => cases h
  all_goals exact hstop h

/-- Where nothing ends at the position, the ending adds no token. -/
theorem addsBehind_of_ending_nil {bound : Nat} {tokens : List Token} (hnone : st.ending text = [])
    (h : AddsBehind bound st.tokens.toList tokens) :
    AddsBehind bound (st.tokens.toList ++ (st.ending text).filter (keeps region)) tokens := by
  rw [hnone, List.filter_nil, List.append_nil]
  exact h

/-- The ending is added as any token is. -/
theorem addsBehind_of_ending_singleton {bound : Nat} {tokens : List Token} {span : Span}
    {kind : Kind} (hone : st.ending text = [⟨span, kind⟩])
    (h : AddsBehind bound (st.emit region span kind).tokens.toList tokens) :
    AddsBehind bound (st.tokens.toList ++ (st.ending text).filter (keeps region)) tokens := by
  rw [hone, ← toList_tokens_emit]
  exact h

/-- A number that ends is the pending token, and code may add another one. -/
theorem addsBehind_numberStep {start : Nat} (hmode : st.mode = .number start) :
    AddsBehind (st.position + 1) (st.tokens.toList ++ (st.ending text).filter (keeps region))
      (numberStep text region start st).tokens.toList := by
  fun_cases numberStep text region start st with
  | case1 hpart =>
    apply addsBehind_of_ending_nil _ (.refl ..)
    rw [State.ending, hmode]
    exact if_neg (by rw [hpart]; exact Bool.false_ne_true)
  | case2 hpart =>
    have hcode := addsBehind_codeStep text region
      ((st.emit region ⟨start, st.position⟩ .number).enter .code 0)
    rw [State.position_enter, State.position_emit, State.tokens_enter, Nat.add_zero] at hcode
    apply addsBehind_of_ending_singleton _ hcode
    rw [State.ending, hmode]
    exact if_pos (by rw [eq_false_of_ne_true hpart]; rfl)

theorem addsBehind_quotedStep (text : σ) (region : Span) (quote : Quote) (start : Nat)
    (st : State) :
    AddsBehind (st.position + 1) st.tokens.toList
      (quotedStep text region quote start st).tokens.toList := by
  fun_cases quotedStep text region quote start st with
  | case4 => exact addsBehind_emit .stringLiteral (Nat.le_refl _)
  | case1 | case2 | case3 | case5 => exact .refl ..

/-- A segment that ends in front of a line break is the pending token. -/
theorem addsBehind_rawStringStep {segment : Nat} (hmode : st.mode = .rawString segment) :
    AddsBehind (st.position + 1) (st.tokens.toList ++ (st.ending text).filter (keeps region))
      (rawStringStep text region segment st).tokens.toList := by
  have hopen : ¬ 0 < lineBreakLength text st.position → st.ending text = [] := by
    intro hbreak
    rw [State.ending, hmode]
    exact if_neg hbreak
  fun_cases rawStringStep text region segment st with
  | case1 here breakLength hbreak =>
    apply addsBehind_of_ending_singleton _ (.refl ..)
    rw [State.ending, hmode]
    exact if_pos hbreak
  | case2 here breakLength hbreak =>
    exact addsBehind_of_ending_nil (hopen hbreak) (addsBehind_emit .stringLiteral (Nat.le_refl _))
  | case3 here breakLength hbreak => exact addsBehind_of_ending_nil (hopen hbreak) (.refl ..)

theorem addsBehind_lineCommentStep {start : Nat} (hmode : st.mode = .lineComment start) :
    AddsBehind (st.position + 1) (st.tokens.toList ++ (st.ending text).filter (keeps region))
      (lineCommentStep text region start st).tokens.toList := by
  fun_cases lineCommentStep text region start st with
  | case1 here breakLength hbreak =>
    apply addsBehind_of_ending_singleton _ (.refl ..)
    rw [State.ending, hmode]
    exact if_pos hbreak
  | case2 here breakLength hbreak =>
    apply addsBehind_of_ending_nil _ (.refl ..)
    rw [State.ending, hmode]
    exact if_neg hbreak

/-- A segment that ends in front of a line break is the pending token, and one that ends with a
closer ends behind it. -/
theorem addsBehind_blockCommentStep {segment depth : Nat}
    (hmode : st.mode = .blockComment segment depth) :
    AddsBehind (st.position + 1) (st.tokens.toList ++ (st.ending text).filter (keeps region))
      (blockCommentStep text region segment depth st).tokens.toList := by
  have hopen : ¬ 0 < lineBreakLength text st.position → st.ending text = [] := by
    intro hbreak
    rw [State.ending, hmode]
    exact if_neg hbreak
  -- No line break starts with a delimiter.
  have hdelimiter : ∀ {a b}, isBlank a = false → isBlank b = false →
      charAt text st.position = a ∧ charAt text (st.position + 1) = b → st.ending text = [] := by
    intro a b ha hb hab
    have hzero := (delimiter_within ha hb hab).2 _ (Nat.le_refl _) (by omega)
    exact hopen (Nat.not_lt.mpr (Nat.le_of_eq hzero))
  fun_cases blockCommentStep text region segment depth st with
  | case1 here c next hab =>
    exact addsBehind_of_ending_nil (hdelimiter isBlank_slash isBlank_star hab) (.refl ..)
  | case2 here c next _ hab =>
    exact addsBehind_of_ending_nil (hdelimiter isBlank_star isBlank_slash hab)
      (addsBehind_emit .comment (Nat.le_succ _))
  | case3 here c next _ hab =>
    exact addsBehind_of_ending_nil (hdelimiter isBlank_star isBlank_slash hab) (.refl ..)
  | case4 here c next breakLength _ _ hbreak =>
    apply addsBehind_of_ending_singleton _ (.refl ..)
    rw [State.ending, hmode]
    exact if_pos hbreak
  | case5 here c next breakLength _ _ hbreak =>
    exact addsBehind_of_ending_nil (hopen hbreak) (.refl ..)

/-- **What a step adds.** It closes the ending, and whatever else it finds ends behind the
position. -/
theorem addsBehind_ending_step (text : σ) (region : Span) (st : State) :
    AddsBehind (st.position + 1) (st.tokens.toList ++ (st.ending text).filter (keeps region))
      (step text region st).tokens.toList := by
  obtain ⟨position, mode, tokens⟩ := st
  cases mode with
  | code => exact addsBehind_of_ending_nil rfl (addsBehind_codeStep ..)
  | word start => exact addsBehind_of_ending_nil rfl (addsBehind_wordStep ..)
  | quoted quote start => exact addsBehind_of_ending_nil rfl (addsBehind_quotedStep ..)
  | number start => exact addsBehind_numberStep rfl
  | rawString segment => exact addsBehind_rawStringStep rfl
  | lineComment start => exact addsBehind_lineCommentStep rfl
  | blockComment segment depth => exact addsBehind_blockCommentStep rfl

/-! ## Runs -/

/-- A step adds no token that ends before its position. -/
theorem addsBehind_step (text : σ) (region : Span) (st : State) :
    AddsBehind st.position st.tokens.toList (step text region st).tokens.toList := by
  have hending : AddsBehind st.position st.tokens.toList
      (st.tokens.toList ++ (st.ending text).filter (keeps region)) := by
    refine ⟨_, rfl, fun t ht => ?_⟩
    rw [State.stop_eq_of_mem_ending (List.mem_of_mem_filter ht)]
  exact hending.trans ((addsBehind_ending_step text region st).mono (Nat.le_succ _))

/-- Hence a run adds none that ends before the position at which it starts. -/
theorem addsBehind_run (text : σ) (region : Span) (st : State) :
    AddsBehind st.position st.tokens.toList (run text region st).tokens.toList := by
  fun_induction run text region st with
  | case1 st hlt ih =>
    have hnext := position_lt_step text region st
    exact (addsBehind_step text region st).trans (ih.mono (Nat.le_of_lt hnext))
  | case2 => exact .refl ..

/-- What is open at the end of the text ends there. -/
theorem addsBehind_finish (options : Options) (stop : Nat) (region : Span) (st : State) :
    AddsBehind stop st.tokens.toList (finish options stop region st).tokens.toList := by
  unfold finish
  cases st.mode with
  | code | word | quoted => exact .refl ..
  | number | lineComment => exact addsBehind_emit _ (Nat.le_refl _)
  | rawString | blockComment =>
    dsimp only
    split
    · exact addsBehind_emit _ (Nat.le_refl _)
    · exact .refl ..

/-- What a scan finds behind a state ends at its position or later. -/
theorem Reached.addsBehind (h : Reached text region st) (options : Options) :
    AddsBehind st.position st.tokens.toList (tokenize options text region) := by
  have hfinish := addsBehind_finish options (length text) region (run text region st)
  rw [← run_eq_of_reaches h] at hfinish
  have hrun := addsBehind_run text region st
  rw [← run_eq_of_reaches h] at hrun
  exact hrun.trans (hfinish.mono h.inv.position_le)

/-- Only the ending ends at the position. -/
theorem Reached.addsBehind_ending (h : Reached text region st) (hlt : st.position < length text)
    (options : Options) :
    AddsBehind (st.position + 1) (st.tokens.toList ++ (st.ending text).filter (keeps region))
      (tokenize options text region) := by
  have hnext : Reached text region (step text region st) := h.tail ⟨hlt, rfl⟩
  have hstep := position_lt_step text region st
  exact (addsBehind_ending_step text region st).trans ((hnext.addsBehind options).mono hstep)

/-! ## Parallel beginnings -/

/-- Two characters before the end of the common beginning, a step sees the same in both texts. -/
theorem sameView_of_samePrefix (h : SamePrefix text text' p) {x : Nat} (hx : x + 2 < p) :
    SameView id text x text' x := by
  have hchar : ∀ n ≤ 2, (∀ i < n, charAt text (x + i) ≠ '\n') →
      charAt text' (x + n + 0) = charAt text (x + n) :=
    fun n hn _ => h.charAt_eq (x + n) (by omega)
  have hle := h.le_length
  have hle' := h.le_length'
  exact sameView_of_charAt_eq hchar fun _ => ⟨fun _ => by omega, fun _ => by omega⟩

/-! ## Kinds of words -/

/-- The kind of a word before the end of the common beginning is the same, if it is in a vocabulary
or if the blanks behind it end early enough. -/
theorem wordKind_eq_of_samePrefix (h : SamePrefix text text' p) {span : Span} (hle : span.stop ≤ p)
    (hknown : inVocabulary text span = false → skipBlanks text span.stop + 2 ≤ p) :
    wordKind text' span = wordKind text span := by
  have hslice := h.slice_eq hle
  cases hvocabulary : inVocabulary text span with
  | true => exact wordKind_eq_of_inVocabulary hslice hvocabulary
  | false =>
    have hnext := hknown hvocabulary
    have hvocabulary' : inVocabulary text' span = false := by
      rw [← hvocabulary, inVocabulary, inVocabulary, hslice]
    have hskip : skipBlanks text' span.stop = skipBlanks text span.stop :=
      h.skipBlanks_eq (by omega)
    -- What follows the blanks is looked at no further than its second character.
    have hfirst := h.charAt_eq (skipBlanks text span.stop) (by omega)
    have hsecond := h.charAt_eq (skipBlanks text span.stop + 1) (by omega)
    have hmatches : matchesAfterBlanks text' span.stop [':', ':'] =
        matchesAfterBlanks text span.stop [':', ':'] := by
      simp only [matchesAfterBlanks, matchesAt, hskip, hfirst, hsecond]
    rw [wordKind_of_not_inVocabulary hvocabulary, wordKind_of_not_inVocabulary hvocabulary',
      hmatches, nextNonBlank_eq_charAt, nextNonBlank_eq_charAt, hskip, hfirst]

/-- How a token may change when the text is edited behind its first `p` characters. The span stays,
and so does the kind, but for a word that is in no vocabulary and is followed by blanks that reach
the edit. -/
structure Stable (text : σ) (p : Nat) (t u : Token) : Prop where
  span_eq : u.span = t.span
  kind_eq : u.kind = t.kind ∨
    inVocabulary text t.span = false ∧ p < skipBlanks text t.span.stop + 2 ∧
      t.kind ∈ [.identifier, .reference, .definition] ∧
      u.kind ∈ [.identifier, .reference, .definition]

/-- What corresponds in two texts with a common beginning is the same, but for words that are judged
by what is behind them. -/
theorem stable_of_twin (h : SamePrefix text text' p) {t u : Token}
    (htwin : Twin id text text' t u) (hle : t.span.stop ≤ p) : Stable text p t u := by
  obtain ⟨hspan, hkind⟩ := htwin
  have hspan : u.span = t.span := hspan
  refine ⟨hspan, ?_⟩
  rcases hkind with hkind | ⟨hkind, hkind'⟩
  · exact .inl hkind
  rw [hspan] at hkind'
  by_cases hunknown : inVocabulary text t.span = false ∧ p < skipBlanks text t.span.stop + 2
  · have hunknown' : inVocabulary text' t.span = false := by
      rw [← hunknown.1, inVocabulary, inVocabulary, h.slice_eq hle]
    refine .inr ⟨hunknown.1, hunknown.2, ?_, ?_⟩
    · rw [hkind]
      exact wordKind_mem hunknown.1
    · rw [hkind']
      exact wordKind_mem hunknown'
  · left
    rw [hkind, hkind']
    apply wordKind_eq_of_samePrefix h hle
    exact fun hvocabulary => Nat.le_of_not_lt fun hlt => hunknown ⟨hvocabulary, hlt⟩

/-! ## Tokens before the edit -/

/-- Whether the token ends two characters before `p` or earlier. -/
def isEarly (p : Nat) (t : Token) : Bool :=
  t.span.stop + 2 ≤ p

theorem isEarly_iff {t : Token} : isEarly p t = true ↔ t.span.stop + 2 ≤ p :=
  decide_eq_true_iff

/-- The early ones of all tokens of the text. -/
def earlyTokens (options : Options) (text : σ) (p : Nat) : List Token :=
  (tokenize options text ⟨0, length text⟩).filter (isEarly p)

/-- What is added too late does not count among the early tokens. -/
theorem AddsBehind.filter_eq {bound : Nat} {tokens tokens' : List Token}
    (h : AddsBehind bound tokens tokens') (hlt : p < bound + 2) :
    tokens'.filter (isEarly p) = tokens.filter (isEarly p) := by
  obtain ⟨found, rfl, hstop⟩ := h
  have hnone : found.filter (isEarly p) = [] := by
    rw [List.filter_eq_nil_iff]
    intro t ht
    have hbound := hstop t ht
    rw [isEarly_iff]
    omega
  rw [List.filter_append, hnone, List.append_nil]

/-- Parallel scans that see the same characters close the same token. -/
theorem ending_eq (h : Parallel id text text' [] st st')
    (hchar : charAt text' st.position = charAt text st.position)
    (hbreak : lineBreakLength text' st.position = lineBreakLength text st.position) :
    st'.ending text' = st.ending text := by
  have hposition : st'.position = st.position := h.position_eq
  unfold State.ending
  rw [h.mode_eq, hposition, hchar, hbreak]
  cases st.mode <;> rfl

/-- Both scans have the same pending token. -/
theorem filter_keeps_ending_eq (h : SamePrefix text text' p)
    (hparallel : Parallel id text text' [] st st') (hlt : st.position + 2 ≤ p) :
    (st'.ending text').filter (keeps ⟨0, length text'⟩) =
      (st.ending text).filter (keeps ⟨0, length text⟩) := by
  rw [ending_eq hparallel (h.charAt_eq _ (by omega)) (h.lineBreakLength_eq hlt)]
  apply List.filter_congr
  intro t ht
  have hstop := State.stop_eq_of_mem_ending ht
  have hle := h.le_length
  have hle' := h.le_length'
  rw [Bool.eq_iff_iff, keeps_whole_iff t fun _ => by omega, keeps_whole_iff t fun _ => by omega]

theorem forall₂_stable (h : SamePrefix text text' p) {tokens tokens' : List Token}
    (htwins : List.Forall₂ (Twin id text text') tokens tokens') :
    List.Forall₂ (Stable text p) (tokens.filter (isEarly p)) (tokens'.filter (isEarly p)) := by
  induction htwins with
  | nil => exact .nil
  | @cons t u tokens tokens' htwin _ ih =>
    have hspan : u.span = t.span := htwin.1
    have hsame : isEarly p u = isEarly p t := by
      rw [isEarly, isEarly, hspan]
    by_cases hearly : isEarly p t = true
    · have hle : t.span.stop ≤ p := Nat.le_of_add_right_le (isEarly_iff.mp hearly)
      rw [List.filter_cons_of_pos hearly, List.filter_cons_of_pos (hsame.trans hearly)]
      exact .cons (stable_of_twin h htwin hle) ih
    · rw [List.filter_cons_of_neg hearly, List.filter_cons_of_neg (by rwa [hsame])]
      exact ih

/-- Early tokens of parallel scans that have come to the second character before `p` are stable. -/
theorem forall₂_earlyTokens (h : SamePrefix text text' p)
    (hreached : Reached text ⟨0, length text⟩ st) (hreached' : Reached text' ⟨0, length text'⟩ st')
    (hparallel : Parallel id text text' [] st st') (hposition : p ≤ st.position + 2) :
    List.Forall₂ (Stable text p) (earlyTokens options text p) (earlyTokens options text' p) := by
  have hposition' : st'.position = st.position := hparallel.position_eq
  obtain ⟨twins, htwins, hall⟩ := hparallel.exists_twins
  obtain rfl : st'.tokens.toList = twins := htwins
  have hfound := forall₂_stable h hall
  -- The scans have gone past the second character before `p`, so nothing that they still find is
  -- early, or they are there, and the ending is.
  rcases Nat.lt_or_ge p (st.position + 2) with hlt | hge
  · have htokens := (hreached.addsBehind options).filter_eq hlt
    have htokens' := (hreached'.addsBehind options).filter_eq (hposition'.symm ▸ hlt)
    rw [earlyTokens, earlyTokens, htokens, htokens']
    exact hfound
  · have hwithin : st.position < length text := by
      have := h.le_length
      omega
    have hwithin' : st'.position < length text' := by
      have := h.le_length'
      omega
    have htokens := (hreached.addsBehind_ending hwithin options).filter_eq (by omega : p < _)
    have htokens' := (hreached'.addsBehind_ending hwithin' options).filter_eq (by omega : p < _)
    rw [earlyTokens, earlyTokens, htokens, htokens', List.filter_append, List.filter_append,
      filter_keeps_ending_eq h hparallel hge]
    exact List.rel_append hfound (List.forall₂_same.mpr fun t _ => ⟨rfl, .inl rfl⟩)

/-- **An edit leaves the tokens before it alone.** If two texts have their first `p` characters in
common, the same spans hold the tokens that end two characters before `p` or earlier, in the same
order. Their kinds are the same too, but for words that are in no vocabulary and are followed by
blanks up to the last one of the `p` characters or further. -/
theorem earlyTokens_stable (options : Options) (h : SamePrefix text text' p) :
    List.Forall₂ (Stable text p) (earlyTokens options text p) (earlyTokens options text' p) := by
  have hstart : Parallel id text text' [] {} {} := ⟨rfl, rfl, [], rfl, .nil⟩
  have hview : ∀ x < p - 2, SameView id text x text' (id x) :=
    fun x hx => sameView_of_samePrefix h (by omega)
  have hwithin : ∀ x < p - 2, x < length text ∧ id x < length text' := by
    intro x hx
    have hle := h.le_length
    have hle' := h.le_length'
    exact ⟨by omega, by rw [id]; omega⟩
  obtain ⟨st, st', hreached, hreached', hstop, hparallel⟩ :=
    hstart.exists_reaches strictMono_id hview hwithin (inv_init ..)
  exact forall₂_earlyTokens h hreached hreached' hparallel (by omega)

/-- Two colons where there was one make a definition of the word before, but not of the others. -/
theorem earlyTokens_stable_definition :
    let text := Snapshot.ofString "f(x : y"
    let text' := Snapshot.ofString "f(x ::y"
    SamePrefix text text' 5 ∧
      earlyTokens {} text 5 =
        [⟨⟨0, 1⟩, .reference⟩, ⟨⟨1, 2⟩, .punctuation⟩, ⟨⟨2, 3⟩, .identifier⟩] ∧
      earlyTokens {} text' 5 =
        [⟨⟨0, 1⟩, .reference⟩, ⟨⟨1, 2⟩, .punctuation⟩, ⟨⟨2, 3⟩, .definition⟩] ∧
      List.Forall₂ (Stable text 5) (earlyTokens {} text 5) (earlyTokens {} text' 5) := by
  intro text text'
  have hcommon : SamePrefix text text' 5 := ⟨by decide, by decide, by decide⟩
  refine ⟨hcommon, ?_, ?_, earlyTokens_stable {} hcommon⟩
  · rw [earlyTokens, tokenize_eq_steps]
    decide +kernel
  · rw [earlyTokens, tokenize_eq_steps]
    decide +kernel

end OdinSyntax.Scan
