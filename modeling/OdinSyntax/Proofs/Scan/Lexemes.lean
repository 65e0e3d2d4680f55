import OdinSyntax.Proofs.Scan.Between
import OdinSyntax.Proofs.Token.LookAhead

/-!
# The scan reads lexemes

From between two lexemes the scan reads the next one to its end (`Between.leads_headAt`), and so it
reads all that are left (`Between.finish_run`). A scan for a region therefore finds the tokens of
the lexemes of the text that meet the region (`tokenize_eq_filter_keeps`). Two statements follow:

* over the whole text, the scan and the lexer that reads one lexeme at a time give the same tokens
  (`tokenize_whole_eq_tokensOf`),
* the region decides only which tokens are kept, and has no influence on what they are
  (`tokenize_eq_filter_intersects`).
-/

namespace OdinSyntax.Scan

open Source Lexeme

variable {σ : Type} [Source σ] {options : Options} {text : σ} {region : Span} {st : State}

/-! ## One lexeme -/

/-- The tokens of a lexeme from `start` to `stop`, by its shape. -/
def shapeTokens (options : Options) (text : σ) (shape : Shape) (start stop : Nat) : List Token :=
  match shape with
  | .lineBreak | .blank | .strayClose | .quoted false => []
  | .lineComment => [⟨⟨start, stop⟩, .comment⟩]
  | .blockComment closed => pieceTokens options text .comment closed start start stop
  | .quoted true => [⟨⟨start, stop⟩, .stringLiteral⟩]
  | .rawString closed => pieceTokens options text .stringLiteral closed start start stop
  | .number => [⟨⟨start, stop⟩, .number⟩]
  | .operator => [⟨⟨start, stop⟩, .operator⟩]
  | .punctuation => [⟨⟨start, stop⟩, .punctuation⟩]
  | .word => [⟨⟨start, stop⟩, wordKind text ⟨start, stop⟩⟩]

/-- A scan keeps no empty piece, so it does not matter whether these are left out before. -/
theorem filter_keeps_pieces (kind : Kind) (pieces : List Span) :
    ((pieces.filter (!·.isEmpty)).map (⟨·, kind⟩)).filter (keeps region) =
      (pieces.map (⟨·, kind⟩)).filter (keeps region) := by
  rw [List.filter_map, List.filter_map, List.filter_filter]
  congr 2
  funext span
  dsimp only [Function.comp_apply, keeps]
  cases span.isEmpty <;> simp

/-- A lexeme has the tokens of its shape. -/
theorem filter_tokens_headAt {position n : Nat} {shape : Shape} (hlt : position < length text)
    (hext : headExtent (charAt text position) (suffix text (position + 1)) = (shape, n))
    (hle : position + (n + 1) ≤ length text) :
    ((headAt text position).tokens options).filter (keeps region) =
      (shapeTokens options text shape position (position + (n + 1))).filter (keeps region) := by
  have hspan : ∀ rest, Lexeme.span
      ⟨shape, position, slice text ⟨position, position + (n + 1)⟩, rest⟩ =
        ⟨position, position + (n + 1)⟩ := by
    intro rest
    rw [Lexeme.span, length_slice text hle, Nat.add_sub_cancel_left]
  rw [headAt_eq hlt hext, Lexeme.tokens]
  cases shape with
  | lineBreak | blank | strayClose => rfl
  | lineComment | number | operator | punctuation =>
    dsimp only [shapeTokens]
    rw [hspan]
  -- A lexeme drops its empty pieces by itself, a scan when it asks the region.
  | blockComment closed | rawString closed =>
    dsimp only [shapeTokens, pieceTokens, Lexeme.pieces]
    rw [filter_keeps_pieces]
    rfl
  | quoted closed =>
    cases closed with
    | false => rfl
    | true =>
      dsimp only [shapeTokens]
      rw [hspan]
  | word =>
    dsimp only [shapeTokens]
    rw [hspan, wordKind_eq_ofWord]

theorem length_text_headAt {position n : Nat} {shape : Shape} (hlt : position < length text)
    (hext : headExtent (charAt text position) (suffix text (position + 1)) = (shape, n))
    (hle : position + (n + 1) ≤ length text) : (headAt text position).text.length = n + 1 := by
  rw [headAt_eq hlt hext]
  dsimp only
  rw [length_slice text hle, Nat.add_sub_cancel_left]

/-- A step that stays in code and yields no token. -/
theorem leads_enter_code {distance : Nat} (hle : st.position + distance ≤ length text) :
    Leads options text region (st.enter .code distance) (st.position + distance)
      (st.tokens.toList ++ [].filter (keeps region)) :=
  leads_code rfl rfl hle (List.append_nil _).symm

/-- A step that stays in code and yields one token. -/
theorem leads_emit_code {distance : Nat} (kind : Kind)
    (hle : st.position + distance ≤ length text) :
    Leads options text region
      ((st.emit region ⟨st.position, st.position + distance⟩ kind).enter .code distance)
      (st.position + distance) (st.tokens.toList ++
        [⟨⟨st.position, st.position + distance⟩, kind⟩].filter (keeps region)) := by
  apply leads_code rfl _ hle
  · rw [State.tokens_enter, toList_tokens_emit]
  · rw [State.position_enter, State.position_emit]

theorem shapeTokens_quoted (closed : Bool) (start stop : Nat) :
    shapeTokens options text (.quoted closed) start stop =
      if closed then [⟨⟨start, stop⟩, .stringLiteral⟩] else [] := by
  cases closed <;> rfl

/-- A quote opens a literal. -/
theorem leads_open_quoted {quote : Quote} (hlt : st.position < length text)
    (hc : charAt text st.position = quote.char) :
    let found := quotedFrom text (charAt text st.position) (st.position + 1)
    let stop := st.position + (found.2 + 1)
    Leads options text region (st.enter (.quoted quote st.position) 1) stop
      (st.tokens.toList ++
        (shapeTokens options text (.quoted found.1) st.position stop).filter (keeps region)) := by
  dsimp only
  rw [hc, shapeTokens_quoted, Nat.add_comm _ 1, ← Nat.add_assoc]
  exact leads_quoted (st.enter (.quoted quote st.position) 1) rfl hlt

theorem leads_open_blockComment
    (hopen : charAt text st.position = '/' ∧ charAt text (st.position + 1) = '*') :
    let found := blockFrom text 1 (st.position + 2)
    let stop := st.position + (1 + found.2 + 1)
    Leads options text region (st.enter (.blockComment st.position 1) 2) stop
      (st.tokens.toList ++
        (shapeTokens options text (.blockComment found.1) st.position stop).filter
          (keeps region)) := by
  obtain ⟨hle, hu⟩ := delimiter_within isBlank_slash isBlank_star hopen
  dsimp only
  rw [Nat.add_right_comm, ← Nat.add_assoc]
  apply Leads.of_skip hu (Nat.le_add_right _ _)
  exact leads_blockComment (st.enter (.blockComment st.position 1) 2) rfl hle

theorem leads_open_rawString (hlt : st.position < length text)
    (hzero : lineBreakLength text st.position = 0) :
    let found := rawFrom text (st.position + 1)
    let stop := st.position + (found.2 + 1)
    Leads options text region (st.enter (.rawString st.position) 1) stop
      (st.tokens.toList ++
        (shapeTokens options text (.rawString found.1) st.position stop).filter
          (keeps region)) := by
  dsimp only
  rw [Nat.add_comm _ 1, ← Nat.add_assoc]
  apply Leads.of_skip ((Unbroken.refl _ _).succ hzero) (Nat.le_add_right _ _)
  exact leads_rawString (st.enter (.rawString st.position) 1) rfl hlt

/-- A step in code begins a lexeme, and the scan reads it to its end. -/
theorem exists_leads_codeStep (hlt : st.position < length text) :
    ∃ shape n, headExtent (charAt text st.position) (suffix text (st.position + 1)) = (shape, n) ∧
      Leads options text region (codeStep text region st) (st.position + (n + 1))
        (st.tokens.toList ++ (shapeTokens options text shape st.position
          (st.position + (n + 1))).filter (keeps region)) := by
  rw [headExtent_suffix hlt, codeStep]
  by_cases hbreak : 0 < lineBreakLength text st.position
  · rw [if_pos hbreak, if_pos hbreak]
    refine ⟨_, _, rfl, ?_⟩
    rw [Nat.sub_add_cancel hbreak]
    exact leads_enter_code (add_lineBreakLength_le (Nat.le_of_lt hlt))
  rw [if_neg hbreak, if_neg hbreak]
  by_cases hopen : charAt text st.position = '/' ∧ charAt text (st.position + 1) = '*'
  · rw [if_pos hopen, if_pos hopen]
    exact ⟨_, _, rfl, leads_open_blockComment hopen⟩
  rw [if_neg hopen, if_neg hopen]
  by_cases hclose : charAt text st.position = '*' ∧ charAt text (st.position + 1) = '/'
  · rw [if_pos hclose, if_pos hclose]
    exact ⟨_, _, rfl, leads_enter_code (delimiter_within isBlank_star isBlank_slash hclose).1⟩
  rw [if_neg hclose, if_neg hclose]
  by_cases hline : charAt text st.position = '/' ∧ charAt text (st.position + 1) = '/'
  · rw [if_pos hline, if_pos hline]
    refine ⟨_, _, rfl, ?_⟩
    rw [Nat.add_right_comm, ← Nat.add_assoc]
    exact leads_lineComment (st.enter (.lineComment st.position) 2) rfl
      (delimiter_within isBlank_slash isBlank_slash hline).1
  rw [if_neg hline, if_neg hline]
  by_cases hdouble : charAt text st.position = '"'
  · rw [if_pos (.inl hdouble), if_pos hdouble]
    exact ⟨_, _, rfl, leads_open_quoted hlt hdouble⟩
  rw [if_neg hdouble]
  by_cases hsingle : charAt text st.position = '\''
  · rw [if_pos (.inr hsingle), if_pos hsingle]
    exact ⟨_, _, rfl, leads_open_quoted hlt hsingle⟩
  rw [if_neg (not_or.mpr ⟨hdouble, hsingle⟩), if_neg hsingle]
  by_cases hraw : charAt text st.position = '\x60'
  · rw [if_pos hraw, if_pos hraw]
    exact ⟨_, _, rfl, leads_open_rawString hlt (Nat.eq_zero_of_not_pos hbreak)⟩
  rw [if_neg hraw, if_neg hraw]
  by_cases hnumber : isNumberStart (charAt text st.position) (charAt text (st.position + 1)) = true
  · rw [if_pos hnumber, if_pos hnumber]
    refine ⟨_, _, rfl, ?_⟩
    rw [Nat.add_comm _ 1, ← Nat.add_assoc]
    exact leads_number (st.enter (.number st.position) 1) rfl hlt
  rw [if_neg hnumber, if_neg hnumber]
  cases hoperator : operatorLength? (charAt text st.position) (charAt text (st.position + 1))
      (charAt text (st.position + 2)) with
  | some n =>
    -- An operator starts with punctuation, so the scan gets to look for it.
    have hpos := operatorLength?_pos hoperator
    have hpunctuation : isPunctuation (charAt text st.position) = true := by
      apply (isPunctuation_of_operatorLength? hoperator).2
      obtain ⟨m, rfl⟩ : ∃ m, n = m + 1 := ⟨n - 1, by omega⟩
      exact List.mem_cons_self
    refine ⟨_, _, rfl, ?_⟩
    rw [if_pos hpunctuation, symbolStep, hoperator, Nat.sub_add_cancel hpos]
    exact leads_emit_code .operator (operatorLength?_le hlt hoperator)
  | none =>
    by_cases hpunctuation : isPunctuation (charAt text st.position) = true
    · refine ⟨.punctuation, 0, if_pos hpunctuation, ?_⟩
      rw [if_pos hpunctuation, symbolStep, hoperator]
      exact leads_emit_code .punctuation hlt
    by_cases hblank : isBlank (charAt text st.position) = true
    · refine ⟨.blank, 0, by rw [if_neg hpunctuation, if_pos hblank], ?_⟩
      rw [if_neg hpunctuation, if_pos hblank]
      exact leads_enter_code hlt
    · refine ⟨.word, _, by rw [if_neg hpunctuation, if_neg hblank], ?_⟩
      rw [if_neg hpunctuation, if_neg hblank, Nat.add_comm _ 1, ← Nat.add_assoc]
      exact leads_wordStep st (Nat.le_refl _) hlt

/-- The scan reads the lexeme at the position. -/
theorem Between.leads_headAt {position : Nat} {tokens : List Token}
    (h : Between options text region position tokens st) (hlt : position < length text) :
    Leads options text region st (position + (headAt text position).text.length)
      (tokens ++ ((headAt text position).tokens options).filter (keeps region)) := by
  obtain ⟨shape, n, hext, hleads⟩ :=
    @exists_leads_codeStep _ _ options text region ⟨position, .code, tokens.toArray⟩ hlt
  have hle := hleads.position_le
  rw [length_text_headAt hlt hext hle, filter_tokens_headAt hlt hext hle]
  apply Leads.of_step (h.position_eq ▸ hlt)
  rw [h.step_eq hlt]
  exact hleads

/-! ## The whole text -/

/-- From between two lexemes on, the scan finds the tokens of the lexemes that are left. -/
theorem Between.finish_run {position : Nat} {tokens : List Token} {st : State}
    (h : Between options text region position tokens st) :
    (finish options (length text) region (run text region st)).tokens.toList = tokens ++
      ((lexemesFrom position (suffix text position)).flatMap (·.tokens options)).filter
        (keeps region) := by
  rcases Nat.eq_or_lt_of_le h.position_le with hend | hlt
  · rw [run_of_le (Nat.le_of_eq (by rw [h.position_eq, hend])), h.finish_eq hend,
      suffix_of_length_le (Nat.le_of_eq hend.symm), lexemesFrom_nil]
    exact (List.append_nil _).symm
  · have hpos : 0 < (headAt text position).text.length := Nat.succ_pos _
    obtain ⟨st', hreaches, hbetween⟩ := h.leads_headAt hlt
    rw [run_eq_of_reaches hreaches, hbetween.finish_run, lexemesFrom_suffix hlt,
      List.flatMap_cons, List.filter_append, List.append_assoc]
termination_by length text - position

theorem between_init (options : Options) (text : σ) (region : Span) :
    Between options text region 0 [] {} :=
  @between_code _ _ options text region {} rfl (Nat.zero_le _)

/-- The tokens that a scan finds are those of the lexemes that the region keeps. -/
theorem tokenize_eq_filter_keeps (options : Options) (text : σ) (region : Span) :
    tokenize options text region = (tokensOf options (toList text)).filter (keeps region) := by
  have h := (between_init options text region).finish_run
  rw [List.nil_append] at h
  exact h

/-- No lexeme is empty. -/
theorem text_ne_nil_of_mem_lexemesFrom {offset : Nat} {chars : List Char} {lexeme : Lexeme}
    (h : lexeme ∈ lexemesFrom offset chars) : lexeme.text ≠ [] := by
  fun_induction lexemesFrom offset chars with
  | case1 => cases h
  | case2 offset c rest first ih =>
    rcases List.mem_cons.mp h with rfl | h
    · exact List.cons_ne_nil _ _
    · exact ih h

/-- No token of a lexeme is empty. -/
theorem isEmpty_of_mem_tokens {lexeme : Lexeme} (htext : lexeme.text ≠ []) {t : Token}
    (ht : t ∈ lexeme.tokens options) : t.span.isEmpty = false := by
  have hspan : lexeme.span.isEmpty = false := by
    have hpos := List.length_pos_iff.mpr htext
    rw [Span.isEmpty, decide_eq_false_iff_not, Lexeme.span]
    dsimp only
    omega
  have hpieces : ∀ closed kind, t ∈ (lexeme.pieces options closed).map (Token.mk · kind) →
      t.span.isEmpty = false := by
    intro closed kind h
    obtain ⟨span, hmem, rfl⟩ := List.mem_map.mp h
    simpa using (List.mem_filter.mp hmem).2
  unfold Lexeme.tokens at ht
  split at ht
  case h_1 | h_2 | h_3 | h_4 => cases ht
  case h_6 => exact hpieces _ _ ht
  case h_8 => exact hpieces _ _ ht
  all_goals
    obtain rfl := List.mem_singleton.mp ht
    exact hspan

/-- Empty pieces are left out, and lexemes are not empty. -/
theorem isEmpty_of_mem_tokensOf {chars : List Char} {t : Token}
    (ht : t ∈ tokensOf options chars) : t.span.isEmpty = false := by
  obtain ⟨lexeme, hmem, ht⟩ := List.mem_flatMap.mp ht
  exact isEmpty_of_mem_tokens (text_ne_nil_of_mem_lexemesFrom hmem) ht

/-- Every token of a lexeme lies within the text: the scan for its span keeps it. -/
theorem stop_le_of_mem_tokensOf {t : Token} (ht : t ∈ tokensOf options (toList text)) :
    t.span.stop ≤ length text := by
  have hlt := (Span.isEmpty_eq_false_iff _).mp (isEmpty_of_mem_tokensOf ht)
  have hkeeps : keeps t.span t = true :=
    keeps_iff.mpr ⟨hlt, (Span.intersects_iff_of_lt hlt).mpr ⟨hlt, hlt⟩⟩
  have hmem : t ∈ tokenize options text t.span := by
    rw [tokenize_eq_filter_keeps]
    exact List.mem_filter.mpr ⟨ht, hkeeps⟩
  exact (kept_tokenize options text t.span).stop_le t hmem

/-- The region of the whole text keeps the tokens that have characters. -/
theorem keeps_whole_iff (t : Token) (h : t.span.start < t.span.stop → t.span.start < length text) :
    keeps ⟨0, length text⟩ t = true ↔ t.span.start < t.span.stop := by
  rw [keeps_iff]
  constructor
  · exact And.left
  · intro hlt
    have hstart := h hlt
    have hregion : 0 < length text := Nat.zero_lt_of_lt hstart
    exact ⟨hlt, (Span.intersects_iff_of_lt hregion).mpr ⟨hstart, Nat.zero_lt_of_lt hlt⟩⟩

/-- The whole text meets each of its tokens. -/
theorem keeps_whole {t : Token} (hlt : t.span.start < t.span.stop)
    (hle : t.span.stop ≤ length text) : keeps ⟨0, length text⟩ t = true :=
  (keeps_whole_iff t fun _ => Nat.lt_of_lt_of_le hlt hle).mpr hlt

/-- So a scan for the whole text drops none. -/
theorem filter_keeps_whole (options : Options) (text : σ) :
    (tokensOf options (toList text)).filter (keeps ⟨0, length text⟩) =
      tokensOf options (toList text) := by
  apply List.filter_eq_self.mpr
  intro t ht
  exact keeps_whole ((Span.isEmpty_eq_false_iff _).mp (isEmpty_of_mem_tokensOf ht))
    (stop_le_of_mem_tokensOf ht)

/-- In code, the scan has found the tokens of the lexemes before its position. -/
theorem Reached.tokens_eq_of_tokensOf_eq (options : Options) {before : List Token}
    (h : Reached text ⟨0, length text⟩ st) (hmode : st.mode = .code)
    (htokens : tokensOf options (toList text) = before ++
      (lexemesFrom st.position (suffix text st.position)).flatMap (·.tokens options)) :
    st.tokens.toList = before := by
  have hall := filter_keeps_whole options text
  have hkept : ((lexemesFrom st.position (suffix text st.position)).flatMap
      (·.tokens options)).filter (keeps ⟨0, length text⟩) =
        (lexemesFrom st.position (suffix text st.position)).flatMap (·.tokens options) := by
    rw [htokens] at hall
    rw [List.filter_eq_self] at hall ⊢
    exact fun t ht => hall t (List.mem_append_right _ ht)
  have hbetween : Between options text ⟨0, length text⟩ st.position st.tokens.toList st :=
    between_code hmode h.inv.position_le
  have hfound := hbetween.finish_run
  rw [← run_eq_of_reaches h, ← scan, ← tokenize, tokenize_eq_filter_keeps, hall, htokens,
    hkept] at hfound
  exact (List.append_cancel_right hfound).symm

/-- The tokens of the lexemes are in order, lie within the text and contain no line break. -/
theorem kept_tokensOf (options : Options) (text : σ) :
    Kept text ⟨0, length text⟩ (length text) (tokensOf options (toList text)) := by
  rw [← filter_keeps_whole, ← tokenize_eq_filter_keeps]
  exact kept_tokenize options text ⟨0, length text⟩

/-- No token of a lexeme is empty, so a region keeps those that meet it. -/
theorem filter_keeps_eq (options : Options) (text : σ) (region : Span) :
    (tokensOf options (toList text)).filter (keeps region) =
      (tokensOf options (toList text)).filter (·.span.intersects region) := by
  apply List.filter_congr
  intro t ht
  rw [keeps, isEmpty_of_mem_tokensOf ht]
  rfl

/-- **The scan is the lexer that reads one lexeme at a time**: over a whole text both give the same
tokens, for every text and whether or not tails are asked for. -/
theorem tokenize_whole_eq_tokensOf (options : Options) (text : σ) :
    tokenize options text ⟨0, length text⟩ = tokensOf options (toList text) := by
  rw [tokenize_eq_filter_keeps, filter_keeps_whole]

/-- **A region is a filter**: what is found for a region, be it empty, inverted or past the end, are
those tokens of the whole text that meet it, with their kinds and in their order. -/
theorem tokenize_eq_filter_intersects (options : Options) (text : σ) (region : Span) :
    tokenize options text region =
      (tokenize options text ⟨0, length text⟩).filter (·.span.intersects region) := by
  rw [tokenize_eq_filter_keeps, tokenize_eq_filter_keeps, filter_keeps_whole, filter_keeps_eq]

end OdinSyntax.Scan
