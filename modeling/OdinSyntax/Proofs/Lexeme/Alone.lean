import Mathlib.Data.List.TakeWhile
import OdinSyntax.Proofs.Lexeme.Neighbours

/-!
# Lexemes on their own

A lexeme is found again when its characters stand alone (`headExtent_take`). The lexer does look
behind the end of a lexeme, but only to see that nothing more belongs to it, and at the end of a
text nothing does: the sentinel is in no delimiter, operator, number or word.

A search for a closer looks at no character behind the one that it finds, so cutting the text off
there changes nothing (`closeBlock?_take`, `closeQuote?_take`, `closeRaw?_take`).
-/

namespace OdinSyntax.Lexeme

variable {c quote : Char} {rest : List Char} {n : Nat} {shape : Shape}

/-! ## Texts that are cut off -/

theorem tail_take_succ (rest : List Char) (n : Nat) :
    (rest.take (n + 1)).tail = rest.tail.take n := by
  cases rest with
  | nil => exact List.take_nil.symm
  | cons => rfl

/-- What is seen in a text that is cut off, but for the sentinel, is seen in the whole one. -/
theorem headD_of_headD_take {d : Char} (hd : d ≠ sentinel)
    (h : (rest.take n).headD sentinel = d) : rest.headD sentinel = d := by
  cases rest with
  | nil =>
    rw [List.take_nil] at h
    exact h
  | cons e rest =>
    cases n with
    | zero => exact absurd h.symm hd
    | succ n => exact h

/-- A text that is cut off starts with no pair of characters that the whole one does not start with.
-/
theorem not_pair_take {a b : Char} (hb : b ≠ sentinel) (h : ¬ (c = a ∧ rest.headD sentinel = b)) :
    ¬ (c = a ∧ (rest.take n).headD sentinel = b) :=
  mt (And.imp_right (headD_of_headD_take hb)) h

theorem breakLength_eq_zero_iff (c : Char) (rest : List Char) :
    breakLength (c :: rest) = 0 ↔ c ≠ '\n' ∧ ¬ (c = '\r' ∧ rest.headD sentinel = '\n') := by
  unfold breakLength
  split
  · next heq =>
    obtain rfl := (List.cons.inj heq).1
    simp
  · next heq =>
    obtain ⟨rfl, rfl⟩ := List.cons.inj heq
    simp
  · next hline hpair =>
    refine iff_of_true rfl ⟨?_, ?_⟩
    · rintro rfl
      exact hline rest rfl
    · rintro ⟨rfl, hnext⟩
      cases rest with
      | nil => exact absurd hnext (by decide)
      | cons d rest =>
        obtain rfl : d = '\n' := hnext
        exact hpair rest rfl

/-- To cut a text off makes no line break. -/
theorem breakLength_cons_take (h : breakLength (c :: rest) = 0) (n : Nat) :
    breakLength (c :: rest.take n) = 0 := by
  rw [breakLength_eq_zero_iff] at h ⊢
  exact ⟨h.1, not_pair_take (by decide) h.2⟩

theorem not_break_take (h : ¬ 0 < breakLength (c :: rest)) (n : Nat) :
    ¬ 0 < breakLength (c :: rest.take n) := by
  rw [breakLength_cons_take (Nat.eq_zero_of_not_pos h)]
  exact Nat.lt_irrefl 0

/-- A part of the first line has no line break. -/
theorem lineContent_take (h : n ≤ (lineContent rest).length) :
    lineContent (rest.take n) = rest.take n := by
  induction rest generalizing n with
  | nil =>
    rw [List.take_nil]
    rfl
  | cons c rest ih =>
    cases n with
    | zero => rfl
    | succ n =>
      rw [lineContent] at h
      split at h
      · next hbreak =>
        rw [List.take_succ_cons, lineContent, if_pos (breakLength_cons_take hbreak n),
          ih (Nat.le_of_succ_le_succ h)]
      · exact absurd h (Nat.not_succ_le_zero n)

theorem take_length_lineContent (rest : List Char) :
    rest.take (lineContent rest).length = lineContent rest :=
  (List.prefix_iff_eq_take.mp <| lineContent_prefix rest).symm

/-! ## Searches for a closer -/

/-- The closer of a block comment is found where the text ends with it. -/
theorem closeBlock?_take {depth : Nat} {text : List Char} (h : closeBlock? depth text = some n) :
    closeBlock? depth (text.take n) = some n := by
  fun_induction closeBlock? depth text generalizing n with
  | case1 =>
    cases h
    rw [closeBlock?]
  | case2 => cases h
  | case3 depth rest ih =>
    obtain ⟨m, hm, rfl⟩ := Option.map_eq_some_iff.mp h
    rw [List.take_succ_cons, List.take_succ_cons, closeBlock?, ih hm]
    rfl
  | case4 depth rest ih =>
    obtain ⟨m, hm, rfl⟩ := Option.map_eq_some_iff.mp h
    rw [List.take_succ_cons, List.take_succ_cons, closeBlock?, ih hm]
    rfl
  | case5 depth c rest hopen hclose ih =>
    obtain ⟨m, hm, rfl⟩ := Option.map_eq_some_iff.mp h
    -- A delimiter in the text that is cut off would be one in the text.
    have hcut : ∀ {d tail}, rest.take m = d :: tail → ∃ tail, rest = d :: tail := by
      intro d tail htake
      obtain ⟨behind, hparts⟩ := List.take_prefix m rest
      exact ⟨tail ++ behind, by rw [← hparts, htake, List.cons_append]⟩
    rw [List.take_succ_cons, closeBlock?, ih hm]
    · rfl
    · intro tail hc htake
      obtain ⟨tail, htail⟩ := hcut htake
      exact hopen tail hc htail
    · intro tail hc htake
      obtain ⟨tail, htail⟩ := hcut htake
      exact hclose tail hc htail

theorem closeQuote?_take {text : List Char} (h : closeQuote? quote text = some n) :
    closeQuote? quote (text.take n) = some n := by
  fun_induction closeQuote? quote text generalizing n with
  | case1 => cases h
  | case2 c rest ih =>
    obtain ⟨m, hm, rfl⟩ := Option.map_eq_some_iff.mp h
    rw [List.take_succ_cons, List.take_succ_cons, closeQuote?, ih hm]
    rfl
  | case3 rest hescape =>
    cases h
    rw [List.take_succ_cons, List.take_zero, closeQuote?, if_pos rfl]
    rintro d tail - ⟨⟩
  | case4 c rest hescape hc ih =>
    obtain ⟨m, hm, rfl⟩ := Option.map_eq_some_iff.mp h
    rw [List.take_succ_cons, closeQuote?, if_neg hc, ih hm]
    · rfl
    · intro d tail hslash htake
      obtain ⟨behind, hparts⟩ := List.take_prefix m rest
      rw [htake, List.cons_append] at hparts
      exact hescape d _ hslash hparts.symm

theorem closeRaw?_take {text : List Char} (h : closeRaw? text = some n) :
    closeRaw? (text.take n) = some n := by
  obtain ⟨i, hi, rfl⟩ := Option.map_eq_some_iff.mp h
  rw [closeRaw?, List.findIdx?_take, hi, Option.bind_some, Option.guard,
    if_pos (decide_eq_true (Nat.lt_succ_self i))]
  rfl

/-- A construct whose closer is found again is the same construct. -/
theorem closedExtent_of_some {found : Bool → Shape} {rest' : List Char}
    {close? close?' : Option Nat} (h : closedExtent found rest close? = (shape, n))
    (hne : n ≠ rest.length) (hclose : close? = some n → close?' = some n) :
    closedExtent found rest' close?' = (shape, n) := by
  rcases (exists_of_closedExtent_eq h).2 with hn | hn
  · rw [hclose hn]
    rw [hn] at h
    exact h
  · exact absurd hn hne

/-- A literal is read alike when it stands alone. -/
theorem quotedExtent_take (h : quotedExtent quote rest = (shape, n)) :
    quotedExtent quote (rest.take n) = (shape, n) := by
  unfold quotedExtent at h
  split at h
  · next m hm =>
    cases h
    have hle := (quote_suffix_of_closeQuote? hm).1
    have hcut : (lineContent rest).take n = rest.take n := by
      rw [← take_length_lineContent rest, List.take_take, Nat.min_eq_left hle]
    rw [quotedExtent, lineContent_take hle, ← hcut, closeQuote?_take hm]
  · next hnone =>
    cases h
    have hcontent := @lineContent_take rest _ (Nat.le_refl _)
    rw [take_length_lineContent] at hcontent ⊢
    rw [quotedExtent, hcontent, hnone]

/-! ## Operators -/

/-- No operator holds the sentinel. -/
theorem operatorLength?_of_sentinel (c : Char) :
    operatorLength? c sentinel sentinel = if isSingleOperator c then some 1 else none := by
  have htriple : tripleOperators.contains [c, sentinel, sentinel] = false :=
    contains_eq_false_of_isBlank rfl (List.mem_cons_of_mem _ List.mem_cons_self) isBlank_sentinel
  have hdouble : doubleOperators.contains [c, sentinel] = false :=
    contains_eq_false_of_isBlank rfl (List.mem_cons_of_mem _ List.mem_cons_self) isBlank_sentinel
  rw [operatorLength?, htriple, hdouble]
  rfl

/-- An operator is as long when nothing follows it. -/
theorem operatorLength?_take
    (h : operatorLength? c (rest.headD sentinel) (rest.tail.headD sentinel) = some n) :
    operatorLength? c ((rest.take (n - 1)).headD sentinel)
      ((rest.take (n - 1)).tail.headD sentinel) = some n := by
  have htake := cons_take_of_operatorLength? h
  revert h
  fun_cases operatorLength? c (rest.headD sentinel) (rest.tail.headD sentinel) with
  | case1 hthree =>
    rintro ⟨⟩
    rw [(List.cons.inj htake).2]
    exact if_pos hthree
  | case2 hthree htwo =>
    rintro ⟨⟩
    -- The table of three comes first, and its third character is the sentinel now.
    have hcut : tripleOperators.contains [c, rest.headD sentinel, sentinel] = false :=
      contains_eq_false_of_isBlank rfl (by simp) isBlank_sentinel
    rw [(List.cons.inj htake).2]
    show operatorLength? c (rest.headD sentinel) sentinel = some 2
    rw [operatorLength?, hcut, htwo]
    rfl
  | case3 hthree htwo hone =>
    rintro ⟨⟩
    rw [Nat.sub_self, List.take_zero]
    show operatorLength? c sentinel sentinel = some 1
    rw [operatorLength?_of_sentinel, if_pos hone]
  | case4 => rintro ⟨⟩

/-- An operator starts with punctuation. -/
theorem operatorLength?_of_not_isPunctuation (hc : ¬ isPunctuation c = true) (c₁ c₂ : Char) :
    operatorLength? c c₁ c₂ = none := by
  cases h : operatorLength? c c₁ c₂ with
  | none => rfl
  | some n =>
    obtain ⟨m, rfl⟩ := Nat.exists_eq_succ_of_ne_zero (Nat.ne_of_gt (operatorLength?_pos h))
    exact absurd ((isPunctuation_of_operatorLength? h).2 c List.mem_cons_self) hc

/-! ## Numbers, symbols, blanks and words -/

/-- What `c` starts is no line break, and it opens or closes nothing. -/
structure Undelimited (c : Char) (rest : List Char) : Prop where
  no_break : ¬ 0 < breakLength (c :: rest)
  no_open : ¬ (c = '/' ∧ rest.headD sentinel = '*')
  no_close : ¬ (c = '*' ∧ rest.headD sentinel = '/')
  no_line : ¬ (c = '/' ∧ rest.headD sentinel = '/')
  no_quote : ¬ (c = '"' ∨ c = '\'')
  no_raw : c ≠ '\x60'

/-- A delimiter does not come about by cutting off the text. -/
theorem Undelimited.take (h : Undelimited c rest) (n : Nat) : Undelimited c (rest.take n) where
  no_break := not_break_take h.no_break n
  no_open := not_pair_take (by decide) h.no_open
  no_close := not_pair_take (by decide) h.no_close
  no_line := not_pair_take (by decide) h.no_line
  no_quote := h.no_quote
  no_raw := h.no_raw

/-- What starts without a delimiter is a number, an operator, punctuation, a blank or a word. -/
theorem Undelimited.headExtent_eq (h : Undelimited c rest) :
    headExtent c rest =
      if isNumberStart c (rest.headD sentinel) then (.number, (rest.takeWhile isNumberPart).length)
      else match operatorLength? c (rest.headD sentinel) (rest.tail.headD sentinel) with
        | some n => (.operator, n - 1)
        | none =>
          if isPunctuation c then (.punctuation, 0)
          else if isBlank c then (.blank, 0)
          else (.word, (rest.takeWhile isWordPart).length) := by
  rw [headExtent]
  exact (if_neg h.no_break).trans <| (if_neg h.no_open).trans <| (if_neg h.no_close).trans <|
    (if_neg h.no_line).trans <| (if_neg h.no_quote).trans <| if_neg h.no_raw

/-- A number starts with its own characters. -/
theorem isNumberStart_takeWhile (h : isNumberStart c (rest.headD sentinel) = true) :
    isNumberStart c ((rest.takeWhile isNumberPart).headD sentinel) = true := by
  rw [isNumberStart, Bool.or_eq_true, Bool.and_eq_true] at h ⊢
  rcases h with hdigit | ⟨hc, hdigit⟩
  · exact .inl hdigit
  · refine .inr ⟨hc, ?_⟩
    cases rest with
    | nil => exact hdigit
    | cons d rest =>
      have hpart : isNumberPart d = true := by
        simp [isNumberPart, show isDigit d = true from hdigit]
      rw [List.takeWhile_cons_of_pos hpart]
      exact hdigit

/-- A point that starts no number does not start one where the text is cut off. -/
theorem not_isNumberStart_take (h : ¬ isNumberStart c (rest.headD sentinel) = true) (n : Nat) :
    ¬ isNumberStart c ((rest.take n).headD sentinel) = true := by
  rw [isNumberStart, Bool.or_eq_true, Bool.and_eq_true] at h ⊢
  refine mt (Or.imp_right (And.imp_right fun hdigit => ?_)) h
  have hne : (rest.take n).headD sentinel ≠ sentinel := by
    intro heq
    rw [heq] at hdigit
    exact absurd hdigit (by decide)
  rw [headD_of_headD_take hne rfl]
  exact hdigit

/-- A number, an operator, a word or a single character is read alike when it stands alone. -/
theorem Undelimited.headExtent_take (h : Undelimited c rest)
    (hext : headExtent c rest = (shape, n)) : headExtent c (rest.take n) = (shape, n) := by
  rw [h.headExtent_eq] at hext
  rw [(h.take n).headExtent_eq]
  by_cases hnumber : isNumberStart c (rest.headD sentinel) = true
  · rw [if_pos hnumber] at hext
    cases hext
    rw [take_length_takeWhile, if_pos (isNumberStart_takeWhile hnumber), List.takeWhile_idem]
  rw [if_neg hnumber] at hext
  rw [if_neg (not_isNumberStart_take hnumber n)]
  cases hoperator : operatorLength? c (rest.headD sentinel) (rest.tail.headD sentinel) with
  | some length =>
    rw [hoperator] at hext
    cases hext
    rw [operatorLength?_take hoperator]
  | none =>
    rw [hoperator] at hext
    by_cases hpunctuation : isPunctuation c = true
    -- A longer operator is ruled out by the sentinels, and `c` by itself is none.
    · have hnone : operatorLength? c sentinel sentinel = none := by
        rw [operatorLength?_of_sentinel, (not_prefix_of_operatorLength? hoperator).1]
        rfl
      cases hext.symm.trans (if_pos hpunctuation)
      rw [List.take_zero, List.tail_nil, List.headD_nil, hnone]
      exact if_pos hpunctuation
    rw [operatorLength?_of_not_isPunctuation hpunctuation]
    refine (if_neg hpunctuation).trans ?_
    replace hext := hext.symm.trans (if_neg hpunctuation)
    by_cases hblank : isBlank c = true
    · cases hext.trans (if_pos hblank)
      exact if_pos hblank
    · cases hext.trans (if_neg hblank)
      rw [if_neg hblank, take_length_takeWhile, List.takeWhile_idem]

/-! ## The first lexeme -/

/-- Cut off behind its line break, a text still starts with that line break. -/
theorem breakLength_cons_take_of_pos (h : 0 < breakLength (c :: rest)) :
    breakLength (c :: rest.take (breakLength (c :: rest) - 1)) = breakLength (c :: rest) := by
  revert h
  unfold breakLength
  split
  · next heq =>
    obtain rfl := (List.cons.inj heq).1
    intro _
    rfl
  · next heq =>
    obtain ⟨rfl, rfl⟩ := List.cons.inj heq
    intro _
    rfl
  · exact fun h => absurd h (Nat.lt_irrefl 0)

/-- **A lexeme alone is itself**: in a text that ends with its first lexeme, the lexer finds that
lexeme again, with the same shape. -/
theorem headExtent_take (h : headExtent c rest = (shape, n)) :
    headExtent c (rest.take n) = (shape, n) := by
  by_cases hend : n = rest.length
  · rwa [hend, List.take_length, ← hend]
  by_cases hplain : Undelimited c rest
  · exact hplain.headExtent_take h
  -- The second character of a delimiter belongs to the lexeme, so it is not cut off.
  have htake : 0 < n → (rest.take n).headD sentinel = rest.headD sentinel := by
    intro hpos
    obtain ⟨m, rfl⟩ := Nat.exists_eq_succ_of_ne_zero (Nat.ne_of_gt hpos)
    cases rest <;> rfl
  revert h
  fun_cases headExtent c rest with
  | case1 hbreak =>
    rintro ⟨⟩
    rw [headExtent, breakLength_cons_take_of_pos hbreak]
    exact if_pos hbreak
  | case2 next hbreak hopen =>
    intro h
    -- An open comment would reach to the end of the text.
    have hclose := (exists_of_closedExtent_eq h).2.resolve_right hend
    obtain ⟨m, hm, rfl⟩ := Option.map_eq_some_iff.mp hclose
    rw [headExtent, if_neg (not_break_take hbreak _),
      if_pos ⟨hopen.1, (htake m.succ_pos).trans hopen.2⟩]
    refine closedExtent_of_some h hend fun _ => ?_
    rw [tail_take_succ, closeBlock?_take hm]
    rfl
  | case3 next hbreak hopen hclose =>
    rintro ⟨⟩
    rw [headExtent, if_neg (not_break_take hbreak _), if_neg (not_pair_take (by decide) hopen),
      if_pos ⟨hclose.1, (htake Nat.one_pos).trans hclose.2⟩]
  | case4 next hbreak hopen hclose hline =>
    rintro ⟨⟩
    have hpos : 0 < (lineContent rest).length := by
      cases rest with
      | nil => exact absurd hline.2 (by decide)
      | cons d rest =>
        obtain rfl : d = '/' := hline.2
        exact Nat.succ_pos _
    rw [headExtent, if_neg (not_break_take hbreak _), if_neg (not_pair_take (by decide) hopen),
      if_neg (not_pair_take (by decide) hclose), if_pos ⟨hline.1, (htake hpos).trans hline.2⟩,
      lineContent_take (Nat.le_refl _), take_length_lineContent]
  | case5 next hbreak hopen hclose hline hquote =>
    intro h
    rw [headExtent, if_neg (not_break_take hbreak _), if_neg (not_pair_take (by decide) hopen),
      if_neg (not_pair_take (by decide) hclose), if_neg (not_pair_take (by decide) hline),
      if_pos hquote]
    exact quotedExtent_take h
  | case6 next hbreak hopen hclose hline hquote hraw =>
    intro h
    rw [headExtent, if_neg (not_break_take hbreak _), if_neg (not_pair_take (by decide) hopen),
      if_neg (not_pair_take (by decide) hclose), if_neg (not_pair_take (by decide) hline),
      if_neg hquote, if_pos hraw]
    exact closedExtent_of_some h hend closeRaw?_take
  | _ => exact absurd ⟨‹_›, ‹_›, ‹_›, ‹_›, ‹_›, ‹_›⟩ hplain

/-- The lexeme without what surrounds it. -/
def alone (lexeme : Lexeme) : Lexeme :=
  { lexeme with offset := 0, rest := [] }

/-- The characters of a lexeme make up that one lexeme. -/
theorem lexemesFrom_text_head (offset : Nat) (c : Char) (rest : List Char) :
    lexemesFrom 0 (head offset c rest).text = [(head offset c rest).alone] := by
  cases h : headExtent c rest with
  | mk shape n =>
    have hhead : head offset c rest = ⟨shape, offset, c :: rest.take n, rest.drop n⟩ := by
      rw [head, h]
    have hagain : head 0 c (rest.take n) = ⟨shape, 0, c :: rest.take n, []⟩ := by
      rw [head, headExtent_take h]
      dsimp only
      rw [List.take_take, Nat.min_self, List.drop_take, Nat.sub_self, List.take_zero]
    rw [hhead, lexemesFrom_cons, hagain, lexemesFrom_nil]
    rfl

end OdinSyntax.Lexeme
