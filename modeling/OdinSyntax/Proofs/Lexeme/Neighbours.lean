import OdinSyntax.Proofs.Lexeme.Spelling

/-!
# Neighbours

Where one lexeme ends and the next one starts. A lexeme ends with a character that is in no word, or
in front of one; otherwise it is a number, and no character of numerals follows (`headAt_ends`). So
two characters of words that stand side by side belong to one lexeme, unless a number ends between
them (`LexemeStart.exists_number`).
-/

namespace OdinSyntax

namespace Lexeme

open Source

/-! ## Last characters -/

section Lists

variable {c quote : Char} {rest : List Char} {n : Nat} {shape : Shape}

theorem isWordPart_of_isBlank {d : Char} (h : isBlank d = true) : isWordPart d = false := by
  rw [isWordPart, h]
  rfl

theorem isWordPart_of_isPunctuation {d : Char} (h : isPunctuation d = true) :
    isWordPart d = false := by
  rw [isWordPart, h, Bool.not_true, Bool.and_false]

theorem lineContent_prefix (rest : List Char) : lineContent rest <+: rest := by
  induction rest with
  | nil => exact List.prefix_rfl
  | cons c rest ih =>
    rw [lineContent]
    split
    · exact List.cons_prefix_cons.mpr ⟨rfl, ih⟩
    · exact List.nil_prefix

/-- Behind the content of a line is its line break or the end of the text. -/
theorem isBlank_headD_drop_lineContent (rest : List Char) :
    isBlank ((rest.drop (lineContent rest).length).headD sentinel) = true := by
  induction rest with
  | nil => exact isBlank_sentinel
  | cons c rest ih =>
    rw [lineContent]
    split
    · exact ih
    · next h =>
      unfold breakLength at h
      split at h
      · next heq =>
        obtain rfl := (List.cons.inj heq).1
        exact isBlank_lineFeed
      · next heq =>
        obtain rfl := (List.cons.inj heq).1
        exact isBlank_carriageReturn
      · exact absurd rfl h

/-- The last character of a closed literal is its quote. -/
theorem quote_suffix_of_closeQuote? (h : closeQuote? quote rest = some n) :
    n ≤ rest.length ∧ [quote] <:+ rest.take n := by
  fun_induction closeQuote? quote rest generalizing n with
  | case1 => cases h
  | case2 c rest ih =>
    obtain ⟨m, hm, rfl⟩ := Option.map_eq_some_iff.mp h
    obtain ⟨hle, hlast⟩ := ih hm
    exact ⟨Nat.add_le_add_right hle 2, hlast.trans (List.suffix_append ['\\', c] _)⟩
  | case3 =>
    cases h
    exact ⟨Nat.succ_pos _, List.suffix_rfl⟩
  | case4 c rest _ _ ih =>
    obtain ⟨m, hm, rfl⟩ := Option.map_eq_some_iff.mp h
    obtain ⟨hle, hlast⟩ := ih hm
    exact ⟨Nat.succ_le_succ hle, hlast.trans (List.suffix_append [c] _)⟩

/-- A literal is closed on its line. -/
theorem quote_suffix_of_lineContent (h : closeQuote? quote (lineContent rest) = some n) :
    [quote] <:+ rest.take n := by
  obtain ⟨hle, hlast⟩ := quote_suffix_of_closeQuote? h
  obtain ⟨behind, hrest⟩ := lineContent_prefix rest
  have htake : (lineContent rest ++ behind).take n = (lineContent rest).take n :=
    List.take_append_of_le_length hle
  rw [hrest] at htake
  rwa [htake]

theorem exists_suffix_singleton {l : List Char} (h : l ≠ []) : ∃ d ∈ l, [d] <:+ l :=
  ⟨l.getLast h, List.getLast_mem h, l.dropLast, List.dropLast_append_getLast h⟩

/-- The characters of a line break are blank. -/
theorem isBlank_of_mem_lineBreak (h : 0 < breakLength (c :: rest)) :
    ∀ d ∈ c :: rest.take (breakLength (c :: rest) - 1), isBlank d = true := by
  revert h
  unfold breakLength
  split
  · next heq =>
    obtain rfl := (List.cons.inj heq).1
    simpa using isBlank_lineFeed
  · next heq =>
    obtain ⟨rfl, rfl⟩ := List.cons.inj heq
    simpa using ⟨isBlank_carriageReturn, isBlank_lineFeed⟩
  · exact fun h => absurd h (Nat.lt_irrefl 0)

/-- A lexeme ends with a character that is in no word, or in front of one, or it is a number in
front of a character that is in no numeral. -/
theorem headExtent_ends (h : headExtent c rest = (shape, n)) :
    (∃ d, isWordPart d = false ∧ [d] <:+ c :: rest.take n) ∨
      isWordPart ((rest.drop n).headD sentinel) = false ∨
      shape = .number ∧ isNumberPart ((rest.drop n).headD sentinel) = false := by
  have hlast : (∀ d ∈ c :: rest.take n, isWordPart d = false) →
      ∃ d, isWordPart d = false ∧ [d] <:+ c :: rest.take n := by
    intro hall
    obtain ⟨d, hd, hsuffix⟩ := exists_suffix_singleton (List.cons_ne_nil c (rest.take n))
    exact ⟨d, hall d hd, hsuffix⟩
  -- Comments and raw strings end with their closer, or with the text.
  by_cases hkind : shape.pieceKind?.isSome
  · rcases headExtent_last hkind h with rfl | ⟨d, hd, hsuffix⟩
    · rw [List.drop_length]
      exact .inr (.inl (by decide))
    · exact .inl ⟨d, isWordPart_of_isPunctuation hd, hsuffix.trans (List.suffix_cons _ _)⟩
  revert h
  fun_cases headExtent c rest with
  | case1 hbreak =>
    rintro ⟨⟩
    exact .inl (hlast fun d hd => isWordPart_of_isBlank (isBlank_of_mem_lineBreak hbreak d hd))
  | case2 | case6 =>
    intro h
    obtain ⟨⟨closed, rfl⟩, -⟩ := exists_of_closedExtent_eq h
    exact absurd rfl hkind
  | case3 next hbreak hopen hclose =>
    rintro ⟨⟩
    cases rest with
    | nil => exact absurd hclose.2 (by decide)
    | cons d rest =>
      obtain rfl : d = '/' := hclose.2
      exact .inl ⟨'/', by decide, [c], rfl⟩
  | case4 =>
    rintro ⟨⟩
    exact .inr (.inl (isWordPart_of_isBlank (isBlank_headD_drop_lineContent rest)))
  | case5 next hbreak hopen hclose hline hquote =>
    intro h
    unfold quotedExtent at h
    split at h
    · next m hm =>
      cases h
      have hpart : isWordPart c = false := by
        rcases hquote with rfl | rfl <;> decide
      exact .inl ⟨c, hpart, (quote_suffix_of_lineContent hm).trans (List.suffix_cons _ _)⟩
    · cases h
      exact .inr (.inl (isWordPart_of_isBlank (isBlank_headD_drop_lineContent rest)))
  | case7 =>
    rintro ⟨⟩
    exact .inr (.inr ⟨rfl, headD_drop_length_takeWhile (by decide) rest⟩)
  | case8 next afterNext hbreak hopen hclose hline hquote hraw hnumber n hoperator =>
    rintro ⟨⟩
    refine .inl (hlast fun d hd => isWordPart_of_isPunctuation ?_)
    rw [cons_take_of_operatorLength? hoperator] at hd
    exact (isPunctuation_of_operatorLength? hoperator).2 d hd
  | case9 next afterNext hbreak hopen hclose hline hquote hraw hnumber _ hpunctuation =>
    rintro ⟨⟩
    exact .inl ⟨c, isWordPart_of_isPunctuation hpunctuation, List.suffix_rfl⟩
  | case10 next afterNext hbreak hopen hclose hline hquote hraw hnumber _ hpunctuation hblank =>
    rintro ⟨⟩
    exact .inl ⟨c, isWordPart_of_isBlank hblank, List.suffix_rfl⟩
  | case11 =>
    rintro ⟨⟩
    exact .inr (.inl (headD_drop_length_takeWhile (by decide) rest))

end Lists

/-! ## Starts of lexemes -/

variable {σ : Type} [Source σ] {text : σ} {offset : Nat}

/-- The lexeme at an offset is spelled as its shape says. -/
theorem headAt_spells (text : σ) (offset : Nat) :
    (headAt text offset).shape.Spells (headAt text offset).text (headAt text offset).rest := by
  cases h : headExtent (charAt text offset) (suffix text (offset + 1)) with
  | mk shape n =>
    rw [headAt, head, h]
    exact headExtent_spells h

/-- The span of a lexeme holds its characters. -/
theorem slice_headAt (hlt : offset < length text) :
    slice text (headAt text offset).span = (headAt text offset).text := by
  have htake := take_suffix text offset (headAt text offset).text.length
  rw [← text_append_rest_headAt hlt, List.take_left] at htake
  exact htake.symm

theorem lt_stop_headAt (text : σ) (offset : Nat) : offset < (headAt text offset).span.stop :=
  Nat.lt_add_of_pos_right (Nat.succ_pos _)

theorem stop_headAt_le (hlt : offset < length text) :
    (headAt text offset).span.stop ≤ length text := by
  have hlength := congrArg List.length (text_append_rest_headAt hlt)
  rw [List.length_append, length_suffix] at hlength
  show offset + (headAt text offset).text.length ≤ length text
  omega

/-- How the lexeme at an offset ends, by the last character and the one behind. -/
theorem headAt_ends (hlt : offset < length text) :
    isWordPart (charAt text ((headAt text offset).span.stop - 1)) = false ∨
      isWordPart (charAt text (headAt text offset).span.stop) = false ∨
      (headAt text offset).shape = .number ∧
        isNumberPart (charAt text (headAt text offset).span.stop) = false := by
  have hends : (∃ d, isWordPart d = false ∧ [d] <:+ (headAt text offset).text) ∨
      isWordPart ((headAt text offset).rest.headD sentinel) = false ∨
      (headAt text offset).shape = .number ∧
        isNumberPart ((headAt text offset).rest.headD sentinel) = false := by
    cases h : headExtent (charAt text offset) (suffix text (offset + 1)) with
    | mk shape n =>
      rw [headAt, head, h]
      exact headExtent_ends h
  rw [rest_headAt hlt, headD_suffix] at hends
  rcases hends with ⟨d, hd, hlast⟩ | hends
  · rw [← slice_headAt hlt] at hlast
    rw [charAt_of_suffix_slice (stop_headAt_le hlt) hlast]
    exact .inl hd
  · exact .inr hends

/-- The offsets at which a lexeme starts or the text ends. -/
inductive LexemeStart (text : σ) : Nat → Prop
  | zero : LexemeStart text 0
  | next {offset : Nat} (h : LexemeStart text offset) (hlt : offset < length text) :
    LexemeStart text (headAt text offset).span.stop

/-- The lexemes from a start on have such starts. -/
theorem LexemeStart.exists_of_mem {offset : Nat} (h : LexemeStart text offset) {lexeme : Lexeme}
    (hmem : lexeme ∈ lexemesFrom offset (suffix text offset)) :
    ∃ start, LexemeStart text start ∧ start < length text ∧ lexeme = headAt text start := by
  by_cases hlt : offset < length text
  · rw [lexemesFrom_suffix hlt] at hmem
    rcases List.mem_cons.mp hmem with rfl | hmem
    · exact ⟨offset, h, hlt, rfl⟩
    · have hnext := lt_stop_headAt text offset
      exact (h.next hlt).exists_of_mem hmem
  · rw [suffix_of_length_le (Nat.le_of_not_lt hlt), lexemesFrom_nil] at hmem
    cases hmem
termination_by length text - offset

/-- The lexemes from such an offset on are the last ones of the text. -/
theorem LexemeStart.exists_eq_append (h : LexemeStart text offset) :
    ∃ before, lexemesFrom 0 (suffix text 0) =
      before ++ lexemesFrom offset (suffix text offset) := by
  induction h with
  | zero => exact ⟨[], rfl⟩
  | @next offset h hlt ih =>
    obtain ⟨before, hbefore⟩ := ih
    refine ⟨before ++ [headAt text offset], ?_⟩
    rw [hbefore, lexemesFrom_suffix hlt, List.append_assoc]
    rfl

/-- At each start but the last is a lexeme of the text. -/
theorem LexemeStart.mem_lexemesFrom (h : LexemeStart text offset) (hlt : offset < length text) :
    headAt text offset ∈ lexemesFrom 0 (suffix text 0) := by
  obtain ⟨before, hbefore⟩ := h.exists_eq_append
  rw [hbefore, lexemesFrom_suffix hlt]
  exact List.mem_append_right _ List.mem_cons_self

/-- Characters of words that stand side by side belong to one lexeme, unless a number ends between
them. -/
theorem LexemeStart.exists_number (h : LexemeStart text offset) (hpos : 0 < offset)
    (hbefore : isWordPart (charAt text (offset - 1)) = true)
    (hbehind : isWordPart (charAt text offset) = true) :
    isNumberPart (charAt text offset) = false ∧ ∃ start, LexemeStart text start ∧
      start < length text ∧ (headAt text start).shape = .number ∧
      (headAt text start).span.stop = offset := by
  cases h with
  | zero => exact absurd hpos (Nat.lt_irrefl 0)
  | @next start h hlt =>
    rcases headAt_ends hlt with hend | hend | ⟨hshape, hend⟩
    · rw [hend] at hbefore
      cases hbefore
    · rw [hend] at hbehind
      cases hbehind
    · exact ⟨hend, start, h, hlt, hshape, rfl⟩

end Lexeme

end OdinSyntax
