import OdinSyntax.Lexeme.Basic

/-!
# Classes of characters

How the classes of characters relate. The scan needs two facts of them. No character of a word, a
numeral or an operator is blank, so none of these contains a line break or reaches past the end of
the text. And each operator is made of punctuation characters, so it does not matter whether a
lexer asks first for operators or first for punctuation.
-/

namespace OdinSyntax

/-- To a lexer, a blank follows the text. -/
theorem isBlank_sentinel : isBlank sentinel = true := isBlank_space

theorem isBlank_slash : isBlank '/' = false := by decide

theorem isBlank_star : isBlank '*' = false := by decide

/-- A character whose code point lies in no range of blanks is not blank. -/
private theorem isBlank_eq_false {c : Char}
    (h : ∀ range ∈ blankRanges, ¬ (range.1 ≤ c.toNat ∧ c.toNat ≤ range.2)) : isBlank c = false := by
  rw [isBlank, List.any_eq_false]
  intro range hr
  simpa using h range hr

private theorem inRange_iff (low high c : Char) :
    inRange low high c = true ↔ low.toNat ≤ c.toNat ∧ c.toNat ≤ high.toNat := by
  simp [inRange]

/-- Within ASCII, only the six control characters from the tabulator on and the space are blank. -/
private theorem isBlank_eq_false_of_ascii {c : Char} (h : 32 < c.toNat) (h' : c.toNat < 127) :
    isBlank c = false := by
  apply isBlank_eq_false
  intro range hr
  simp only [blankRanges, List.mem_cons, List.not_mem_nil, or_false] at hr
  rcases hr with rfl | rfl | rfl | rfl | rfl | rfl | rfl | rfl | rfl | rfl
  all_goals
    dsimp only
    omega

theorem isBlank_of_isPunctuation {c : Char} (h : isPunctuation c = true) : isBlank c = false := by
  simp only [isPunctuation, Bool.or_eq_true, inRange_iff, beq_iff_eq, Char.reduceToNat] at h
  rcases h with (((h | h) | h) | rfl) | h
  -- One character stands by itself, and the ranges lie between the space and the end of ASCII.
  case inl.inr => decide
  all_goals
    apply isBlank_eq_false_of_ascii
    · omega
    · omega

theorem isBlank_of_isNumberPart {c : Char} (h : isNumberPart c = true) : isBlank c = false := by
  simp only [isNumberPart, isDigit, Bool.or_eq_true, inRange_iff, beq_iff_eq,
    Char.reduceToNat] at h
  rcases h with (((((h | h) | h) | rfl) | rfl) | rfl) | rfl
  case inl.inl.inl.inl.inl.inl | inl.inl.inl.inl.inl.inr | inl.inl.inl.inl.inr =>
    apply isBlank_eq_false_of_ascii
    · omega
    · omega
  all_goals decide

/-- A numeral has all its characters in the class, the first one included. -/
theorem isNumberPart_of_isNumberStart {c next : Char} (h : isNumberStart c next = true) :
    isNumberPart c = true := by
  simp only [isNumberStart, Bool.or_eq_true, Bool.and_eq_true, beq_iff_eq] at h
  rcases h with h | ⟨rfl, -⟩
  · simp [isNumberPart, h]
  · decide

theorem isWordPart_iff (c : Char) :
    Lexeme.isWordPart c = true ↔ isBlank c = false ∧ isPunctuation c = false := by
  simp [Lexeme.isWordPart]

/-- Digits are characters of words. -/
theorem isWordPart_of_isDigit {c : Char} (h : isDigit c = true) : Lexeme.isWordPart c = true := by
  have hblank : isBlank c = false := isBlank_of_isNumberPart (by simp [isNumberPart, h])
  refine (isWordPart_iff c).mpr ⟨hblank, eq_false_of_ne_true fun hpunctuation => ?_⟩
  simp only [isDigit, inRange_iff, Char.reduceToNat] at h
  simp only [isPunctuation, Bool.or_eq_true, inRange_iff, beq_iff_eq, Char.reduceToNat]
    at hpunctuation
  rcases hpunctuation with (((h' | h') | h') | rfl) | h'
  case inl.inr => exact absurd h (by decide)
  all_goals omega

/-! ## Operators -/

/-- A character that is an operator by itself is punctuation. -/
private theorem isPunctuation_of_isSingleOperator {c : Char} (h : isSingleOperator c = true) :
    isPunctuation c = true := by
  simp only [isSingleOperator, Bool.or_eq_true, inRange_iff, beq_iff_eq, Char.reduceToNat] at h
  rcases h with (((((h | rfl) | rfl) | h) | rfl) | rfl) | rfl
  case inl.inl.inl.inl.inl.inl | inl.inl.inl.inr =>
    simp only [isPunctuation, Bool.or_eq_true, inRange_iff, Char.reduceToNat]
    omega
  all_goals decide

/-- The characters that an operator takes are punctuation. -/
theorem isPunctuation_of_operatorLength? {c₀ c₁ c₂ : Char} {n : Nat}
    (h : operatorLength? c₀ c₁ c₂ = some n) :
    n ≤ 3 ∧ ∀ c ∈ [c₀, c₁, c₂].take n, isPunctuation c = true := by
  have htriple : tripleOperators.all (·.all isPunctuation) = true := rfl
  have hdouble : doubleOperators.all (·.all isPunctuation) = true := rfl
  have within : ∀ {ops : List (List Char)} {op}, ops.all (·.all isPunctuation) = true →
      ops.contains op = true → ∀ c ∈ op, isPunctuation c = true :=
    fun hall hop => List.all_eq_true.mp (List.all_eq_true.mp hall _ (List.contains_iff_mem.mp hop))
  revert h
  fun_cases operatorLength? c₀ c₁ c₂ with
  | case1 h =>
    rintro ⟨⟩
    exact ⟨by omega, within htriple h⟩
  | case2 _ h =>
    rintro ⟨⟩
    exact ⟨by omega, within hdouble h⟩
  | case3 _ _ h =>
    rintro ⟨⟩
    refine ⟨by omega, ?_⟩
    simpa using isPunctuation_of_isSingleOperator h
  | case4 => rintro ⟨⟩

/-! ## Characters that look ahead alike -/

/-- Whether two characters are alike to a lexer that looks ahead to them: they are the same, or both
are blank. -/
def Alike (c c' : Char) : Prop :=
  c' = c ∨ isBlank c = true ∧ isBlank c' = true

/-- Both are a given character that is not blank, or neither is. -/
theorem Alike.eq_iff {c c' d : Char} (h : Alike c c') (hd : isBlank d = false) :
    c' = d ↔ c = d := by
  rcases h with rfl | ⟨hc, hc'⟩
  · exact Iff.rfl
  · constructor
    · rintro rfl
      rw [hd] at hc'
      cases hc'
    · rintro rfl
      rw [hd] at hc
      cases hc

/-- A class of characters that are not blank holds both or none. -/
theorem Alike.class_eq {c c' : Char} (h : Alike c c') {p : Char → Bool}
    (hp : ∀ d, p d = true → isBlank d = false) : p c' = p c := by
  rcases h with rfl | ⟨hc, hc'⟩
  · rfl
  · have hnone : ∀ d, isBlank d = true → p d = false := by
      intro d hd
      rw [← Bool.not_eq_true]
      intro hpd
      rw [hp d hpd] at hd
      cases hd
    rw [hnone c hc, hnone c' hc']

/-- Both belong to words, or neither does. -/
theorem Alike.isWordPart_eq {c c' : Char} (h : Alike c c') :
    Lexeme.isWordPart c' = Lexeme.isWordPart c :=
  h.class_eq fun d hd => ((isWordPart_iff d).mp hd).1

/-- A point starts a numeral in front of a digit, and no digit is blank. -/
theorem isNumberStart_eq_of_alike (c : Char) {next next' : Char} (h : Alike next next') :
    isNumberStart c next' = isNumberStart c next := by
  have hdigit : isDigit next' = isDigit next :=
    h.class_eq fun d hd => isBlank_of_isNumberPart (by simp [isNumberPart, hd])
  rw [isNumberStart, isNumberStart, hdigit]

/-- No operator holds a blank. -/
theorem contains_eq_false_of_isBlank {ops : List (List Char)} {op : List Char} {c : Char}
    (hops : ops.all (·.all isPunctuation) = true) (hmem : c ∈ op) (hc : isBlank c = true) :
    ops.contains op = false := by
  rw [← Bool.not_eq_true]
  intro hop
  have hall := List.all_eq_true.mp hops op (List.contains_iff_mem.mp hop)
  rw [isBlank_of_isPunctuation (List.all_eq_true.mp hall c hmem)] at hc
  cases hc

/-- An operator is found from what it holds: behind a blank nothing matters. -/
theorem operatorLength?_eq_of_alike (c₀ : Char) {c₁ c₁' c₂ c₂' : Char} (h₁ : Alike c₁ c₁')
    (h₂ : isBlank c₁ = false → Alike c₂ c₂') :
    operatorLength? c₀ c₁' c₂' = operatorLength? c₀ c₁ c₂ := by
  have htriple : tripleOperators.all (·.all isPunctuation) = true := rfl
  have hdouble : doubleOperators.all (·.all isPunctuation) = true := rfl
  have hthree : tripleOperators.contains [c₀, c₁', c₂'] =
      tripleOperators.contains [c₀, c₁, c₂] := by
    have hnone : ∀ {d e : Char}, isBlank d = true ∨ isBlank e = true →
        tripleOperators.contains [c₀, d, e] = false := by
      rintro d e (h | h)
      · exact contains_eq_false_of_isBlank htriple (by simp) h
      · exact contains_eq_false_of_isBlank htriple (by simp) h
    -- A blank in second or third place rules out the table, whatever stands in the other place.
    rcases h₁ with rfl | ⟨hc, hc'⟩
    · cases hblank : isBlank c₁' with
      | true => rw [hnone (.inl hblank), hnone (.inl hblank)]
      | false =>
        rcases h₂ hblank with rfl | ⟨hd, hd'⟩
        · rfl
        · rw [hnone (.inr hd), hnone (.inr hd')]
    · rw [hnone (.inl hc), hnone (.inl hc')]
  have htwo : doubleOperators.contains [c₀, c₁'] = doubleOperators.contains [c₀, c₁] := by
    have hnone : ∀ {d : Char}, isBlank d = true → doubleOperators.contains [c₀, d] = false :=
      fun h => contains_eq_false_of_isBlank hdouble (by simp) h
    rcases h₁ with rfl | ⟨hc, hc'⟩
    · rfl
    · rw [hnone hc, hnone hc']
  rw [operatorLength?, operatorLength?, hthree, htwo]

end OdinSyntax
