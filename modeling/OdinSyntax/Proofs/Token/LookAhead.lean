import OdinSyntax.Proofs.Text.Suffix
import OdinSyntax.Token.Word

/-!
# Looking ahead from a word

The scan classifies a word by reading on from its end, offset by offset. `wordKind_eq_ofWord` says
that this is the classification by the list of characters behind the word: the sentinel that a read
past the end gives is neither a parenthesis nor a colon, so a text that ends early matches nothing.
What is behind a word matters only if no vocabulary holds it (`wordKind_eq_of_inVocabulary`).
-/

namespace OdinSyntax

namespace Source

section Readable

variable {σ : Type} [Readable σ]

/-- What is left of the text after blanks. -/
theorem suffix_skipBlanks (text : σ) (offset : Nat) :
    suffix text (skipBlanks text offset) = (suffix text offset).dropWhile isBlank := by
  fun_induction skipBlanks text offset with
  | case1 offset h ih => rw [ih, suffix_of_lt h.1, List.dropWhile_cons_of_pos h.2]
  | case2 offset h =>
    by_cases hlt : offset < length text
    · rw [suffix_of_lt hlt, List.dropWhile_cons_of_neg]
      exact fun hb => h ⟨hlt, hb⟩
    · rw [suffix_of_length_le (by omega)]
      rfl

/-- The look ahead by offset finds the character at which the blanks of the rest are over. -/
theorem nextNonBlank_eq (text : σ) (offset : Nat) :
    nextNonBlank text offset = ((suffix text offset).dropWhile isBlank).headD sentinel := by
  rw [← suffix_skipBlanks, nextNonBlank]
  by_cases h : skipBlanks text offset < length text
  · rw [if_pos h, suffix_of_lt h]
    rfl
  · rw [if_neg h, suffix_of_length_le (Nat.le_of_not_lt h)]
    rfl

end Readable

variable {σ : Type} [Source σ]

/-- In a source, what a look ahead past the blanks gives is a read like any other. -/
theorem nextNonBlank_eq_charAt (text : σ) (offset : Nat) :
    nextNonBlank text offset = charAt text (skipBlanks text offset) := by
  rw [nextNonBlank_eq, ← suffix_skipBlanks, headD_suffix]

/-- Two characters are spelled at an offset iff the rest starts with them, unless the second one is
the sentinel. -/
theorem matchesAt_pair_iff (text : σ) (offset : Nat) {a b : Char} (hb : b ≠ sentinel) :
    matchesAt text offset [a, b] = true ↔ ∃ rest, suffix text offset = a :: b :: rest := by
  simp only [matchesAt, Bool.and_true, Bool.and_eq_true, beq_iff_eq]
  constructor
  · rintro ⟨rfl, rfl⟩
    have h : offset + 1 < length text := by
      apply Nat.lt_of_not_le
      exact fun hle => hb (charAt_of_length_le hle)
    refine ⟨suffix text (offset + 1 + 1), ?_⟩
    rw [suffix_of_lt (by omega), suffix_of_lt h]
  · rintro ⟨rest, h⟩
    have h₀ := headD_suffix text offset
    have h₁ := headD_suffix text (offset + 1)
    rw [← tail_suffix] at h₁
    rw [h] at h₀ h₁
    exact ⟨h₀.symm, h₁.symm⟩

/-- What follows a word decides the kind of those that are in no vocabulary. -/
private theorem ahead_eq (text : σ) (offset : Nat) :
    (if nextNonBlank text offset = '(' then Kind.reference
      else if matchesAfterBlanks text offset [':', ':'] then Kind.definition
      else Kind.identifier) =
    match (suffix text offset).dropWhile isBlank with
    | '(' :: _ => .reference
    | ':' :: ':' :: _ => .definition
    | _ => .identifier := by
  have pair := matchesAt_pair_iff text (skipBlanks text offset) (a := ':') (b := ':') (by decide)
  rw [suffix_skipBlanks] at pair
  rw [nextNonBlank_eq, matchesAfterBlanks]
  generalize (suffix text offset).dropWhile isBlank = rest at pair ⊢
  split
  · next hparen =>
    cases rest with
    | nil => exact absurd hparen (by decide)
    | cons c rest =>
      obtain rfl : c = '(' := hparen
      rfl
  · next hparen =>
    split
    · next hcolons =>
      obtain ⟨tail, rfl⟩ := pair.mp hcolons
      rfl
    · next hcolons =>
      split
      · exact absurd rfl hparen
      · exact absurd (pair.mpr ⟨_, rfl⟩) hcolons
      · rfl

/-- The kind of a word is the one that its characters and the rest of the text give it. -/
theorem wordKind_eq_ofWord (text : σ) (span : Span) :
    wordKind text span = Kind.ofWord (slice text span) (suffix text span.stop) := by
  have hahead := ahead_eq text span.stop
  unfold wordKind Kind.ofWord
  dsimp only
  -- The vocabularies come first, in the same order.
  split
  · rfl
  split
  · rfl
  split
  · rfl
  exact hahead

/-! ## Vocabularies -/

/-- Whether a vocabulary holds the word at `span`, so that the text behind it does not matter. -/
def inVocabulary (text : σ) (span : Span) : Bool :=
  (builtinProcs ++ keywords ++ builtinTypes).contains (String.ofList (slice text span))

theorem inVocabulary_eq (text : σ) (span : Span) :
    inVocabulary text span =
      (isBuiltinProc (.ofList (slice text span)) || isKeyword (.ofList (slice text span)) ||
        isBuiltinType (.ofList (slice text span))) := by
  rw [inVocabulary, Bool.eq_iff_iff]
  simp [or_assoc]

/-- A word of a vocabulary is classified by its spelling. -/
theorem wordKind_eq_of_inVocabulary {τ : Type} [Source τ] {text : σ} {text' : τ}
    {span span' : Span} (hslice : slice text' span' = slice text span)
    (h : inVocabulary text span = true) : wordKind text' span' = wordKind text span := by
  rw [inVocabulary_eq] at h
  simp only [Bool.or_eq_true] at h
  unfold wordKind
  rw [hslice]
  dsimp only
  rcases h with (h | h) | h
  · rw [if_pos h, if_pos h]
  · rw [if_pos h, if_pos h]
  · rw [if_pos h, if_pos h]

/-- Any other word is classified by what follows it. -/
theorem wordKind_of_not_inVocabulary {text : σ} {span : Span} (h : inVocabulary text span = false) :
    wordKind text span =
      if nextNonBlank text span.stop = '(' then .reference
      else if matchesAfterBlanks text span.stop [':', ':'] then .definition
      else .identifier := by
  rw [inVocabulary_eq] at h
  simp only [Bool.or_eq_false_iff] at h
  obtain ⟨⟨hproc, hkeyword⟩, htype⟩ := h
  unfold wordKind
  dsimp only
  rw [hproc, hkeyword, htype]
  rfl

/-- A word that is in no vocabulary is judged by what is behind it. -/
theorem wordKind_mem {text : σ} {span : Span} (h : inVocabulary text span = false) :
    wordKind text span ∈ [Kind.identifier, .reference, .definition] := by
  rw [wordKind_of_not_inVocabulary h]
  split
  · decide
  · split <;> decide

end Source

end OdinSyntax
