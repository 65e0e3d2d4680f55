import OdinSyntax.Proofs.Lexicon.Characters

/-!
# The rest of a source

The scan reads a source by offset, and the lexemes are read off a list of characters. `suffix` is
the list that a scan at some offset has before it. The lemmas below turn what is read of that list,
its head, its tail and the line break it starts with, into reads by offset and back.
-/

namespace OdinSyntax

namespace Source

variable {σ : Type} [Readable σ]

/-- The characters of the source from `offset` on. -/
def suffix (text : σ) (offset : Nat) : List Char :=
  slice text ⟨offset, length text⟩

theorem suffix_eq_map (text : σ) (offset : Nat) :
    suffix text offset = (List.range' offset (length text - offset)).map (charAt text) := by
  rw [suffix, slice, Nat.min_self]

@[simp] theorem length_suffix (text : σ) (offset : Nat) :
    (suffix text offset).length = length text - offset := by
  rw [suffix_eq_map, List.length_map, List.length_range']

theorem suffix_of_length_le {text : σ} {offset : Nat} (h : length text ≤ offset) :
    suffix text offset = [] := by
  rw [suffix_eq_map, Nat.sub_eq_zero_of_le h]
  rfl

/-- Before the end, the character at the offset is left, and what is behind it. -/
theorem suffix_of_lt {text : σ} {offset : Nat} (h : offset < length text) :
    suffix text offset = charAt text offset :: suffix text (offset + 1) := by
  obtain ⟨n, hn⟩ : ∃ n, length text - offset = n + 1 := ⟨length text - offset - 1, by omega⟩
  rw [suffix_eq_map, suffix_eq_map, hn, show length text - (offset + 1) = n by omega,
    List.range'_succ, List.map_cons]

/-- A read by offset is a read of the rest, the sentinel included. -/
@[simp] theorem headD_suffix {σ : Type} [Source σ] (text : σ) (offset : Nat) :
    (suffix text offset).headD sentinel = charAt text offset := by
  by_cases h : offset < length text
  · rw [suffix_of_lt h]
    rfl
  · rw [suffix_of_length_le (by omega), charAt_of_length_le (by omega)]
    rfl

/-- The first character is dropped by going on to the next offset, at the end too. -/
@[simp] theorem tail_suffix (text : σ) (offset : Nat) :
    (suffix text offset).tail = suffix text (offset + 1) := by
  by_cases h : offset < length text
  · rw [suffix_of_lt h]
    rfl
  · rw [suffix_of_length_le (by omega), suffix_of_length_le (by omega)]
    rfl

@[simp] theorem drop_suffix (text : σ) (offset n : Nat) :
    (suffix text offset).drop n = suffix text (offset + n) := by
  rw [suffix_eq_map, suffix_eq_map, ← List.map_drop, List.drop_range', Nat.mul_one]
  congr 2
  omega

/-- What comes first of the rest, as far as the text goes. -/
theorem take_suffix (text : σ) (offset n : Nat) :
    (suffix text offset).take n = slice text ⟨offset, offset + n⟩ := by
  rw [suffix_eq_map, ← List.map_take, slice]
  congr 1
  rcases Nat.le_total n (length text - offset) with h | h
  · rw [List.take_range'_of_length_ge h]
    congr 1
    dsimp only
    omega
  · rw [List.take_range'_of_length_le h]
    congr 1
    dsimp only
    omega

/-- Characters that are not blank lie within the text. -/
theorem lt_length_of_not_isBlank {σ : Type} [Source σ] {text : σ} {offset : Nat}
    (h : isBlank (charAt text offset) = false) : offset < length text := by
  apply Nat.lt_of_not_le
  intro hge
  rw [charAt_of_length_le hge, isBlank_sentinel] at h
  cases h

/-! ## Slices -/

theorem length_slice (text : σ) {start stop : Nat} (h : stop ≤ length text) :
    (slice text ⟨start, stop⟩).length = stop - start := by
  rw [slice, List.length_map, List.length_range', Nat.min_eq_left h]

@[simp] theorem slice_self (text : σ) (offset : Nat) : slice text ⟨offset, offset⟩ = [] := by
  rw [slice, Nat.sub_eq_zero_of_le (Nat.min_le_left _ _)]
  rfl

theorem slice_of_lt {text : σ} {start stop : Nat} (h : start < stop) (hle : stop ≤ length text) :
    slice text ⟨start, stop⟩ = charAt text start :: slice text ⟨start + 1, stop⟩ := by
  obtain ⟨n, rfl⟩ : ∃ n, stop = start + (n + 1) := ⟨stop - start - 1, by omega⟩
  rw [← take_suffix, suffix_of_lt (by omega), List.take_succ_cons, take_suffix,
    show start + 1 + n = start + (n + 1) by omega]

/-- A read within a slice is a read of the text. -/
theorem getElem?_slice {text : σ} {start stop i : Nat} (h : start + i < stop)
    (hle : stop ≤ length text) :
    (slice text ⟨start, stop⟩)[i]? = some (charAt text (start + i)) := by
  rw [slice, Nat.min_eq_left hle, List.getElem?_map, List.getElem?_range' (by dsimp only; omega),
    Nat.one_mul]
  rfl

/-- What is read of a slice stands in the text, before the end of the slice. -/
theorem charAt_of_getElem?_slice {text : σ} {start stop i : Nat} {c : Char}
    (hle : stop ≤ length text) (h : (slice text ⟨start, stop⟩)[i]? = some c) :
    start + i < stop ∧ charAt text (start + i) = c := by
  obtain ⟨hlt, -⟩ := List.getElem?_eq_some_iff.mp h
  rw [length_slice text hle] at hlt
  have hbound : start + i < stop := by omega
  rw [getElem?_slice hbound hle] at h
  exact ⟨hbound, Option.some.inj h⟩

/-- The last character of a slice is the one before its end. -/
theorem charAt_of_suffix_slice {text : σ} {start stop : Nat} {c : Char} (hle : stop ≤ length text)
    (h : [c] <:+ slice text ⟨start, stop⟩) : charAt text (stop - 1) = c := by
  obtain ⟨l, hl⟩ := h
  have hlength : l.length + 1 = stop - start := by
    rw [← length_slice text hle, ← hl, List.length_append, List.length_singleton]
  have hlt : start + l.length < stop := by omega
  have hget := getElem?_slice hlt hle
  rw [← hl, List.getElem?_concat_length, show start + l.length = stop - 1 by omega] at hget
  exact (Option.some.inj hget).symm

/-! ## Line breaks -/

/-- There is no line break where there is neither a line feed nor a CR in front of one. -/
theorem lineBreakLength_eq_zero_iff (text : σ) (offset : Nat) :
    lineBreakLength text offset = 0 ↔ charAt text offset ≠ '\n' ∧
      ¬ (charAt text offset = '\r' ∧ charAt text (offset + 1) = '\n') := by
  unfold lineBreakLength
  split
  · simp_all
  · split <;> simp_all

/-- Blanks only are line breaks. -/
theorem lineBreakLength_eq_zero_of_not_isBlank {text : σ} {offset : Nat}
    (h : isBlank (charAt text offset) = false) : lineBreakLength text offset = 0 := by
  rw [lineBreakLength_eq_zero_iff]
  constructor
  · intro hc
    rw [hc, isBlank_lineFeed] at h
    cases h
  · rintro ⟨hc, -⟩
    rw [hc, isBlank_carriageReturn] at h
    cases h

theorem lineBreakLength_of_lineFeed {text : σ} {offset : Nat} (h : charAt text offset = '\n') :
    lineBreakLength text offset = 1 := by
  rw [lineBreakLength, if_pos h]

/-- Line breaks are alike where the characters are, up to the line feed. -/
theorem lineBreakLength_eq_of_charAt_eq {τ : Type} [Readable τ] {text : σ} {text' : τ}
    {offset offset' : Nat} (h : charAt text' offset' = charAt text offset)
    (hnext : charAt text offset ≠ '\n' →
      charAt text' (offset' + 1) = charAt text (offset + 1)) :
    lineBreakLength text' offset' = lineBreakLength text offset := by
  unfold lineBreakLength
  rw [h]
  split
  · rfl
  · next hc => rw [hnext hc]

/-- Every line break ends with a line feed. -/
theorem lineFeed_of_lineBreakLength_pos {text : σ} {offset : Nat}
    (h : 0 < lineBreakLength text offset) :
    charAt text (offset + lineBreakLength text offset - 1) = '\n' := by
  unfold lineBreakLength at h ⊢
  split
  · next hc => exact hc
  · next hc =>
    rw [if_neg hc] at h
    split
    · next hr => exact hr.2
    · next hr =>
      rw [if_neg hr] at h
      exact absurd h (Nat.lt_irrefl 0)

/-- The characters of a line break are blank. -/
theorem isBlank_of_lt_lineBreakLength {text : σ} {offset i : Nat} (hle : offset ≤ i)
    (h : i < offset + lineBreakLength text offset) : isBlank (charAt text i) = true := by
  unfold lineBreakLength at h
  split at h
  · next hc =>
    obtain rfl : i = offset := by omega
    rw [hc, isBlank_lineFeed]
  · split at h
    · next hr =>
      obtain rfl | rfl : i = offset ∨ i = offset + 1 := by omega
      · rw [hr.1, isBlank_carriageReturn]
      · rw [hr.2, isBlank_lineFeed]
    · exact absurd hle (Nat.not_le.mpr h)

/-- The list has the line break at its head that the source has at the offset. -/
@[simp] theorem breakLength_suffix {σ : Type} [Source σ] (text : σ) (offset : Nat) :
    Lexeme.breakLength (suffix text offset) = lineBreakLength text offset := by
  by_cases h : offset < length text
  · by_cases h' : offset + 1 < length text
    · rw [suffix_of_lt h, suffix_of_lt h', lineBreakLength]
      unfold Lexeme.breakLength
      split <;> simp_all
    -- The last character may be a CR, but the sentinel behind it is no line feed.
    · have next : charAt text (offset + 1) = sentinel := charAt_of_length_le (by omega)
      rw [suffix_of_lt h, suffix_of_length_le (by omega), lineBreakLength, next]
      unfold Lexeme.breakLength
      split <;> simp_all [sentinel]
  · rw [suffix_of_length_le (by omega), lineBreakLength, charAt_of_length_le (by omega)]
    rfl

/-- No line break starts from `start` up to, and without, `stop`. -/
def Unbroken (text : σ) (start stop : Nat) : Prop :=
  ∀ i, start ≤ i → i < stop → lineBreakLength text i = 0

theorem Unbroken.refl (text : σ) (offset : Nat) : Unbroken text offset offset :=
  fun i h h' => absurd h' (by omega)

/-- Two unbroken parts that meet are one. -/
theorem Unbroken.trans {text : σ} {start middle stop : Nat} (h : Unbroken text start middle)
    (h' : Unbroken text middle stop) : Unbroken text start stop := by
  intro i hi hi'
  by_cases hm : i < middle
  · exact h i hi hm
  · exact h' i (by omega) hi'

/-- The part may be extended over a character that starts no line break. -/
theorem Unbroken.succ {text : σ} {start stop : Nat} (h : Unbroken text start stop)
    (h' : lineBreakLength text stop = 0) : Unbroken text start (stop + 1) := by
  apply h.trans
  intro i hi hi'
  rwa [show i = stop by omega]

/-- Only blanks part lines. -/
theorem unbroken_of_not_isBlank {text : σ} {start stop : Nat}
    (h : ∀ i, start ≤ i → i < stop → isBlank (charAt text i) = false) :
    Unbroken text start stop :=
  fun i hi hi' => lineBreakLength_eq_zero_of_not_isBlank (h i hi hi')

end Source

end OdinSyntax
