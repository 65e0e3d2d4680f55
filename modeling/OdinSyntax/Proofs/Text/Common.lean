import OdinSyntax.Proofs.Text.Suffix
import OdinSyntax.Text.Snapshot

/-!
# Texts with a common beginning or end

What two sources share when their first characters are the same (`SamePrefix`), or their last ones,
at a distance that is the difference of their lengths (`SameSuffix`). A text that is cut in two
shares its beginning with the one part and its end with the other.
-/

namespace OdinSyntax

namespace Source

variable {σ τ : Type} [Source σ] [Source τ] {text : σ} {text' : τ} {p k : Nat}

/-- The texts have their first `p` characters in common. -/
structure SamePrefix (text : σ) (text' : τ) (p : Nat) : Prop where
  le_length : p ≤ length text
  le_length' : p ≤ length text'
  charAt_eq : ∀ i < p, charAt text' i = charAt text i

/-- Behind `k` further characters, `text'` is like `text`. -/
structure SameSuffix (text : σ) (text' : τ) (k : Nat) : Prop where
  length_eq : length text' = length text + k
  charAt_eq : ∀ i, charAt text' (i + k) = charAt text i

/-! ## A common beginning -/

namespace SamePrefix

/-- Slices that end within the common beginning are the same. -/
theorem slice_eq (h : SamePrefix text text' p) {span : Span} (hle : span.stop ≤ p) :
    slice text' span = slice text span := by
  have hmin : min span.stop (length text) = span.stop :=
    Nat.min_eq_left (Nat.le_trans hle h.le_length)
  have hmin' : min span.stop (length text') = span.stop :=
    Nat.min_eq_left (Nat.le_trans hle h.le_length')
  rw [slice, slice, hmin, hmin']
  apply List.map_congr_left
  intro i hi
  have hbound := List.mem_range'_1.mp hi
  exact h.charAt_eq i (by omega)

/-- Blanks end alike where they end within the common beginning. -/
theorem skipBlanks_eq (h : SamePrefix text text' p) {offset : Nat}
    (hlt : skipBlanks text offset < p) : skipBlanks text' offset = skipBlanks text offset := by
  fun_induction skipBlanks text offset with
  | case1 offset hblank ih =>
    have hle := le_skipBlanks text (offset + 1)
    have hoffset : offset < p := by omega
    have hblank' : offset < length text' ∧ isBlank (charAt text' offset) = true :=
      ⟨Nat.lt_of_lt_of_le hoffset h.le_length', by rw [h.charAt_eq _ hoffset]; exact hblank.2⟩
    rw [skipBlanks, if_pos hblank', ih hlt]
  | case2 offset hblank =>
    have hblank' : ¬ (offset < length text' ∧ isBlank (charAt text' offset) = true) := by
      rw [h.charAt_eq _ hlt]
      exact fun hc => hblank ⟨Nat.lt_of_lt_of_le hlt h.le_length, hc.2⟩
    rw [skipBlanks, if_neg hblank']

/-- No line break has more than two characters, so two common ones decide whether one starts. -/
theorem lineBreakLength_eq (h : SamePrefix text text' p) {offset : Nat} (hle : offset + 2 ≤ p) :
    lineBreakLength text' offset = lineBreakLength text offset :=
  lineBreakLength_eq_of_charAt_eq (h.charAt_eq offset (by omega))
    fun _ => h.charAt_eq (offset + 1) hle

end SamePrefix

/-! ## A common end -/

namespace SameSuffix

/-- A slice is found again `k` characters further on. -/
theorem slice_eq (h : SameSuffix text text' k) (start stop : Nat) :
    slice text' ⟨start + k, stop + k⟩ = slice text ⟨start, stop⟩ := by
  have hcount : min (stop + k) (length text') - (start + k) =
      min stop (length text) - start := by
    rw [h.length_eq, Nat.add_min_add_right, Nat.add_sub_add_right]
  rw [slice, slice]
  dsimp only
  rw [hcount, Nat.add_comm start k, ← List.map_add_range', List.map_map]
  apply List.map_congr_left
  intro i _
  rw [Function.comp_apply, Nat.add_comm k i, h.charAt_eq]

/-- So is what is left of the text from an offset on. -/
theorem suffix_eq (h : SameSuffix text text' k) (offset : Nat) :
    suffix text' (offset + k) = suffix text offset := by
  rw [suffix, suffix, h.length_eq, h.slice_eq]

end SameSuffix

end Source

/-! ## Snapshots of lists -/

namespace Snapshot

open Source

variable {chars rest : List Char}

/-- A read of a snapshot is a read of its characters, with sentinels behind them. -/
theorem charAt_ofList (h : chars.length ≤ maxOffset) (offset : Nat) :
    charAt (ofList chars) offset = chars.getD offset sentinel := by
  show (ofList chars).chars.getD offset sentinel = chars.getD offset sentinel
  rw [chars_ofList h]
  simp

/-- A text shares its beginning with what it is put in front of. -/
theorem samePrefix_append (h : (chars ++ rest).length ≤ maxOffset) :
    SamePrefix (ofList chars) (ofList (chars ++ rest)) chars.length := by
  have hle : chars.length ≤ (chars ++ rest).length := by
    rw [List.length_append]
    exact Nat.le_add_right _ _
  refine ⟨?_, ?_, fun i hi => ?_⟩
  · exact Nat.le_of_eq (length_ofList (Nat.le_trans hle h)).symm
  · rw [source_length, length_ofList h]
    exact hle
  · rw [charAt_ofList h, charAt_ofList (Nat.le_trans hle h), List.getD_eq_getElem?_getD,
      List.getD_eq_getElem?_getD, List.getElem?_append_left hi]

/-- What is put in front of a text leaves the text as the end of the whole. -/
theorem sameSuffix_append (h : (chars ++ rest).length ≤ maxOffset) :
    SameSuffix (ofList rest) (ofList (chars ++ rest)) chars.length := by
  have hle : rest.length ≤ (chars ++ rest).length := by
    rw [List.length_append]
    exact Nat.le_add_left _ _
  refine ⟨?_, fun i => ?_⟩
  · rw [source_length, source_length, length_ofList h, length_ofList (Nat.le_trans hle h),
      List.length_append, Nat.add_comm]
  · rw [charAt_ofList h, charAt_ofList (Nat.le_trans hle h), List.getD_eq_getElem?_getD,
      List.getD_eq_getElem?_getD, List.getElem?_append_right (Nat.le_add_left _ _),
      Nat.add_sub_cancel]

/-- The rest of a text is a text of its own. -/
theorem sameSuffix_suffix {σ : Type} [Source σ] {text : σ} {k : Nat} (h : k ≤ Source.length text) :
    SameSuffix (ofList (suffix text k)) text k := by
  have hle : (suffix text k).length ≤ maxOffset := by
    rw [length_suffix]
    exact Nat.le_trans (Nat.sub_le _ _) (Source.length_le text)
  refine ⟨?_, fun i => ?_⟩
  · rw [source_length, length_ofList hle, length_suffix, Nat.sub_add_cancel h]
  · rw [charAt_ofList hle, List.getD_eq_getElem?_getD, Nat.add_comm]
    -- Where the rest is over, so is the text, and both reads give the sentinel.
    by_cases hi : k + i < Source.length text
    · rw [suffix, getElem?_slice hi (Nat.le_refl _), Option.getD_some]
    · rw [List.getElem?_eq_none (by rw [length_suffix]; omega), charAt_of_length_le (by omega)]
      rfl

end Snapshot

end OdinSyntax
