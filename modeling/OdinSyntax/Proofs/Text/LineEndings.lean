import OdinSyntax.Proofs.Text.LineIndex

/-!
# Line feeds and CRLF

`withCRLF` puts a CRLF in the place of each line feed of a text. An offset of the text is moved on
by the number of line feeds before it (`crlfOffset`), and what is before and behind it is rewritten
alike (`take_withCRLF`, `drop_withCRLF`).

Where the text has no CRLF of its own, the two texts have the same lines
(`map_slice_lineSpan?_withCRLF`). In the rewritten text a CR stands at the offset of each line feed,
and the line feed behind it (`charAt_withCRLF`, `charAt_withCRLF_succ`). All other characters are
the same, so both have their line breaks at corresponding offsets
(`lineBreakLength_withCRLF`).
-/

namespace OdinSyntax

open Source

variable {chars : List Char} {offset line : Nat}

/-- The text with CRLF in the place of each line feed. -/
def withCRLF (chars : List Char) : List Char :=
  chars.flatMap fun c => if c = '\n' then ['\r', '\n'] else [c]

/-- The offset in `withCRLF chars` of the character at `offset`. -/
def crlfOffset (chars : List Char) (offset : Nat) : Nat :=
  offset + (chars.take offset).count '\n'

/-! ## Parts of a text -/

@[simp] theorem withCRLF_nil : withCRLF [] = [] := rfl

@[simp] theorem withCRLF_lineFeed (rest : List Char) :
    withCRLF ('\n' :: rest) = '\r' :: '\n' :: withCRLF rest := rfl

theorem withCRLF_cons_of_ne {c : Char} (h : c ≠ '\n') (rest : List Char) :
    withCRLF (c :: rest) = c :: withCRLF rest := by
  rw [withCRLF, List.flatMap_cons, if_neg h]
  rfl

/-- Each character is rewritten by itself, so a text may be cut anywhere. -/
@[simp] theorem withCRLF_append (before rest : List Char) :
    withCRLF (before ++ rest) = withCRLF before ++ withCRLF rest :=
  List.flatMap_append

theorem withCRLF_of_not_mem (h : '\n' ∉ chars) : withCRLF chars = chars := by
  induction chars with
  | nil => rfl
  | cons c rest ih =>
    rw [List.mem_cons, not_or] at h
    rw [withCRLF_cons_of_ne (Ne.symm h.1), ih h.2]

theorem count_withCRLF (chars : List Char) : (withCRLF chars).count '\n' = chars.count '\n' := by
  induction chars with
  | nil => rfl
  | cons c rest ih =>
    by_cases hc : c = '\n'
    · subst hc
      rw [withCRLF_lineFeed, List.count_cons_of_ne (by decide), List.count_cons_self,
        List.count_cons_self, ih]
    · rw [withCRLF_cons_of_ne hc, List.count_cons_of_ne hc, List.count_cons_of_ne hc, ih]

theorem length_withCRLF (chars : List Char) :
    (withCRLF chars).length = chars.length + chars.count '\n' := by
  induction chars with
  | nil => rfl
  | cons c rest ih =>
    by_cases hc : c = '\n'
    · subst hc
      rw [withCRLF_lineFeed, List.length_cons, List.length_cons, List.length_cons, ih,
        List.count_cons_self]
      omega
    · rw [withCRLF_cons_of_ne hc, List.length_cons, List.length_cons, ih, List.count_cons_of_ne hc]
      omega

/-- The corresponding offset is the length of what is before it, rewritten. -/
theorem length_withCRLF_take (h : offset ≤ chars.length) :
    (withCRLF (chars.take offset)).length = crlfOffset chars offset := by
  rw [length_withCRLF, List.length_take, Nat.min_eq_left h, crlfOffset]

/-- What is before an offset is before the corresponding one, rewritten. -/
theorem take_withCRLF (h : offset ≤ chars.length) :
    (withCRLF chars).take (crlfOffset chars offset) = withCRLF (chars.take offset) := by
  have hparts : withCRLF chars = withCRLF (chars.take offset) ++ withCRLF (chars.drop offset) := by
    rw [← withCRLF_append, List.take_append_drop]
  rw [hparts, ← length_withCRLF_take h, List.take_left]

/-- What is behind an offset is behind the corresponding one, rewritten. This holds past the end
too. -/
theorem drop_withCRLF (chars : List Char) (offset : Nat) :
    (withCRLF chars).drop (crlfOffset chars offset) = withCRLF (chars.drop offset) := by
  rcases Nat.le_total offset chars.length with h | h
  · have hparts : withCRLF chars =
        withCRLF (chars.take offset) ++ withCRLF (chars.drop offset) := by
      rw [← withCRLF_append, List.take_append_drop]
    rw [hparts, ← length_withCRLF_take h, List.drop_left]
  · rw [crlfOffset, List.take_of_length_le h, List.drop_of_length_le h, withCRLF_nil,
      List.drop_of_length_le]
    rw [length_withCRLF]
    omega

/-- A line feed takes one place more. -/
theorem crlfOffset_succ (chars : List Char) (offset : Nat) :
    crlfOffset chars (offset + 1) =
      crlfOffset chars offset + if chars[offset]? = some '\n' then 2 else 1 := by
  rw [crlfOffset, crlfOffset, List.take_add_one, List.count_append]
  cases chars[offset]? with
  | none => simp; omega
  | some c =>
    by_cases hc : c = '\n'
    · simp [hc]; omega
    · simp [hc]; omega

/-- Different offsets correspond to different ones, in the same order. -/
theorem strictMono_crlfOffset (chars : List Char) : StrictMono (crlfOffset chars) := by
  apply strictMono_nat_of_lt_succ
  intro offset
  rw [crlfOffset_succ]
  split <;> omega

/-- Parts without line feeds move as a whole. -/
theorem crlfOffset_of_not_mem {start stop : Nat} (hle : start ≤ stop)
    (h : '\n' ∉ (chars.take stop).drop start) :
    crlfOffset chars stop = stop + (chars.take start).count '\n' := by
  have hcount : (chars.take stop).count '\n' = (chars.take start).count '\n' := by
    rw [← List.take_append_drop start (chars.take stop), List.count_append,
      List.count_eq_zero.mpr h, List.take_take, Nat.min_eq_left hle, Nat.add_zero]
  rw [crlfOffset, hcount]

/-! ## Lines -/

/-- The same line of the two texts has the same content. -/
theorem LineCut.exists_withCRLF (cut : LineCut chars line) (h : ¬ ['\r', '\n'] <:+: chars) :
    ∃ cut' : LineCut (withCRLF chars) line, cut'.content = cut.content := by
  obtain ⟨before, content, lineBreak, behind, rfl, hcount, hbefore, hcontent, hend⟩ := cut
  have hsame : withCRLF content = content := withCRLF_of_not_mem hcontent
  -- Of the four parts only the line break changes, and what is before ends with a line feed still.
  have hbefore' : withCRLF before = [] ∨ ∃ front, withCRLF before = front ++ ['\n'] := by
    rcases hbefore with rfl | ⟨front, rfl⟩
    · exact .inl rfl
    · exact .inr ⟨withCRLF front ++ ['\r'], by simp⟩
  have hend' : LineEnd content (withCRLF lineBreak) (withCRLF behind) := by
    cases hend with
    | last => exact .last content
    | lineFeed => exact .crlf content (withCRLF behind)
    | crlf => exact absurd ⟨before ++ content, behind, by simp⟩ h
  refine ⟨⟨withCRLF before, content, withCRLF lineBreak, withCRLF behind, ?_, ?_, hbefore',
    hcontent, hend'⟩, rfl⟩
  · rw [withCRLF_append, withCRLF_append, withCRLF_append, hsame]
  · rw [count_withCRLF, hcount]

namespace Snapshot

section Lines

variable (hle : (withCRLF chars).length ≤ maxOffset)

include hle

theorem length_le_of_withCRLF : chars.length ≤ maxOffset := by
  rw [length_withCRLF] at hle
  omega

/-- The ends of the two texts correspond. -/
theorem length_ofList_withCRLF :
    (ofList (withCRLF chars)).length = crlfOffset chars (ofList chars).length := by
  rw [length_ofList hle, length_ofList (length_le_of_withCRLF hle),
    ← length_withCRLF_take (Nat.le_refl _), List.take_length]

/-- The rewriting adds no line. -/
theorem lineCount_withCRLF :
    (ofList (withCRLF chars)).lineCount = (ofList chars).lineCount := by
  rw [lineCount_eq_count, lineCount_eq_count, chars_ofList hle,
    chars_ofList (length_le_of_withCRLF hle), count_withCRLF]

/-- A line has the same characters, for its line break is none of them. -/
theorem map_slice_lineSpan?_withCRLF (h : ¬ ['\r', '\n'] <:+: chars) (line : Nat) :
    ((ofList (withCRLF chars)).lineSpan? line).map (slice (ofList (withCRLF chars))) =
      ((ofList chars).lineSpan? line).map (slice (ofList chars)) := by
  have hchars := toList_chars_ofList (length_le_of_withCRLF hle)
  have hchars' := toList_chars_ofList hle
  by_cases hline : line ≤ chars.count '\n'
  · obtain ⟨cut⟩ := nonempty_lineCut hline
    obtain ⟨cut', hcontent⟩ := cut.exists_withCRLF h
    rw [cut.map_slice_lineSpan? hchars, cut'.map_slice_lineSpan? hchars', hcontent]
  · have hnone : (ofList chars).lineSpan? line = none := by
      rw [lineSpan?_eq_none_iff, lineCount_eq_count, hchars]
      omega
    have hnone' : (ofList (withCRLF chars)).lineSpan? line = none := by
      rw [lineSpan?_eq_none_iff, lineCount_withCRLF hle, lineCount_eq_count, hchars]
      omega
    rw [hnone, hnone']
    rfl

end Lines

/-! ## Characters -/

section Characters

variable (hle : (withCRLF chars).length ≤ maxOffset) (offset : Nat)

include hle

/-- At corresponding offsets, what is left of the one text is what is left of the other, rewritten.
-/
theorem suffix_withCRLF :
    suffix (ofList (withCRLF chars)) (crlfOffset chars offset) =
      withCRLF (suffix (ofList chars) offset) := by
  rw [suffix_eq_drop, suffix_eq_drop, chars_ofList hle, chars_ofList (length_le_of_withCRLF hle),
    drop_withCRLF]

/-- A CR stands at the offset of a line feed, and elsewhere the same character. -/
theorem charAt_withCRLF :
    charAt (ofList (withCRLF chars)) (crlfOffset chars offset) =
      if charAt (ofList chars) offset = '\n' then '\r' else charAt (ofList chars) offset := by
  rw [← headD_suffix, ← headD_suffix, suffix_withCRLF hle]
  cases suffix (ofList chars) offset with
  | nil => rfl
  | cons c rest =>
    by_cases hc : c = '\n'
    · subst hc
      rfl
    · rw [withCRLF_cons_of_ne hc, List.headD_cons, List.headD_cons, if_neg hc]

variable {offset}

/-- The line feed is behind the CR. -/
theorem charAt_withCRLF_succ (h : charAt (ofList chars) offset = '\n') :
    charAt (ofList (withCRLF chars)) (crlfOffset chars offset + 1) = '\n' := by
  rw [← headD_suffix] at h
  rw [← headD_suffix, ← tail_suffix, suffix_withCRLF hle]
  cases hrest : suffix (ofList chars) offset with
  | nil =>
    rw [hrest] at h
    exact absurd h (by decide)
  | cons c rest =>
    obtain rfl : c = '\n' := by rwa [hrest] at h
    rfl

variable (offset) in
/-- How many places a character takes, in terms of a read of the snapshot. -/
theorem crlfOffset_succ_of_charAt :
    crlfOffset chars (offset + 1) =
      crlfOffset chars offset + if charAt (ofList chars) offset = '\n' then 2 else 1 := by
  have hchars := toList_chars_ofList (length_le_of_withCRLF hle)
  simp only [← getElem?_chars_eq_lineFeed_iff, hchars, crlfOffset_succ]

/-- Nothing but the CRs in front of line feeds starts a line break in the rewritten text. -/
theorem lineBreakLength_withCRLF (offset : Nat) :
    lineBreakLength (ofList (withCRLF chars)) (crlfOffset chars offset) =
      if charAt (ofList chars) offset = '\n' then 2 else 0 := by
  rw [lineBreakLength, charAt_withCRLF hle]
  by_cases hc : charAt (ofList chars) offset = '\n'
  · rw [if_pos hc, if_pos hc, if_neg (by decide), if_pos ⟨rfl, charAt_withCRLF_succ hle hc⟩]
  · rw [if_neg hc, if_neg hc, if_neg hc, if_neg]
    -- The character behind is that of the text, or the CR of a CRLF.
    rintro ⟨-, hnext⟩
    have hsucc := crlfOffset_succ_of_charAt hle offset
    rw [if_neg hc] at hsucc
    rw [← hsucc, charAt_withCRLF hle] at hnext
    split at hnext
    · exact absurd hnext (by decide)
    · next hc' => exact hc' hnext

/-- In a text without CRLF the line feeds are the line breaks. -/
theorem lineBreakLength_of_not_infix (h : ¬ ['\r', '\n'] <:+: chars) (offset : Nat) :
    lineBreakLength (ofList chars) offset =
      if charAt (ofList chars) offset = '\n' then 1 else 0 := by
  have hpair : ¬ (charAt (ofList chars) offset = '\r' ∧
      charAt (ofList chars) (offset + 1) = '\n') := by
    rintro ⟨hr, hn⟩
    have hlt : offset + 1 < length (ofList chars) := by
      apply Nat.lt_of_not_le
      intro hge
      rw [charAt_of_length_le hge] at hn
      exact absurd hn (by decide)
    -- Two such characters in a row would be a CRLF in the text.
    have hsuffix := suffix_eq_drop (ofList chars) offset
    rw [suffix_of_lt (Nat.lt_of_succ_lt hlt), suffix_of_lt hlt, hr, hn,
      chars_ofList (length_le_of_withCRLF hle)] at hsuffix
    have hparts := List.take_append_drop offset chars
    rw [← hsuffix] at hparts
    exact h ⟨_, _, (List.append_assoc ..).trans hparts⟩
  rw [lineBreakLength, if_neg hpair]

end Characters

/-! ## Slices -/

section Slices

variable (hle : (withCRLF chars).length ≤ maxOffset) {span : Span}
  (hu : Unbroken (ofList chars) span.start span.stop)

include hle hu

theorem lineFeed_not_mem_of_unbroken : '\n' ∉ (chars.take span.stop).drop span.start := by
  have hchars := toList_chars_ofList (length_le_of_withCRLF hle)
  rw [← hchars, ← slice_eq_drop_take]
  intro hmem
  obtain ⟨i, hi, hc⟩ := List.mem_map.mp hmem
  have hbounds := List.mem_range'_1.mp hi
  have hzero := hu i hbounds.1 (by omega)
  rw [lineBreakLength_of_lineFeed hc] at hzero
  cases hzero

/-- A span without a line break keeps its characters. -/
theorem slice_withCRLF (hlt : span.start < span.stop) (hstop : span.stop ≤ (ofList chars).length) :
    slice (ofList (withCRLF chars)) ⟨crlfOffset chars span.start, crlfOffset chars span.stop⟩ =
      slice (ofList chars) span := by
  have hle' := length_le_of_withCRLF hle
  have hstop' : span.stop ≤ chars.length := by
    rwa [length_ofList hle'] at hstop
  have hstart : crlfOffset chars span.start = crlfOffset (chars.take span.stop) span.start := by
    rw [crlfOffset, crlfOffset, List.take_take, Nat.min_eq_left (Nat.le_of_lt hlt)]
  rw [slice_eq_drop_take, slice_eq_drop_take, chars_ofList hle, chars_ofList hle',
    take_withCRLF hstop', hstart, drop_withCRLF,
    withCRLF_of_not_mem (lineFeed_not_mem_of_unbroken hle hu)]

end Slices

end Snapshot

end OdinSyntax
