import OdinSyntax.Proofs.Text.Suffix
import OdinSyntax.Text.Snapshot

/-!
# Lines of a snapshot

A snapshot holds the offsets at which its lines start, finds the line of an offset by halving, and
cuts the CR off a line that ends with CRLF. The statements below say what this amounts to:

* the starts are zero and the offsets behind the line feeds, in order (`toList_lineStarts`),
* the line of an offset is the last one that starts at or before it (`le_lineOf_iff`),
* a line holds no line break, and exactly one lies between it and the next line
  (`unbroken_line`, `lineStop_add_lineBreakLength`),
* characters that no line break parts lie within one line (`le_lineStop_lineOf`).

The tokenizer never sees the index. What they share is the notion of a line break at an offset.
-/

namespace OdinSyntax

open Source

/-! ## Starts of lines -/

/-- The offsets behind the line feeds of a list whose first character has the offset `offset`. -/
def startsFrom (offset : Nat) : List Char → List Nat
  | [] => []
  | c :: rest =>
    if c = '\n' then (offset + 1) :: startsFrom (offset + 1) rest else startsFrom (offset + 1) rest

theorem toList_pushLineStarts (starts : Array Nat) (offset : Nat) (chars : List Char) :
    (pushLineStarts starts offset chars).toList = starts.toList ++ startsFrom offset chars := by
  induction chars generalizing starts offset with
  | nil => rw [pushLineStarts, startsFrom, List.append_nil]
  | cons c rest ih =>
    rw [pushLineStarts, ih, startsFrom]
    split
    · rw [Array.toList_push, List.append_assoc, List.singleton_append]
    · rfl

/-- A line starts behind each line feed and nowhere else. -/
theorem mem_startsFrom_iff {offset start : Nat} {chars : List Char} :
    start ∈ startsFrom offset chars ↔ ∃ i, chars[i]? = some '\n' ∧ start = offset + i + 1 := by
  induction chars generalizing offset with
  | nil => simp [startsFrom]
  | cons c rest ih =>
    -- The same of the rest, with indices into the whole list.
    have hrest : start ∈ startsFrom (offset + 1) rest ↔
        ∃ i, (c :: rest)[i + 1]? = some '\n' ∧ start = offset + (i + 1) + 1 := by
      rw [ih]
      simp only [List.getElem?_cons_succ]
      constructor
      · rintro ⟨i, hi, rfl⟩
        exact ⟨i, hi, by omega⟩
      · rintro ⟨i, hi, rfl⟩
        exact ⟨i, hi, by omega⟩
    rw [startsFrom]
    constructor
    · intro h
      split at h
      · next hc =>
        rcases List.mem_cons.mp h with rfl | h
        · exact ⟨0, by rw [hc]; rfl, rfl⟩
        · obtain ⟨i, hi, rfl⟩ := hrest.mp h
          exact ⟨i + 1, hi, rfl⟩
      · obtain ⟨i, hi, rfl⟩ := hrest.mp h
        exact ⟨i + 1, hi, rfl⟩
    · rintro ⟨i, hi, rfl⟩
      cases i with
      | zero =>
        have hc : c = '\n' := Option.some.inj hi
        rw [if_pos hc]
        exact List.mem_cons_self
      | succ i =>
        have h := hrest.mpr ⟨i, hi, rfl⟩
        split
        · exact List.mem_cons_of_mem _ h
        · exact h

theorem pairwise_startsFrom (offset : Nat) (chars : List Char) :
    (startsFrom offset chars).Pairwise (· < ·) := by
  induction chars generalizing offset with
  | nil => exact .nil
  | cons c rest ih =>
    rw [startsFrom]
    split
    · refine List.pairwise_cons.mpr ⟨?_, ih (offset + 1)⟩
      intro start h
      obtain ⟨i, -, rfl⟩ := mem_startsFrom_iff.mp h
      omega
    · exact ih (offset + 1)

namespace Snapshot

variable {s : Snapshot} {line line' offset : Nat}

/-- The offset where a line starts. -/
def lineStart (s : Snapshot) (line : Nat) : Nat :=
  s.lineStarts.getD line 0

/-- The offset where the content of a line ends. -/
def lineStop (s : Snapshot) (line : Nat) : Nat :=
  if line + 1 < s.lineCount then s.contentEnd (s.lineStart line) (s.lineStart (line + 1) - 1)
  else s.length

/-- The index has the start of the text, and a start for each line feed. -/
theorem toList_lineStarts (s : Snapshot) :
    s.lineStarts.toList = 0 :: startsFrom 0 s.chars.toList := by
  rw [s.lineStarts_eq, lineStartsOf, toList_pushLineStarts]
  rfl

/-- The sentinel is no line feed, so none is read where the text is over. -/
theorem getElem?_chars_eq_lineFeed_iff :
    s.chars.toList[offset]? = some '\n' ↔ charAt s offset = '\n' := by
  have hchar : charAt s offset = s.chars.toList[offset]?.getD sentinel := by
    rw [Array.getElem?_toList, ← Array.getD_eq_getD_getElem?]
    rfl
  rw [hchar]
  constructor
  · intro h
    rw [h]
    rfl
  · intro h
    cases hget : s.chars.toList[offset]? with
    | none =>
      rw [hget] at h
      exact absurd h (by decide)
    | some c =>
      rw [hget] at h
      rw [show c = '\n' from h]

/-- What the index has, in terms of reads. -/
theorem mem_lineStarts_iff {start : Nat} :
    start ∈ s.lineStarts.toList ↔ start = 0 ∨ ∃ i, charAt s i = '\n' ∧ start = i + 1 := by
  simp only [toList_lineStarts, List.mem_cons, mem_startsFrom_iff, getElem?_chars_eq_lineFeed_iff,
    Nat.zero_add]

/-- The index is in order, and no line starts where another one does. -/
theorem pairwise_lineStarts (s : Snapshot) : s.lineStarts.toList.Pairwise (· < ·) := by
  rw [toList_lineStarts]
  refine List.pairwise_cons.mpr ⟨?_, pairwise_startsFrom 0 _⟩
  intro start h
  obtain ⟨i, -, rfl⟩ := mem_startsFrom_iff.mp h
  exact Nat.succ_pos _

theorem lineCount_eq_length (s : Snapshot) : s.lineCount = s.lineStarts.toList.length := rfl

theorem lineCount_pos (s : Snapshot) : 0 < s.lineCount := by
  rw [lineCount_eq_length, toList_lineStarts]
  exact Nat.succ_pos _

theorem getElem?_lineStarts (h : line < s.lineCount) :
    s.lineStarts[line]? = some (s.lineStart line) := by
  have hget : s.lineStarts[line]? = some s.lineStarts[line] := Array.getElem?_eq_getElem h
  rw [lineStart, Array.getD_eq_getD_getElem?, hget]
  rfl

theorem getElem_toList_lineStarts (h : line < s.lineStarts.toList.length) :
    s.lineStarts.toList[line] = s.lineStart line := by
  rw [← Option.some_inj, ← List.getElem?_eq_getElem, Array.getElem?_toList]
  exact getElem?_lineStarts h

@[simp] theorem lineStart_zero (s : Snapshot) : s.lineStart 0 = 0 := by
  rw [← getElem_toList_lineStarts s.lineCount_pos]
  simp only [toList_lineStarts, List.getElem_cons_zero]

theorem lineStart_lt_lineStart (h : line < line') (h' : line' < s.lineCount) :
    s.lineStart line < s.lineStart line' := by
  rw [← getElem_toList_lineStarts (Nat.lt_trans h h'), ← getElem_toList_lineStarts h']
  exact List.pairwise_iff_getElem.mp s.pairwise_lineStarts _ _ _ _ h

theorem lineStart_le_lineStart (h : line ≤ line') (h' : line' < s.lineCount) :
    s.lineStart line ≤ s.lineStart line' := by
  rcases Nat.eq_or_lt_of_le h with rfl | h
  · exact Nat.le_refl _
  · exact Nat.le_of_lt (lineStart_lt_lineStart h h')

/-- A line feed stands before the start of every line but the first. -/
theorem exists_lineFeed_of_lineStart (h : line < s.lineCount) (hpos : 0 < line) :
    ∃ i, charAt s i = '\n' ∧ s.lineStart line = i + 1 := by
  have hmem : s.lineStart line ∈ s.lineStarts.toList := by
    rw [← getElem_toList_lineStarts h]
    exact List.getElem_mem _
  have hlt := lineStart_lt_lineStart hpos h
  rcases mem_lineStarts_iff.mp hmem with hzero | hlineFeed
  · omega
  · exact hlineFeed

/-- A line that does not start the text has a line feed in front of it. -/
theorem lineFeed_of_lineStart_pos (h : line < s.lineCount) (hpos : 0 < s.lineStart line) :
    charAt s (s.lineStart line - 1) = '\n' := by
  have hline : 0 < line := by
    apply Nat.pos_of_ne_zero
    rintro rfl
    rw [lineStart_zero] at hpos
    exact absurd hpos (Nat.lt_irrefl 0)
  obtain ⟨i, hi, heq⟩ := exists_lineFeed_of_lineStart h hline
  rw [heq]
  exact hi

/-- A line starts behind every line feed. -/
theorem exists_lineStart_of_lineFeed (h : charAt s offset = '\n') :
    ∃ line, line < s.lineCount ∧ s.lineStart line = offset + 1 := by
  have hmem : offset + 1 ∈ s.lineStarts.toList := mem_lineStarts_iff.mpr (.inr ⟨offset, h, rfl⟩)
  obtain ⟨line, hline, heq⟩ := List.mem_iff_getElem.mp hmem
  exact ⟨line, hline, by rw [← getElem_toList_lineStarts hline, heq]⟩

/-! ## The line of an offset -/

/-- Halving keeps a line that starts at or before the offset below one that starts behind it. -/
theorem searchLine_bounds {starts : Array Nat} {low high : Nat} (h : low < high)
    (hlow : starts.getD low 0 ≤ offset) :
    searchLine starts offset low high < high ∧
      starts.getD (searchLine starts offset low high) 0 ≤ offset ∧
      (searchLine starts offset low high + 1 < high →
        offset < starts.getD (searchLine starts offset low high + 1) 0) := by
  fun_induction searchLine starts offset low high with
  | case1 low high hlt middle hle ih =>
    exact ih (by omega) hle
  | case2 low high hlt middle hnle ih =>
    obtain ⟨hbelow, hat, hnext⟩ := ih (by omega) hlow
    refine ⟨by omega, hat, fun _ => ?_⟩
    -- The next line is still below the middle, or it is the middle itself.
    by_cases heq : searchLine starts offset low middle + 1 = middle
    · rw [heq]
      exact Nat.lt_of_not_le hnle
    · exact hnext (by omega)
  | case3 low high hge =>
    exact ⟨h, hlow, fun hlt => absurd hlt hge⟩

/-- An offset has a line, which starts at or before it, and the next one starts behind it. -/
theorem lineOf_bounds (s : Snapshot) (offset : Nat) :
    s.lineOf offset < s.lineCount ∧ s.lineStart (s.lineOf offset) ≤ offset ∧
      (s.lineOf offset + 1 < s.lineCount → offset < s.lineStart (s.lineOf offset + 1)) := by
  apply searchLine_bounds s.lineCount_pos
  rw [← lineStart, lineStart_zero]
  exact Nat.zero_le _

theorem lineOf_lt (s : Snapshot) (offset : Nat) : s.lineOf offset < s.lineCount :=
  (s.lineOf_bounds offset).1

theorem lineStart_lineOf_le (s : Snapshot) (offset : Nat) :
    s.lineStart (s.lineOf offset) ≤ offset :=
  (s.lineOf_bounds offset).2.1

/-- The line of an offset is the last one that starts at or before it. -/
theorem le_lineOf_iff (h : line < s.lineCount) :
    line ≤ s.lineOf offset ↔ s.lineStart line ≤ offset := by
  constructor
  · intro hle
    exact Nat.le_trans (lineStart_le_lineStart hle (s.lineOf_lt offset))
      (s.lineStart_lineOf_le offset)
  · intro hle
    apply Nat.le_of_not_lt
    intro hlt
    have hnext := (s.lineOf_bounds offset).2.2 (Nat.lt_of_le_of_lt hlt h)
    have hmono : s.lineStart (s.lineOf offset + 1) ≤ s.lineStart line :=
      lineStart_le_lineStart hlt h
    omega

theorem lineOf_le_lineOf {offset' : Nat} (h : offset ≤ offset') :
    s.lineOf offset ≤ s.lineOf offset' :=
  (le_lineOf_iff (s.lineOf_lt offset)).mpr (Nat.le_trans (s.lineStart_lineOf_le offset) h)

/-! ## Contents of lines -/

/-- A line has a span if there is such a line. -/
theorem lineSpan?_eq (h : line < s.lineCount) :
    s.lineSpan? line = some ⟨s.lineStart line, s.lineStop line⟩ := by
  rw [lineSpan?, getElem?_lineStarts h, Option.map_some, lineStop]
  by_cases hnext : line + 1 < s.lineCount
  · rw [getElem?_lineStarts hnext, if_pos hnext]
  · have hnone : s.lineStarts[line + 1]? = none := Array.getElem?_eq_none (Nat.le_of_not_lt hnext)
    rw [hnone, if_neg hnext]

/-- No other line has one, and a line has only this. -/
theorem lineSpan?_eq_some_iff {span : Span} :
    s.lineSpan? line = some span ↔
      line < s.lineCount ∧ span = ⟨s.lineStart line, s.lineStop line⟩ := by
  constructor
  · intro h
    by_cases hline : line < s.lineCount
    · rw [lineSpan?_eq hline] at h
      exact ⟨hline, (Option.some.inj h).symm⟩
    · have hnone : s.lineStarts[line]? = none := Array.getElem?_eq_none (Nat.le_of_not_lt hline)
      rw [lineSpan?, hnone] at h
      cases h
  · rintro ⟨hline, rfl⟩
    exact lineSpan?_eq hline

theorem lineSpan?_eq_none_iff : s.lineSpan? line = none ↔ s.lineCount ≤ line := by
  rw [lineSpan?, Option.map_eq_none_iff, Array.getElem?_eq_none_iff]
  rfl

/-- The last line goes to the end of the text. -/
theorem lineStop_last (h : s.lineCount ≤ line + 1) : s.lineStop line = s.length := by
  rw [lineStop, if_neg (Nat.not_lt.mpr h)]

/-- The content of a line ends where its line break starts, be it LF or CRLF. -/
theorem contentEnd_bounds {start lineFeed : Nat} (hle : start ≤ lineFeed)
    (h : charAt s lineFeed = '\n') :
    start ≤ s.contentEnd start lineFeed ∧ 0 < lineBreakLength s (s.contentEnd start lineFeed) ∧
      s.contentEnd start lineFeed + lineBreakLength s (s.contentEnd start lineFeed) =
        lineFeed + 1 := by
  unfold contentEnd
  by_cases hr : start < lineFeed ∧ charAt s (lineFeed - 1) = '\r'
  · have hbreak : lineBreakLength s (lineFeed - 1) = 2 := by
      rw [lineBreakLength, if_neg (by rw [hr.2]; decide), if_pos]
      rw [Nat.sub_add_cancel (by omega)]
      exact ⟨hr.2, h⟩
    rw [if_pos hr, hbreak]
    omega
  · rw [if_neg hr, lineBreakLength_of_lineFeed h]
    exact ⟨hle, Nat.one_pos, rfl⟩

/-- One line break lies between a line and the next one. -/
theorem lineStop_add_lineBreakLength (h : line + 1 < s.lineCount) :
    s.lineStart line ≤ s.lineStop line ∧ 0 < lineBreakLength s (s.lineStop line) ∧
      s.lineStop line + lineBreakLength s (s.lineStop line) = s.lineStart (line + 1) := by
  obtain ⟨i, hi, heq⟩ := exists_lineFeed_of_lineStart h (Nat.succ_pos _)
  have hlt : s.lineStart line < s.lineStart (line + 1) :=
    lineStart_lt_lineStart (Nat.lt_succ_self line) h
  rw [lineStop, if_pos h, heq, Nat.add_sub_cancel]
  exact contentEnd_bounds (by omega) hi

/-- A line that ends before the text does ends with a line break. -/
theorem lineBreakLength_lineStop_pos (h : s.lineStop line < s.length) :
    0 < lineBreakLength s (s.lineStop line) := by
  -- The last line ends with the text, so this is not the last one.
  have hnext : line + 1 < s.lineCount := by
    apply Nat.lt_of_not_le
    intro hlast
    rw [lineStop_last hlast] at h
    exact absurd h (Nat.lt_irrefl _)
  exact (lineStop_add_lineBreakLength hnext).2.1

/-- A line starts within the text or at its end, as the line feed before it is in the text. -/
theorem lineStart_le_length (h : line < s.lineCount) : s.lineStart line ≤ s.length := by
  rcases Nat.eq_zero_or_pos line with rfl | hpos
  · rw [lineStart_zero]
    exact Nat.zero_le _
  · obtain ⟨i, hi, heq⟩ := exists_lineFeed_of_lineStart h hpos
    rw [heq]
    apply Nat.lt_of_not_le
    intro hle
    rw [charAt_of_length_le hle] at hi
    exact absurd hi (by decide)

/-- A line may be empty, but it does not end before its start. -/
theorem lineStart_le_lineStop (h : line < s.lineCount) : s.lineStart line ≤ s.lineStop line := by
  by_cases hnext : line + 1 < s.lineCount
  · exact (lineStop_add_lineBreakLength hnext).1
  · rw [lineStop_last (Nat.le_of_not_lt hnext)]
    exact lineStart_le_length h

/-- A line is over before a later one starts, for its line break is in between. -/
theorem lineStop_lt_lineStart (h : line < line') (h' : line' < s.lineCount) :
    s.lineStop line < s.lineStart line' := by
  obtain ⟨-, hpos, heq⟩ := lineStop_add_lineBreakLength (Nat.lt_of_le_of_lt h h')
  have hmono : s.lineStart (line + 1) ≤ s.lineStart line' := lineStart_le_lineStart h h'
  omega

theorem lineStop_le_lineStop (h : line ≤ line') (h' : line' < s.lineCount) :
    s.lineStop line ≤ s.lineStop line' := by
  rcases Nat.eq_or_lt_of_le h with rfl | h
  · exact Nat.le_refl _
  · exact Nat.le_trans (Nat.le_of_lt (lineStop_lt_lineStart h h')) (lineStart_le_lineStop h')

theorem lineStop_le_length (h : line < s.lineCount) : s.lineStop line ≤ s.length := by
  have hlast : s.lineStop (s.lineCount - 1) = s.length := lineStop_last (by omega)
  rw [← hlast]
  exact lineStop_le_lineStop (by omega) (by omega)

/-- Characters that no line break parts lie within one line. -/
theorem le_lineStop_lineOf {start stop : Nat} (hlt : start < stop) (hle : stop ≤ s.length)
    (hu : Unbroken s start stop) : stop ≤ s.lineStop (s.lineOf start) := by
  by_cases hnext : s.lineOf start + 1 < s.lineCount
  · obtain ⟨-, hpos, heq⟩ := lineStop_add_lineBreakLength hnext
    have hbefore := (s.lineOf_bounds start).2.2 hnext
    apply Nat.le_of_not_lt
    intro hstop
    by_cases hstart : start ≤ s.lineStop (s.lineOf start)
    · have hzero := hu _ hstart hstop
      omega
    -- The characters would start with the LF of a CRLF.
    · have hlineFeed := lineFeed_of_lineBreakLength_pos hpos
      have hshort := lineBreakLength_le s (s.lineStop (s.lineOf start))
      have heq' : s.lineStop (s.lineOf start) +
          lineBreakLength s (s.lineStop (s.lineOf start)) - 1 = start := by
        omega
      rw [heq'] at hlineFeed
      have hzero := hu start (Nat.le_refl _) hlt
      rw [lineBreakLength_of_lineFeed hlineFeed] at hzero
      exact absurd hzero Nat.one_ne_zero
  · rw [lineStop_last (Nat.le_of_not_lt hnext)]
    exact hle

/-- A line before a line break ends where the break starts, or before. -/
theorem contentEnd_le_of_lineBreak {start i : Nat} (hle : start ≤ i)
    (h : 0 < lineBreakLength s i) : s.contentEnd start (i + lineBreakLength s i - 1) ≤ i := by
  unfold lineBreakLength at h ⊢
  split
  · rw [Nat.add_sub_cancel, contentEnd]
    split
    · exact Nat.sub_le _ _
    · exact Nat.le_refl _
  · next hc =>
    rw [if_neg hc] at h
    split
    · next hr =>
      have hcut : s.contentEnd start (i + 1) = i := by
        rw [contentEnd, if_pos ⟨Nat.lt_succ_of_le hle, hr.1⟩, Nat.add_sub_cancel]
      exact Nat.le_of_eq hcut
    · next hr =>
      rw [if_neg hr] at h
      exact absurd h (Nat.lt_irrefl 0)

/-- No line break lies within a line. -/
theorem unbroken_line (h : line < s.lineCount) :
    Unbroken s (s.lineStart line) (s.lineStop line) := by
  intro i hstart hstop
  apply Nat.eq_zero_of_not_pos
  intro hpos
  -- A line starts behind the break. The line after the present one is no later than that.
  obtain ⟨m, hm, heq⟩ := exists_lineStart_of_lineFeed (lineFeed_of_lineBreakLength_pos hpos)
  have hlt : line < m := by
    apply Nat.lt_of_not_le
    intro hle
    have hmono := lineStart_le_lineStart hle h
    omega
  have hbetween : s.lineStop line < s.lineStart (line + 1) :=
    lineStop_lt_lineStart (Nat.lt_succ_self line) (Nat.lt_of_le_of_lt hlt hm)
  have hnext : s.lineStart (line + 1) ≤ s.lineStart m := lineStart_le_lineStart hlt hm
  have hshort := lineBreakLength_le s i
  have hstart' : s.lineStart (line + 1) - 1 = i + lineBreakLength s i - 1 := by
    omega
  have hle := contentEnd_le_of_lineBreak hstart hpos
  rw [lineStop, if_pos (Nat.lt_of_le_of_lt hlt hm), hstart'] at hstop
  omega

end Snapshot

end OdinSyntax
