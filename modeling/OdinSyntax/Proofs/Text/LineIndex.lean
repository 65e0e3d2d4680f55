import Mathlib.Data.List.Count
import OdinSyntax.Proofs.Text.Encoding
import OdinSyntax.Proofs.Text.Lines

/-!
# The line index

The index of a snapshot is made in one pass over the characters. In ASCII it may as well be made by
a search for the byte of a line feed (`startsBehind`). This module says what the index tells of the
text, with no reference to how it is made or searched.

A `LineCut` is a text cut around one of its lines: what lies before the line, its content, its line
break and what lies behind. Every line has a cut (`exists_lineCut`), and the index gives the bounds
of its content (`LineCut.lineSpan?_eq`). The number of a line is the number of line feeds before it,
so the line of an offset is the number of line feeds before the offset (`lineOf_eq_count`).
-/

namespace OdinSyntax

open Source

variable {chars before rest : List Char} {line offset : Nat}

/-! ## Searching for line feeds -/

/-- The start of the first line, and the offset behind each unit that is a line feed. The units are
the characters of a text or, in ASCII, its bytes. -/
def startsBehind {α : Type} [BEq α] (lineFeed : α) (units : List α) : List Nat :=
  0 :: (units.idxsOf lineFeed).map fun i => min (i + 1) maxOffset

theorem startsFrom_eq_map (offset : Nat) (chars : List Char) :
    startsFrom offset chars = (chars.idxsOf '\n' offset).map (· + 1) := by
  induction chars generalizing offset with
  | nil => rfl
  | cons c rest ih =>
    rw [startsFrom, List.idxsOf_cons, ih]
    by_cases hc : c = '\n' <;> simp [hc]

theorem length_startsFrom (offset : Nat) (chars : List Char) :
    (startsFrom offset chars).length = chars.count '\n' := by
  induction chars generalizing offset with
  | nil => rfl
  | cons c rest ih =>
    rw [startsFrom, List.count_cons]
    by_cases hc : c = '\n' <;> simp [hc, ih]

/-- The starts of a text are those of its first part and, moved behind it, those of its second part.
-/
theorem startsFrom_append (offset : Nat) (before rest : List Char) :
    startsFrom offset (before ++ rest) =
      startsFrom offset before ++ startsFrom (offset + before.length) rest := by
  induction before generalizing offset with
  | nil => rfl
  | cons c before ih =>
    rw [List.cons_append, startsFrom, startsFrom, ih, List.length_cons,
      show offset + 1 + before.length = offset + (before.length + 1) by omega]
    split <;> rfl

/-- No start lies behind the end of the text, so cutting the starts off changes nothing. -/
theorem startsBehind_lineFeed (h : chars.length ≤ maxOffset) :
    startsBehind '\n' chars = 0 :: startsFrom 0 chars := by
  rw [startsBehind, startsFrom_eq_map]
  congr 1
  apply List.map_congr_left
  intro i hi
  have hlt : i + 1 ∈ startsFrom 0 chars := by
    rw [startsFrom_eq_map]
    exact List.mem_map_of_mem hi
  obtain ⟨j, hj, heq⟩ := mem_startsFrom_iff.mp hlt
  have hbound : j < chars.length := (List.getElem?_eq_some_iff.mp hj).1
  exact Nat.min_eq_left (by omega)

/-- A search in a list of images finds what a search in the list finds. -/
theorem idxsOf_map {α β : Type} [BEq α] [LawfulBEq α] [BEq β] [LawfulBEq β] {f : α → β} {a : α}
    {b : β} {units : List α} (h : ∀ c ∈ units, f c = b ↔ c = a) (n : Nat) :
    (units.map f).idxsOf b n = units.idxsOf a n := by
  induction units generalizing n with
  | nil => rfl
  | cons c units ih =>
    have hc : (f c == b) = (c == a) := by
      rw [Bool.eq_iff_iff, beq_iff_eq, beq_iff_eq, h c List.mem_cons_self]
    rw [List.map_cons, List.idxsOf_cons, List.idxsOf_cons, hc,
      ih (fun c hc => h c (List.mem_cons_of_mem _ hc))]

/-- In ASCII, the byte of a line feed is that of no other character. -/
theorem lineFeed_iff_of_isAscii {c : Char} (h : isAscii c = true) :
    c.val.toUInt8 = 10 ↔ c = '\n' := by
  have hsmall : c.val.toNat < 128 := of_decide_eq_true h
  rw [← Char.toNat_inj, ← UInt8.toNat_inj, UInt32.toNat_toUInt8, Nat.mod_eq_of_lt (by omega)]
  rfl

/-- In ASCII a search for the byte of a line feed finds the same starts. -/
theorem startsBehind_byte (h : chars.all isAscii = true) :
    startsBehind 10 chars.utf8Encode.data.toList = startsBehind '\n' chars := by
  rw [startsBehind, utf8Encode_of_isAscii h, idxsOf_map (a := '\n')]
  · rfl
  · exact fun c hc => lineFeed_iff_of_isAscii (List.all_eq_true.mp h c hc)

/-! ## Texts cut around a line -/

/-- How a line ends: its content, its line break and what is behind. -/
inductive LineEnd : List Char → List Char → List Char → Prop
  /-- The last line has no line break. -/
  | last (content : List Char) : LineEnd content [] []
  /-- A CR before the line feed would be part of the line break. -/
  | lineFeed {content : List Char} (behind : List Char) (h : content.getLast? ≠ some '\r') :
    LineEnd content ['\n'] behind
  | crlf (content behind : List Char) : LineEnd content ['\r', '\n'] behind

/-- A text that is cut around its line number `line`, counted from zero. -/
structure LineCut (chars : List Char) (line : Nat) where
  before : List Char
  content : List Char
  lineBreak : List Char
  behind : List Char
  chars_eq : chars = before ++ (content ++ (lineBreak ++ behind))
  /-- A line feed ends each of the lines before. -/
  count_before : before.count '\n' = line
  before_eq : before = [] ∨ ∃ front, before = front ++ ['\n']
  lineFeed_not_mem : '\n' ∉ content
  lineEnd : LineEnd content lineBreak behind

namespace LineCut

/-- Where the line starts. -/
def start (cut : LineCut chars line) : Nat :=
  cut.before.length

/-- Where its content ends. -/
def stop (cut : LineCut chars line) : Nat :=
  cut.start + cut.content.length

/-- Where its line break ends. -/
def next (cut : LineCut chars line) : Nat :=
  cut.stop + cut.lineBreak.length

end LineCut

/-- What is before a line, be it followed by a line or by the end of the text. -/
theorem exists_before (h : line ≤ chars.count '\n') :
    ∃ before rest, before ++ rest = chars ∧ before.count '\n' = line ∧
      (before = [] ∨ ∃ front, before = front ++ ['\n']) := by
  induction chars generalizing line with
  | nil =>
    obtain rfl := Nat.eq_zero_of_le_zero h
    exact ⟨[], [], rfl, rfl, .inl rfl⟩
  | cons c chars ih =>
    cases line with
    | zero => exact ⟨[], c :: chars, rfl, rfl, .inl rfl⟩
    | succ line =>
      by_cases hc : c = '\n'
      · subst hc
        rw [List.count_cons_self, Nat.add_le_add_iff_right] at h
        obtain ⟨before, rest, rfl, hcount, hbefore⟩ := ih h
        refine ⟨'\n' :: before, rest, rfl, by rw [List.count_cons_self, hcount], .inr ?_⟩
        rcases hbefore with rfl | ⟨front, rfl⟩
        · exact ⟨[], rfl⟩
        · exact ⟨'\n' :: front, rfl⟩
      · rw [List.count_cons_of_ne hc] at h
        obtain ⟨before, rest, rfl, hcount, hbefore⟩ := ih h
        refine ⟨c :: before, rest, rfl, by rw [List.count_cons_of_ne hc, hcount], .inr ?_⟩
        -- There is a line feed among the characters, so they are not none.
        rcases hbefore with rfl | ⟨front, rfl⟩
        · cases hcount
        · exact ⟨c :: front, rfl⟩

/-- The first line of a text. -/
theorem exists_content (rest : List Char) :
    ∃ content lineBreak behind, rest = content ++ (lineBreak ++ behind) ∧ '\n' ∉ content ∧
      LineEnd content lineBreak behind := by
  by_cases hmem : '\n' ∈ rest
  · obtain ⟨content, behind, rfl, hcontent⟩ := List.eq_append_cons_of_mem hmem
    -- A CR before the line feed goes with it, so the content is what is before both.
    by_cases hlast : content.getLast? = some '\r'
    · obtain ⟨front, rfl⟩ := List.getLast?_eq_some_iff.mp hlast
      refine ⟨front, ['\r', '\n'], behind, by simp, ?_, .crlf front behind⟩
      exact fun h => hcontent (List.mem_append_left _ h)
    · exact ⟨content, ['\n'], behind, rfl, hcontent, .lineFeed behind hlast⟩
  · exact ⟨rest, [], [], by simp, hmem, .last rest⟩

/-- A text can be cut around each of its lines. -/
theorem nonempty_lineCut (h : line ≤ chars.count '\n') : Nonempty (LineCut chars line) := by
  obtain ⟨before, rest, rfl, hcount, hbefore⟩ := exists_before h
  obtain ⟨content, lineBreak, behind, rfl, hcontent, hend⟩ := exists_content rest
  exact ⟨⟨before, content, lineBreak, behind, rfl, hcount, hbefore, hcontent, hend⟩⟩

/-- A line starts behind what is before it. -/
theorem getElem?_starts (rest : List Char) (h : before = [] ∨ ∃ front, before = front ++ ['\n']) :
    (0 :: startsFrom 0 (before ++ rest))[before.count '\n']? = some before.length := by
  rcases h with rfl | ⟨front, rfl⟩
  · rfl
  · have hlength : (startsFrom 0 front).length = front.count '\n' := length_startsFrom 0 front
    rw [List.append_assoc, startsFrom_append, List.count_append, List.count_singleton_self,
      List.getElem?_cons_succ, List.getElem?_append_right (Nat.le_of_eq hlength), hlength,
      Nat.sub_self, List.length_append]
    simp [startsFrom]

namespace Snapshot

variable {s : Snapshot}

/-- There is one line more than there are line feeds. -/
theorem lineCount_eq_count (s : Snapshot) : s.lineCount = s.chars.toList.count '\n' + 1 := by
  rw [lineCount_eq_length, toList_lineStarts, List.length_cons, length_startsFrom]

/-- Behind a line feed, the index has a line whose number counts the line feeds so far. -/
theorem getElem?_lineStarts_of_before (heq : s.chars.toList = before ++ rest)
    (h : before = [] ∨ ∃ front, before = front ++ ['\n']) :
    s.lineStarts[before.count '\n']? = some before.length := by
  rw [← Array.getElem?_toList, toList_lineStarts, heq, getElem?_starts rest h]

/-- The character between two parts of the text. -/
theorem charAt_of_eq_append {c : Char} (heq : s.chars.toList = before ++ c :: rest) :
    charAt s before.length = c := by
  have hget : charAt s before.length = s.chars.getD before.length sentinel := rfl
  rw [hget, Array.getD_eq_getD_getElem?, ← Array.getElem?_toList, heq,
    List.getElem?_append_right (Nat.le_refl _), Nat.sub_self]
  rfl

end Snapshot

namespace LineCut

open Snapshot

theorem count_content (cut : LineCut chars line) : cut.content.count '\n' = 0 :=
  List.count_eq_zero.mpr cut.lineFeed_not_mem

/-- What is before the next line. -/
theorem exists_before_next (cut : LineCut chars line) (h : cut.lineBreak ≠ []) :
    ∃ front, cut.before ++ (cut.content ++ cut.lineBreak) = front ++ ['\n'] ∧
      front.count '\n' = line := by
  have hcount : (cut.before ++ cut.content).count '\n' = line := by
    rw [List.count_append, cut.count_before, cut.count_content, Nat.add_zero]
  have hend := cut.lineEnd
  generalize cut.lineBreak = lineBreak, cut.behind = behind at h hend ⊢
  cases hend with
  | last => exact absurd rfl h
  | lineFeed behind _ => exact ⟨cut.before ++ cut.content, by simp, hcount⟩
  | crlf behind =>
    refine ⟨cut.before ++ cut.content ++ ['\r'], by simp, ?_⟩
    rw [List.count_append, hcount]
    rfl

variable {s : Snapshot} (hs : s.chars.toList = chars) (cut : LineCut chars line)

include hs

theorem getElem?_lineStarts : s.lineStarts[line]? = some cut.start := by
  have hstart := getElem?_lineStarts_of_before (hs.trans cut.chars_eq) cut.before_eq
  rwa [cut.count_before] at hstart

/-- The next line starts where the line break ends. -/
theorem getElem?_lineStarts_succ (h : cut.lineBreak ≠ []) :
    s.lineStarts[line + 1]? = some cut.next := by
  obtain ⟨front, hfront, hcount⟩ := cut.exists_before_next h
  have heq : s.chars.toList = cut.before ++ (cut.content ++ cut.lineBreak) ++ cut.behind := by
    rw [hs.trans cut.chars_eq, List.append_assoc, List.append_assoc]
  have hnext := getElem?_lineStarts_of_before heq (.inr ⟨front, hfront⟩)
  rw [hfront, List.count_append, hcount, ← hfront, List.length_append, List.length_append,
    ← Nat.add_assoc] at hnext
  exact hnext

/-- A line without a line break is the last one. -/
theorem lineCount_eq (h : cut.lineBreak = []) : s.lineCount = line + 1 ∧ s.length = cut.stop := by
  have heq := hs.trans cut.chars_eq
  have hend := cut.lineEnd
  rw [h] at heq hend
  generalize cut.behind = behind at heq hend
  cases hend
  have hlength : s.length = s.chars.toList.length := Array.length_toList.symm
  rw [lineCount_eq_count, hlength, heq, List.append_nil, List.append_nil, List.count_append,
    List.length_append, cut.count_before, cut.count_content]
  exact ⟨rfl, rfl⟩

/-- The content ends in front of the line break, be it LF or CRLF. -/
theorem contentEnd_eq (h : cut.lineBreak ≠ []) :
    s.contentEnd cut.start (cut.next - 1) = cut.stop := by
  have heq := hs.trans cut.chars_eq
  have hend := cut.lineEnd
  have hstop : cut.stop = cut.before.length + cut.content.length := rfl
  rw [next]
  generalize cut.lineBreak = lineBreak, cut.behind = behind at h heq hend ⊢
  cases hend with
  | last => exact absurd rfl h
  | lineFeed behind hlast =>
    rw [List.length_singleton, Nat.add_sub_cancel, contentEnd, if_neg]
    rintro ⟨hlt, hr⟩
    -- The character before the line feed is the last one of the content, if there is one.
    rcases List.eq_nil_or_concat' cut.content with hnil | ⟨front, c, hfront⟩
    · rw [hstop, hnil] at hlt
      exact absurd hlt (Nat.lt_irrefl _)
    · have heq' : s.chars.toList = (cut.before ++ front) ++ c :: '\n' :: behind := by
        simp [heq, hfront]
      have hc := charAt_of_eq_append heq'
      rw [List.length_append] at hc
      rw [hstop, hfront, List.length_append, List.length_singleton, ← Nat.add_assoc,
        Nat.add_sub_cancel, hc] at hr
      rw [hfront, List.getLast?_concat, hr] at hlast
      exact hlast rfl
  | crlf behind =>
    have heq' : s.chars.toList = (cut.before ++ cut.content) ++ '\r' :: '\n' :: behind := by
      simp [heq]
    have hr := charAt_of_eq_append heq'
    rw [List.length_append] at hr
    show s.contentEnd cut.start (cut.stop + 1) = cut.stop
    rw [contentEnd, Nat.add_sub_cancel, if_pos ⟨by rw [stop]; omega, hr⟩]

/-- The index tells where a line starts, and where its content ends. -/
theorem lineSpan?_eq : s.lineSpan? line = some ⟨cut.start, cut.stop⟩ := by
  rw [lineSpan?, cut.getElem?_lineStarts hs, Option.map_some]
  by_cases h : cut.lineBreak = []
  · obtain ⟨hcount, hlength⟩ := cut.lineCount_eq hs h
    have hnone : s.lineStarts[line + 1]? = none := Array.getElem?_eq_none (Nat.le_of_eq hcount)
    rw [hnone, hlength]
  · rw [cut.getElem?_lineStarts_succ hs h]
    dsimp only
    rw [cut.contentEnd_eq hs h]

/-- The characters of the line are the content of the cut. -/
theorem map_slice_lineSpan? : (s.lineSpan? line).map (slice s) = some cut.content := by
  rw [cut.lineSpan?_eq hs, Option.map_some, slice_eq_drop_take,
    hs.trans cut.chars_eq, stop, start, List.take_length_add_append, List.drop_left, List.take_left]

end LineCut

namespace Snapshot

variable {s : Snapshot}

/-! ## Lines and offsets by number of line feeds -/

/-- A line starts at or before an offset iff its line feeds, one for each line before it, are in
front of the offset. -/
theorem lineStart_le_iff (h : line < s.lineCount) :
    s.lineStart line ≤ offset ↔ line ≤ (s.chars.toList.take offset).count '\n' := by
  obtain ⟨cut⟩ : Nonempty (LineCut s.chars.toList line) := by
    rw [lineCount_eq_count] at h
    exact nonempty_lineCut (Nat.le_of_lt_succ h)
  have hstart : s.lineStart line = cut.before.length :=
    Option.some.inj ((getElem?_lineStarts h).symm.trans (cut.getElem?_lineStarts rfl))
  have hstarts : cut.before <+: s.chars.toList := ⟨_, cut.chars_eq.symm⟩
  rw [hstart]
  constructor
  · intro hle
    have hcount := (List.prefix_take_iff.mpr ⟨hstarts, hle⟩).sublist.count_le '\n'
    rwa [cut.count_before] at hcount
  · intro hle
    apply Nat.le_of_not_lt
    intro hlt
    rcases cut.before_eq with hnil | ⟨front, hfront⟩
    · rw [hnil] at hlt
      exact absurd hlt (Nat.not_lt_zero _)
    -- The last line feed before the line is not before the offset.
    · have hcount : line = front.count '\n' + 1 := by
        rw [← cut.count_before, hfront, List.count_append, List.count_singleton_self]
      have hshort : s.chars.toList.take offset <+: front := by
        rw [hfront, List.length_append, List.length_singleton] at hlt
        apply List.prefix_of_prefix_length_le (List.take_prefix _ _)
          ((List.prefix_append front ['\n']).trans (hfront ▸ hstarts))
        exact Nat.le_trans (List.length_take_le _ _) (Nat.le_of_lt_succ hlt)
      have hfew := hshort.sublist.count_le '\n'
      omega

/-- The line of an offset is the number of line feeds before it. -/
theorem lineOf_eq_count (s : Snapshot) (offset : Nat) :
    s.lineOf offset = (s.chars.toList.take offset).count '\n' := by
  have hcount : (s.chars.toList.take offset).count '\n' < s.lineCount := by
    rw [lineCount_eq_count]
    exact Nat.lt_succ_of_le (List.Sublist.count_le _ (List.take_sublist _ _))
  apply Nat.le_antisymm
  · exact (lineStart_le_iff (s.lineOf_lt offset)).mp (s.lineStart_lineOf_le offset)
  · exact (le_lineOf_iff hcount).mpr ((lineStart_le_iff hcount).mpr (Nat.le_refl _))

/-- An offset is before the end of its line's break. -/
theorem lt_lineStop_add_lineBreakLength (h : offset < s.length) :
    offset < s.lineStop (s.lineOf offset) + lineBreakLength s (s.lineStop (s.lineOf offset)) := by
  by_cases hnext : s.lineOf offset + 1 < s.lineCount
  · rw [(lineStop_add_lineBreakLength hnext).2.2]
    exact (s.lineOf_bounds offset).2.2 hnext
  · rw [lineStop_last (Nat.le_of_not_lt hnext)]
    exact Nat.lt_of_lt_of_le h (Nat.le_add_right _ _)

/-! ## Checked queries -/

/-- The difference of two offsets, which must not be negative. -/
def sub? (m n : Nat) : Option Nat :=
  if n ≤ m then some (m - n) else none

/-- Where the content of the line at `start` ends if the next one starts at `next`. The subtractions
and the read are checked. -/
def contentEnd? (s : Snapshot) (start next : Nat) : Option Nat := do
  let lineFeed ← sub? next 1
  if start < lineFeed then
    let last ← sub? lineFeed 1
    let c ← s.chars[last]?
    return if c = '\r' then last else lineFeed
  else
    return lineFeed

/-- The queries stay within the text. -/
theorem contentEnd?_eq {start next : Nat} (h : s.lineStarts[line + 1]? = some next) :
    s.contentEnd? start next = some (s.contentEnd start (next - 1)) := by
  have hline : line + 1 < s.lineCount := (Array.getElem?_eq_some_iff.mp h).1
  obtain rfl : next = s.lineStart (line + 1) :=
    Option.some.inj (h.symm.trans (getElem?_lineStarts hline))
  have hpos : 1 ≤ s.lineStart (line + 1) :=
    Nat.lt_of_le_of_lt (Nat.zero_le _) (lineStart_lt_lineStart (Nat.succ_pos line) hline)
  have hle : s.lineStart (line + 1) ≤ s.chars.size := lineStart_le_length hline
  generalize s.lineStart (line + 1) = next at hpos hle
  rw [contentEnd?, sub?, if_pos hpos, contentEnd]
  by_cases hlt : start < next - 1
  · have hlast : next - 1 - 1 < s.chars.size := by omega
    have hget : charAt s (next - 1 - 1) = s.chars[next - 1 - 1] := by
      show s.chars.getD (next - 1 - 1) sentinel = s.chars[next - 1 - 1]
      simp [hlast]
    have hsub : sub? (next - 1) 1 = some (next - 1 - 1) := if_pos (by omega)
    simp [hlt, hsub, hget, hlast]
  · simp [hlt]

/-! ## What the index tells -/

/-- What the line index of a snapshot tells of its text. -/
structure LineIndexed (text : String) (s : Snapshot) : Prop where
  /-- The index is that of a search for line feeds, in the bytes of an ASCII text too. -/
  lineStarts_eq : s.lineStarts.toList = startsBehind '\n' text.toList
  lineStarts_eq_bytes : text.toList.all isAscii = true →
    s.lineStarts.toList = startsBehind 10 text.toUTF8.data.toList
  sorted : s.lineStarts.toList.Pairwise (· < ·)
  lineCount_eq : s.lineCount = 1 + text.toList.count '\n'
  lineCount_le : s.lineCount ≤ maxOffset
  lineOf_eq : ∀ offset, s.lineOf offset = (text.toList.take (min offset text.length)).count '\n'
  lineOf_lt : ∀ offset, s.lineOf offset < s.lineCount
  lineSpan_isSome : ∀ line, (s.lineSpan? line).isSome = true ↔ line < s.lineCount
  /-- A line has the bounds at which the text can be cut around it. -/
  lineSpan_eq : ∀ line < s.lineCount, ∃ cut : LineCut text.toList line,
    s.lineSpan? line = some ⟨cut.start, cut.stop⟩
  /-- The lines and their line breaks follow one another from the start of the text to its end. -/
  first_start : (s.lineSpan? 0).map Span.start = some 0
  next_start : ∀ line span next, s.lineSpan? line = some span →
    s.lineSpan? (line + 1) = some next →
      span.start ≤ span.stop ∧ next.start = span.stop + lineBreakLength s span.stop
  last_stop : (s.lineSpan? (s.lineCount - 1)).map Span.stop = some text.length
  /-- An offset is in the line that it belongs to, or in its line break. -/
  within_line : ∀ offset < text.length, ∃ span, s.lineSpan? (s.lineOf offset) = some span ∧
    span.start ≤ offset ∧ offset < span.stop + lineBreakLength s span.stop
  /-- No read leaves the text, and no offset gets negative. -/
  contentEnd_eq : ∀ line start next, s.lineStarts[line]? = some start →
    s.lineStarts[line + 1]? = some next →
      s.contentEnd? start next = some (s.contentEnd start (next - 1))

/-- **What the line index tells.** A text has one line more than line feeds, and the line of an
offset is the number of line feeds before it. Every line has the bounds of a cut of the text, and
the lines follow one another. -/
theorem lineIndexed_ofString (text : String) (h : text.length < maxOffset) :
    LineIndexed text (ofString text) := by
  -- The fields speak of the string, the lemmas of the snapshot's characters: these are the same.
  have hchars : (ofString text).chars.toList = text.toList :=
    toList_chars_ofString (Nat.le_of_lt h)
  have hlength : (ofString text).length = text.length := length_ofString (Nat.le_of_lt h)
  have hstarts : (ofString text).lineStarts.toList = startsBehind '\n' text.toList := by
    rw [toList_lineStarts, hchars, startsBehind_lineFeed]
    rw [String.length_toList]
    exact Nat.le_of_lt h
  constructor
  case lineStarts_eq => exact hstarts
  case lineStarts_eq_bytes =>
    intro hascii
    rw [hstarts, String.toUTF8_eq_toByteArray, ← String.utf8Encode_toList,
      startsBehind_byte hascii]
  case sorted => exact pairwise_lineStarts _
  case lineCount_eq => rw [lineCount_eq_count, hchars, Nat.add_comm]
  case lineCount_le =>
    have hcount : text.toList.count '\n' ≤ text.toList.length := List.count_le_length
    rw [String.length_toList] at hcount
    rw [lineCount_eq_count, hchars]
    omega
  case lineOf_eq =>
    intro offset
    rw [lineOf_eq_count, hchars, List.take_eq_take_min, String.length_toList]
  case lineOf_lt => exact lineOf_lt _
  case lineSpan_isSome =>
    intro line
    rw [Option.isSome_iff_exists]
    constructor
    · rintro ⟨span, hspan⟩
      exact (lineSpan?_eq_some_iff.mp hspan).1
    · exact fun hline => ⟨_, lineSpan?_eq hline⟩
  case lineSpan_eq =>
    intro line hline
    rw [lineCount_eq_count, hchars] at hline
    obtain ⟨cut⟩ := nonempty_lineCut (Nat.le_of_lt_succ hline)
    exact ⟨cut, cut.lineSpan?_eq hchars⟩
  case first_start => rw [lineSpan?_eq (lineCount_pos _), lineStart_zero, Option.map_some]
  case next_start =>
    intro line span next hspan hnext
    obtain ⟨-, rfl⟩ := lineSpan?_eq_some_iff.mp hspan
    obtain ⟨hline, rfl⟩ := lineSpan?_eq_some_iff.mp hnext
    obtain ⟨hle, -, heq⟩ := lineStop_add_lineBreakLength hline
    exact ⟨hle, heq.symm⟩
  case last_stop =>
    have hpos := lineCount_pos (ofString text)
    rw [lineSpan?_eq (by omega), Option.map_some, lineStop_last (by omega), hlength]
  case within_line =>
    intro offset hoffset
    rw [← hlength] at hoffset
    exact ⟨_, lineSpan?_eq (lineOf_lt _ offset), lineStart_lineOf_le _ offset,
      lt_lineStop_add_lineBreakLength hoffset⟩
  case contentEnd_eq => exact fun line start next _ hnext => contentEnd?_eq hnext

/-- A text with a CR in a line, an empty line and no line break at its end. -/
theorem lineIndexed_ofString_lines :
    let text := "a\r\r\n\n\rb"
    text.length < maxOffset ∧ LineIndexed text (ofString text) ∧
      (ofString text).lineCount = 3 ∧ (ofString text).lineSpan? 0 = some ⟨0, 2⟩ ∧
      (ofString text).lineSpan? 1 = some ⟨4, 4⟩ ∧ (ofString text).lineSpan? 2 = some ⟨5, 7⟩ ∧
      (ofString text).lineOf 4 = 1 := by
  intro text
  have hlength : text.length < maxOffset := by decide
  have hindexed := lineIndexed_ofString text hlength
  have hcount : (ofString text).lineCount = 3 := hindexed.lineCount_eq.trans (by decide +kernel)
  have hline : (ofString text).lineOf 4 = 1 := (hindexed.lineOf_eq 4).trans (by decide +kernel)
  exact ⟨hlength, hindexed, hcount, by decide +kernel, by decide +kernel, by decide +kernel, hline⟩

end Snapshot

end OdinSyntax
