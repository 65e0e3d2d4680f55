import OdinSyntax.Lexeme.Tokens
import OdinSyntax.Proofs.Text.Suffix

/-!
# Extents by offset

The extent of a lexeme is found in the list of characters behind its start. `quotedFrom`, `rawFrom`
and `blockFrom` are the extents of a literal, a raw string and a block comment from any offset
within them. The lemmas say what one step of the scan does to such an extent: it is told by the
character at the offset and by the extent from the next offset on. `headAt` is the lexeme at an
offset.
-/

namespace OdinSyntax

/-- The kind of the pieces of a construct that may extend over several lines. -/
def Shape.pieceKind? : Shape → Option Kind
  | .blockComment _ => some .comment
  | .rawString _ => some .stringLiteral
  | _ => none

namespace Lexeme

open Source

variable {σ : Type} [Source σ]

/-! ## Lines -/

/-- The content of a line is over where its line break starts. -/
theorem lineContent_suffix_of_pos {text : σ} {offset : Nat}
    (h : 0 < lineBreakLength text offset) : lineContent (suffix text offset) = [] := by
  cases hs : suffix text offset with
  | nil => rfl
  | cons c rest =>
    have hb : breakLength (c :: rest) ≠ 0 := by
      rw [← hs, breakLength_suffix]
      omega
    rw [lineContent, if_neg hb]

theorem lineContent_suffix_of_eq_zero {text : σ} {offset : Nat} (hlt : offset < length text)
    (h : lineBreakLength text offset = 0) :
    lineContent (suffix text offset) =
      charAt text offset :: lineContent (suffix text (offset + 1)) := by
  have hb : breakLength (charAt text offset :: suffix text (offset + 1)) = 0 := by
    rw [← suffix_of_lt hlt, breakLength_suffix, h]
  rw [suffix_of_lt hlt, lineContent, if_pos hb]

/-- Nothing is left of a line at its line break and at the end of the text. -/
theorem lineContent_suffix_of_lineEnd {text : σ} {offset : Nat}
    (h : offset < length text → 0 < lineBreakLength text offset) :
    lineContent (suffix text offset) = [] := by
  by_cases hlt : offset < length text
  · exact lineContent_suffix_of_pos (h hlt)
  · rw [suffix_of_length_le (by omega), lineContent]

/-! ## Searches for a closer -/

/-- Whether a closer was found in `rest`, and the number of characters through it, or else to the
end. -/
def extent (rest : List Char) (close? : Option Nat) : Bool × Nat :=
  match close? with
  | some n => (true, n)
  | none => (false, rest.length)

/-- The shape of a construct tells whether its closer was found. -/
theorem closedExtent_eq (shape : Bool → Shape) (rest : List Char) (close? : Option Nat) :
    closedExtent shape rest close? = (shape (extent rest close?).1, (extent rest close?).2) := by
  cases close? <;> rfl

/-- A closer that is found `k` characters later is as much further away. -/
theorem extent_map {rest rest' : List Char} {k : Nat} (h : rest.length = rest'.length + k)
    (close? : Option Nat) :
    extent rest (close?.map (· + k)) = ((extent rest' close?).1, k + (extent rest' close?).2) := by
  cases close? with
  | none => rw [Option.map_none, extent, extent, h, Nat.add_comm]
  | some n => rw [Option.map_some, extent, extent, Nat.add_comm]

theorem length_suffix_eq_add {text : σ} {offset k : Nat} (h : offset + k ≤ length text) :
    (suffix text offset).length = (suffix text (offset + k)).length + k := by
  rw [length_suffix, length_suffix]
  omega

/-! ## Literals on one line -/

/-- Whether a literal that is open at `offset` is closed on its line, and how much further it
extends. -/
def quotedFrom (text : σ) (quote : Char) (offset : Nat) : Bool × Nat :=
  extent (lineContent (suffix text offset)) (closeQuote? quote (lineContent (suffix text offset)))

/-- The extent of a literal, with the reads by offset. -/
theorem quotedExtent_eq (text : σ) (quote : Char) (offset : Nat) :
    quotedExtent quote (suffix text offset) =
      (.quoted (quotedFrom text quote offset).1, (quotedFrom text quote offset).2) := by
  rw [quotedExtent, quotedFrom]
  cases closeQuote? quote (lineContent (suffix text offset)) <;> rfl

section Quoted

variable {text : σ} {quote : Char} {offset : Nat}

/-- A literal is not closed where its line is over. -/
theorem quotedFrom_of_lineEnd (h : offset < length text → 0 < lineBreakLength text offset) :
    quotedFrom text quote offset = (false, 0) := by
  rw [quotedFrom, lineContent_suffix_of_lineEnd h, closeQuote?]
  rfl

theorem quotedFrom_quote (hlt : offset < length text) (hzero : lineBreakLength text offset = 0)
    (hquote : quote ≠ '\\') (hc : charAt text offset = quote) :
    quotedFrom text quote offset = (true, 1) := by
  rw [quotedFrom, lineContent_suffix_of_eq_zero hlt hzero, hc, closeQuote?, if_pos rfl]
  · rfl
  · intro d rest h
    exact absurd h hquote

theorem quotedFrom_of_ne (hlt : offset < length text) (hzero : lineBreakLength text offset = 0)
    (hescape : charAt text offset ≠ '\\') (hc : charAt text offset ≠ quote) :
    quotedFrom text quote offset =
      ((quotedFrom text quote (offset + 1)).1, 1 + (quotedFrom text quote (offset + 1)).2) := by
  rw [quotedFrom, lineContent_suffix_of_eq_zero hlt hzero, closeQuote?, if_neg hc]
  · exact extent_map rfl _
  · intro d rest h
    exact absurd h hescape

/-- A backslash takes the next character of the line with it. -/
theorem quotedFrom_escape (hlt : offset < length text) (hzero : lineBreakLength text offset = 0)
    (hc : charAt text offset = '\\') (hlt' : offset + 1 < length text)
    (hzero' : lineBreakLength text (offset + 1) = 0) :
    quotedFrom text quote offset =
      ((quotedFrom text quote (offset + 2)).1, 2 + (quotedFrom text quote (offset + 2)).2) := by
  rw [quotedFrom, lineContent_suffix_of_eq_zero hlt hzero,
    lineContent_suffix_of_eq_zero hlt' hzero', hc, closeQuote?]
  exact extent_map rfl _

/-- A backslash at the end of the line takes nothing with it. -/
theorem quotedFrom_escape_lineEnd (hlt : offset < length text)
    (hzero : lineBreakLength text offset = 0) (hquote : quote ≠ '\\')
    (hc : charAt text offset = '\\')
    (h : offset + 1 < length text → 0 < lineBreakLength text (offset + 1)) :
    quotedFrom text quote offset = (false, 1) := by
  rw [quotedFrom, lineContent_suffix_of_eq_zero hlt hzero, lineContent_suffix_of_lineEnd h, hc,
    closeQuote?, if_neg hquote.symm, closeQuote?]
  · rfl
  · intro d rest _ h
    cases h

end Quoted

/-! ## Raw strings -/

/-- Whether a raw string that is open at `offset` is closed, and how much further it extends. -/
def rawFrom (text : σ) (offset : Nat) : Bool × Nat :=
  extent (suffix text offset) (closeRaw? (suffix text offset))

section Raw

variable {text : σ} {offset : Nat}

/-- A raw string is not closed where the text is over. -/
theorem rawFrom_of_length_le (h : length text ≤ offset) : rawFrom text offset = (false, 0) := by
  rw [rawFrom, suffix_of_length_le h]
  rfl

theorem rawFrom_backtick (hlt : offset < length text) (hc : charAt text offset = '\x60') :
    rawFrom text offset = (true, 1) := by
  rw [rawFrom, suffix_of_lt hlt, hc, closeRaw?, List.findIdx?_cons]
  rfl

theorem rawFrom_of_ne (hlt : offset < length text) (hc : charAt text offset ≠ '\x60') :
    rawFrom text offset =
      ((rawFrom text (offset + 1)).1, 1 + (rawFrom text (offset + 1)).2) := by
  have hfind : closeRaw? (suffix text offset) =
      (closeRaw? (suffix text (offset + 1))).map (· + 1) := by
    have hc' : (charAt text offset == '\x60') = false := beq_eq_false_iff_ne.mpr hc
    rw [suffix_of_lt hlt, closeRaw?, closeRaw?, List.findIdx?_cons, hc']
    rfl
  rw [rawFrom, hfind]
  exact extent_map (length_suffix_eq_add hlt) _

/-- A line break closes no raw string. -/
theorem rawFrom_break (hlt : offset < length text) :
    rawFrom text offset =
      ((rawFrom text (offset + lineBreakLength text offset)).1,
        lineBreakLength text offset + (rawFrom text (offset + lineBreakLength text offset)).2) := by
  have hle := add_lineBreakLength_le (Nat.le_of_lt hlt)
  unfold lineBreakLength at hle ⊢
  split
  · next hc => exact rawFrom_of_ne hlt (by rw [hc]; decide)
  · next hc =>
    split
    · next hr =>
      rw [if_neg hc, if_pos hr] at hle
      rw [rawFrom_of_ne hlt (by rw [hr.1]; decide), rawFrom_of_ne hle (by rw [hr.2]; decide),
        ← Nat.add_assoc]
    · rw [Nat.add_zero, Nat.zero_add]

end Raw

/-! ## Block comments -/

/-- Whether a block comment in which `depth` closers are awaited at `offset` is closed, and how much
further it extends. -/
def blockFrom (text : σ) (depth offset : Nat) : Bool × Nat :=
  extent (suffix text offset) (closeBlock? depth (suffix text offset))

section Block

variable {text : σ} {depth offset : Nat}

theorem blockFrom_zero (text : σ) (offset : Nat) : blockFrom text 0 offset = (true, 0) := by
  rw [blockFrom, closeBlock?]
  rfl

theorem blockFrom_of_length_le (h : length text ≤ offset) :
    blockFrom text (depth + 1) offset = (false, 0) := by
  rw [blockFrom, suffix_of_length_le h, closeBlock?]
  rfl

/-- An opener within a comment makes it await one closer more. -/
theorem blockFrom_open (hlt : offset + 1 < length text)
    (h : charAt text offset = '/' ∧ charAt text (offset + 1) = '*') :
    blockFrom text (depth + 1) offset =
      ((blockFrom text (depth + 2) (offset + 2)).1,
        2 + (blockFrom text (depth + 2) (offset + 2)).2) := by
  have hclose : closeBlock? (depth + 1) (suffix text offset) =
      (closeBlock? (depth + 2) (suffix text (offset + 2))).map (· + 2) := by
    rw [suffix_of_lt (by omega), suffix_of_lt hlt, h.1, h.2, closeBlock?]
  rw [blockFrom, hclose]
  exact extent_map (length_suffix_eq_add hlt) _

/-- A closer within a comment makes it await one closer less. -/
theorem blockFrom_close (hlt : offset + 1 < length text)
    (h : charAt text offset = '*' ∧ charAt text (offset + 1) = '/') :
    blockFrom text (depth + 1) offset =
      ((blockFrom text depth (offset + 2)).1, 2 + (blockFrom text depth (offset + 2)).2) := by
  have hclose : closeBlock? (depth + 1) (suffix text offset) =
      (closeBlock? depth (suffix text (offset + 2))).map (· + 2) := by
    rw [suffix_of_lt (by omega), suffix_of_lt hlt, h.1, h.2, closeBlock?]
  rw [blockFrom, hclose]
  exact extent_map (length_suffix_eq_add hlt) _

/-- A character that begins no delimiter leaves the number of closers awaited as it is. -/
theorem blockFrom_of_ne (hlt : offset < length text)
    (hopen : ¬ (charAt text offset = '/' ∧ charAt text (offset + 1) = '*'))
    (hclose : ¬ (charAt text offset = '*' ∧ charAt text (offset + 1) = '/')) :
    blockFrom text (depth + 1) offset =
      ((blockFrom text (depth + 1) (offset + 1)).1,
        1 + (blockFrom text (depth + 1) (offset + 1)).2) := by
  have hnext := headD_suffix text (offset + 1)
  have hskip : closeBlock? (depth + 1) (suffix text offset) =
      (closeBlock? (depth + 1) (suffix text (offset + 1))).map (· + 1) := by
    rw [suffix_of_lt hlt, closeBlock?]
    · intro rest hc hrest
      rw [hrest] at hnext
      exact hopen ⟨hc, hnext.symm⟩
    · intro rest hc hrest
      rw [hrest] at hnext
      exact hclose ⟨hc, hnext.symm⟩
  rw [blockFrom, hskip]
  exact extent_map (length_suffix_eq_add hlt) _

/-- A line break is part of no delimiter. -/
theorem blockFrom_break (hlt : offset < length text) :
    blockFrom text (depth + 1) offset =
      ((blockFrom text (depth + 1) (offset + lineBreakLength text offset)).1,
        lineBreakLength text offset +
          (blockFrom text (depth + 1) (offset + lineBreakLength text offset)).2) := by
  have hle := add_lineBreakLength_le (Nat.le_of_lt hlt)
  have hskip : ∀ {o : Nat} {c : Char}, o < length text → charAt text o = c → c ≠ '/' → c ≠ '*' →
      blockFrom text (depth + 1) o =
        ((blockFrom text (depth + 1) (o + 1)).1, 1 + (blockFrom text (depth + 1) (o + 1)).2) := by
    rintro o c ho rfl hslash hstar
    exact blockFrom_of_ne ho (fun h => hslash h.1) fun h => hstar h.1
  unfold lineBreakLength at hle ⊢
  split
  · next hc => exact hskip hlt hc (by decide) (by decide)
  · next hc =>
    split
    · next hr =>
      rw [if_neg hc, if_pos hr] at hle
      rw [hskip hlt hr.1 (by decide) (by decide), hskip hle hr.2 (by decide) (by decide),
        ← Nat.add_assoc]
    · simp only [Nat.add_zero, Nat.zero_add]

end Block

/-! ## Last characters -/

/-- The last character of a closed block comment is a slash. -/
theorem slash_suffix_of_closeBlock? {depth n : Nat} {text : List Char} (hdepth : 0 < depth)
    (h : closeBlock? depth text = some n) : ['/'] <:+ text.take n := by
  fun_induction closeBlock? depth text generalizing n with
  | case1 => exact absurd hdepth (Nat.lt_irrefl 0)
  | case2 => cases h
  | case3 depth rest ih =>
    obtain ⟨m, hm, rfl⟩ := Option.map_eq_some_iff.mp h
    exact (ih (Nat.succ_pos _) hm).trans (List.suffix_append ['/', '*'] _)
  | case4 depth rest ih =>
    obtain ⟨m, hm, rfl⟩ := Option.map_eq_some_iff.mp h
    -- The closer is the last one awaited, or the slash is that of a later closer.
    rcases Nat.eq_zero_or_pos depth with rfl | hpos
    · rw [closeBlock?] at hm
      cases hm
      exact List.suffix_append ['*'] ['/']
    · exact (ih hpos hm).trans (List.suffix_append ['*', '/'] _)
  | case5 depth c rest _ _ ih =>
    obtain ⟨m, hm, rfl⟩ := Option.map_eq_some_iff.mp h
    exact (ih (Nat.succ_pos _) hm).trans (List.suffix_append [c] _)

/-- The last character of a closed raw string is a backtick. -/
theorem backtick_suffix_of_closeRaw? {n : Nat} {text : List Char} (h : closeRaw? text = some n) :
    ['\x60'] <:+ text.take n := by
  obtain ⟨i, hi, rfl⟩ := Option.map_eq_some_iff.mp h
  obtain ⟨hlt, hget, -⟩ := List.findIdx?_eq_some_iff_getElem.mp hi
  rw [List.take_succ_eq_append_getElem hlt, beq_iff_eq.mp hget]
  exact List.suffix_append _ _

/-- What a closer was looked for ends with it, or it reaches to the end of the text. -/
theorem exists_of_closedExtent_eq {found : Bool → Shape} {rest : List Char} {close? : Option Nat}
    {shape : Shape} {n : Nat} (h : closedExtent found rest close? = (shape, n)) :
    (∃ closed, shape = found closed) ∧ (close? = some n ∨ n = rest.length) := by
  cases close? with
  | none =>
    cases h
    exact ⟨⟨_, rfl⟩, .inr rfl⟩
  | some m =>
    cases h
    exact ⟨⟨_, rfl⟩, .inl rfl⟩

/-- A construct that may extend over several lines reaches to the end of the text, or its last
character is that of a closer. -/
theorem headExtent_last {c : Char} {rest : List Char} {shape : Shape} {n : Nat}
    (hkind : shape.pieceKind?.isSome) (h : headExtent c rest = (shape, n)) :
    n = rest.length ∨ ∃ d, isPunctuation d = true ∧ [d] <:+ rest.take n := by
  revert h
  fun_cases headExtent c rest with
  | case2 next _ hopen =>
    intro h
    -- The star of the opener is in the text, for the sentinel is none.
    have hrest : rest = next :: rest.tail := by
      cases rest with
      | nil => exact absurd hopen.2 (by decide)
      | cons => rfl
    rcases (exists_of_closedExtent_eq h).2 with hclose | hend
    · obtain ⟨k, hk, rfl⟩ := Option.map_eq_some_iff.mp hclose
      refine .inr ⟨'/', by decide, ?_⟩
      rw [hrest, List.take_succ_cons]
      exact (slash_suffix_of_closeBlock? Nat.one_pos hk).trans (List.suffix_cons _ _)
    · exact .inl hend
  | case6 =>
    intro h
    rcases (exists_of_closedExtent_eq h).2 with hclose | hend
    · exact .inr ⟨'\x60', by decide, backtick_suffix_of_closeRaw? hclose⟩
    · exact .inl hend
  | case5 =>
    intro h
    unfold quotedExtent at h
    split at h <;> cases h <;> cases hkind
  -- All other shapes have no pieces.
  | _ =>
    intro h
    cases h
    cases hkind

/-! ## The lexeme at an offset -/

/-- The shape of a lexeme and how far it extends, by offset. -/
theorem headExtent_suffix {text : σ} {offset : Nat} (hlt : offset < length text) :
    headExtent (charAt text offset) (suffix text (offset + 1)) =
      if 0 < lineBreakLength text offset then (.lineBreak, lineBreakLength text offset - 1)
      else if charAt text offset = '/' ∧ charAt text (offset + 1) = '*' then
        (.blockComment (blockFrom text 1 (offset + 2)).1, 1 + (blockFrom text 1 (offset + 2)).2)
      else if charAt text offset = '*' ∧ charAt text (offset + 1) = '/' then (.strayClose, 1)
      else if charAt text offset = '/' ∧ charAt text (offset + 1) = '/' then
        (.lineComment, 1 + (lineContent (suffix text (offset + 2))).length)
      else if charAt text offset = '"' ∨ charAt text offset = '\'' then
        (.quoted (quotedFrom text (charAt text offset) (offset + 1)).1,
          (quotedFrom text (charAt text offset) (offset + 1)).2)
      else if charAt text offset = '\x60' then
        (.rawString (rawFrom text (offset + 1)).1, (rawFrom text (offset + 1)).2)
      else if isNumberStart (charAt text offset) (charAt text (offset + 1)) then
        (.number, ((suffix text (offset + 1)).takeWhile isNumberPart).length)
      else match operatorLength? (charAt text offset) (charAt text (offset + 1))
          (charAt text (offset + 2)) with
        | some n => (.operator, n - 1)
        | none =>
          if isPunctuation (charAt text offset) then (.punctuation, 0)
          else if isBlank (charAt text offset) then (.blank, 0)
          else (.word, ((suffix text (offset + 1)).takeWhile isWordPart).length) := by
  have hbreak : breakLength (charAt text offset :: suffix text (offset + 1)) =
      lineBreakLength text offset := by
    rw [← suffix_of_lt hlt, breakLength_suffix]
  -- The searches behind an opener start one character later than the list they are given.
  unfold headExtent
  simp only [hbreak, headD_suffix, tail_suffix, quotedExtent_eq, closedExtent_eq]
  congr 1
  split
  · next h =>
    have hlt' : offset + 1 < length text := lt_length_of_not_isBlank (h.2 ▸ isBlank_star)
    rw [extent_map (length_suffix_eq_add hlt') _]
    rfl
  congr 1
  split
  · next h =>
    have hblank : isBlank (charAt text (offset + 1)) = false := h.2 ▸ isBlank_slash
    have hlt' : offset + 1 < length text := lt_length_of_not_isBlank hblank
    have hzero : lineBreakLength text (offset + 1) = 0 :=
      lineBreakLength_eq_zero_of_not_isBlank hblank
    rw [lineContent_suffix_of_eq_zero hlt' hzero, List.length_cons, Nat.add_comm]
  rfl

/-- The lexeme that starts at `offset`, an offset within the text. -/
def headAt (text : σ) (offset : Nat) : Lexeme :=
  head offset (charAt text offset) (suffix text (offset + 1))

/-- A lexeme and what is behind it are the rest of the text. -/
theorem text_append_rest_headAt {text : σ} {offset : Nat} (h : offset < length text) :
    (headAt text offset).text ++ (headAt text offset).rest = suffix text offset := by
  rw [headAt, text_append_rest_head, ← suffix_of_lt h]

/-- What is left behind a lexeme is left from its end on. -/
theorem rest_headAt {text : σ} {offset : Nat} (h : offset < length text) :
    (headAt text offset).rest = suffix text (headAt text offset).span.stop := by
  show _ = suffix text (offset + (headAt text offset).text.length)
  rw [← drop_suffix, ← text_append_rest_headAt h, List.drop_left]

/-- The lexemes from an offset on are the one that starts there and those from its end on. -/
theorem lexemesFrom_suffix {text : σ} {offset : Nat} (h : offset < length text) :
    lexemesFrom offset (suffix text offset) =
      headAt text offset ::
        lexemesFrom (offset + (headAt text offset).text.length)
          (suffix text (offset + (headAt text offset).text.length)) := by
  rw [suffix_of_lt h, lexemesFrom_cons, ← headAt, rest_headAt h]
  rfl

/-- The lexeme at an offset, from its shape and the number of characters behind its first one. -/
theorem headAt_eq {text : σ} {offset n : Nat} {shape : Shape} (hlt : offset < length text)
    (h : headExtent (charAt text offset) (suffix text (offset + 1)) = (shape, n)) :
    headAt text offset =
      ⟨shape, offset, slice text ⟨offset, offset + (n + 1)⟩, suffix text (offset + (n + 1))⟩ := by
  rw [← take_suffix, ← drop_suffix, suffix_of_lt hlt, List.take_succ_cons, List.drop_succ_cons,
    headAt, head, h]

/-- A construct that ends before the text does ends with no line break. -/
theorem lineBreakLength_last {text : σ} {offset n : Nat} {shape : Shape}
    (hext : headExtent (charAt text offset) (suffix text (offset + 1)) = (shape, n))
    (hle : offset + (n + 1) ≤ length text) (hkind : shape.pieceKind?.isSome) :
    offset + (n + 1) = length text ∨ lineBreakLength text (offset + n) = 0 := by
  rcases headExtent_last hkind hext with hn | ⟨d, hd, hlast⟩
  · left
    rw [length_suffix] at hn
    omega
  · right
    rw [take_suffix] at hlast
    have hchar := charAt_of_suffix_slice (by omega) hlast
    rw [Nat.add_right_comm, Nat.add_sub_cancel] at hchar
    rw [← hchar] at hd
    exact lineBreakLength_eq_zero_of_not_isBlank (isBlank_of_isPunctuation hd)

end Lexeme

end OdinSyntax
