import OdinSyntax.Lexeme.Tokens
import OdinSyntax.Proofs.Text.Suffix

/-!
# Pieces by offset

A block comment or raw string is cut at its line breaks. The lemmas here follow the cutting through
a source from offset to offset, as the scan does: up to the next line break nothing happens
(`piecesFrom_skip`), and at a line break one piece ends and the next one starts behind the break
(`piecesFrom_break`).
-/

namespace OdinSyntax

namespace Lexeme

open Source

variable {σ : Type} [Source σ]

/-- There is a piece for the last line, if only an empty one. -/
theorem piecesFrom_ne_nil (start here : Nat) (text : List Char) :
    piecesFrom start here text ≠ [] := by
  fun_induction piecesFrom start here text with
  | case1 => exact List.cons_ne_nil _ _
  | case2 => exact List.cons_ne_nil _ _
  | case3 => exact List.cons_ne_nil _ _
  | case4 _ _ _ _ _ _ ih => exact ih

/-- A character that starts no line break goes to the present piece. -/
theorem piecesFrom_cons {c : Char} {rest : List Char} (start here : Nat)
    (h : breakLength (c :: rest) = 0) :
    piecesFrom start here (c :: rest) = piecesFrom start (here + 1) rest := by
  rw [piecesFrom]
  · rintro rfl
    cases h
  · rintro rest' rfl rfl
    cases h

/-- Line breaks start with blanks. -/
theorem breakLength_of_not_isBlank {c : Char} (rest : List Char) (h : isBlank c = false) :
    breakLength (c :: rest) = 0 := by
  unfold breakLength
  split
  · next heq =>
    obtain rfl := (List.cons.inj heq).1
    cases h
  · next heq =>
    obtain rfl := (List.cons.inj heq).1
    cases h
  · rfl

/-- Without a line feed there is one piece. -/
theorem piecesFrom_of_not_mem {text : List Char} (start here : Nat) (h : '\n' ∉ text) :
    piecesFrom start here text = [⟨start, here + text.length⟩] := by
  fun_induction piecesFrom start here text with
  | case1 => rfl
  | case2 => exact absurd List.mem_cons_self h
  | case3 => exact absurd (List.mem_cons_of_mem _ List.mem_cons_self) h
  | case4 start here c rest _ _ ih =>
    rw [ih fun hrest => h (List.mem_cons_of_mem _ hrest), List.length_cons, Nat.add_right_comm,
      Nat.add_assoc]

/-- The opener of a construct goes to its first piece. -/
theorem piecesFrom_append {opener : List Char} (start here : Nat)
    (h : ∀ c ∈ opener, isBlank c = false) (tail : List Char) :
    piecesFrom start here (opener ++ tail) = piecesFrom start (here + opener.length) tail := by
  induction opener generalizing here with
  | nil => rfl
  | cons c opener ih =>
    have hbreak := breakLength_of_not_isBlank (opener ++ tail) (h c List.mem_cons_self)
    rw [List.cons_append, piecesFrom_cons start here hbreak,
      ih (here + 1) fun d hd => h d (List.mem_cons_of_mem _ hd), List.length_cons, Nat.add_assoc,
      Nat.add_comm 1]

/-- What a lexeme keeps are some of the pieces into which it is cut. -/
theorem mem_piecesFrom_of_mem_pieces {options : Scan.Options} {lexeme : Lexeme} {closed : Bool}
    {piece : Span} (h : piece ∈ lexeme.pieces options closed) :
    piece ∈ piecesFrom lexeme.offset lexeme.offset lexeme.text := by
  have hkept := (List.mem_filter.mp h).1
  split at hkept
  · exact hkept
  · exact (List.dropLast_sublist _).subset hkept

/-- The first piece starts where the construct does, and each later one behind a line feed. -/
theorem start_of_mem_piecesFrom {start here : Nat} {text : List Char} {piece : Span}
    (h : piece ∈ piecesFrom start here text) :
    piece.start = start ∧ here ≤ piece.stop ∨
      ∃ i, text[i]? = some '\n' ∧ piece.start = here + i + 1 := by
  fun_induction piecesFrom start here text with
  | case1 start here =>
    obtain rfl := List.mem_singleton.mp h
    exact .inl ⟨rfl, Nat.le_refl _⟩
  | case2 start here rest ih =>
    rcases List.mem_cons.mp h with rfl | h
    · exact .inl ⟨rfl, Nat.le_refl _⟩
    · rcases ih h with ⟨hstart, -⟩ | ⟨i, hi, hstart⟩
      · exact .inr ⟨0, rfl, hstart⟩
      · exact .inr ⟨i + 1, hi, by omega⟩
  | case3 start here rest ih =>
    rcases List.mem_cons.mp h with rfl | h
    · exact .inl ⟨rfl, Nat.le_refl _⟩
    · rcases ih h with ⟨hstart, -⟩ | ⟨i, hi, hstart⟩
      · exact .inr ⟨1, rfl, hstart⟩
      · exact .inr ⟨i + 2, hi, by omega⟩
  | case4 start here c rest _ _ ih =>
    rcases ih h with ⟨hstart, hstop⟩ | ⟨i, hi, hstart⟩
    · exact .inl ⟨hstart, Nat.le_of_succ_le hstop⟩
    · exact .inr ⟨i + 1, hi, by omega⟩

/-- Where the text has no line break, a slice has none, even if it ends between a CR and its line
feed. -/
theorem breakLength_slice_of_eq_zero {text : σ} {here stop : Nat} (hle : stop ≤ length text)
    (h : lineBreakLength text here = 0) : breakLength (slice text ⟨here, stop⟩) = 0 := by
  by_cases hlt : here < stop
  · obtain ⟨hn, hr⟩ := (lineBreakLength_eq_zero_iff text here).mp h
    rw [slice_of_lt hlt hle]
    unfold breakLength
    split
    · next heq => exact absurd (List.cons.inj heq).1 hn
    · next heq =>
      obtain ⟨hc, hrest⟩ := List.cons.inj heq
      by_cases hlt' : here + 1 < stop
      · rw [slice_of_lt hlt' hle] at hrest
        exact absurd ⟨hc, (List.cons.inj hrest).1⟩ hr
      · rw [slice, Nat.sub_eq_zero_of_le (by dsimp only; omega)] at hrest
        cases hrest
    · rfl
  · rw [slice, Nat.sub_eq_zero_of_le (by dsimp only; omega)]
    rfl

theorem piecesFrom_self (text : σ) (start here : Nat) :
    piecesFrom start here (slice text ⟨here, here⟩) = [⟨start, here⟩] := by
  rw [slice_self, piecesFrom]

/-- Up to the next line break, characters go to the present piece. -/
theorem piecesFrom_skip {text : σ} (start : Nat) {here middle stop : Nat} (h : here ≤ middle)
    (hu : Unbroken text here middle) (hm : middle ≤ stop) (hle : stop ≤ length text) :
    piecesFrom start here (slice text ⟨here, stop⟩) =
      piecesFrom start middle (slice text ⟨middle, stop⟩) := by
  induction h with
  | refl => rfl
  | @step m h ih =>
    have hzero : lineBreakLength text m = 0 := hu m h (Nat.lt_succ_self m)
    have hslice : slice text ⟨m, stop⟩ = charAt text m :: slice text ⟨m + 1, stop⟩ :=
      slice_of_lt hm hle
    have hb : breakLength (charAt text m :: slice text ⟨m + 1, stop⟩) = 0 := by
      rw [← hslice]
      exact breakLength_slice_of_eq_zero hle hzero
    rw [ih (fun i hi hi' => hu i hi (Nat.lt_succ_of_lt hi')) (by omega), hslice,
      piecesFrom_cons _ _ hb]

/-- At a line break one piece ends, and the next one starts behind it. -/
theorem piecesFrom_break {text : σ} (start : Nat) {here stop : Nat}
    (hb : 0 < lineBreakLength text here) (hm : here + lineBreakLength text here ≤ stop)
    (hle : stop ≤ length text) :
    piecesFrom start here (slice text ⟨here, stop⟩) =
      ⟨start, here⟩ :: piecesFrom (here + lineBreakLength text here)
        (here + lineBreakLength text here)
        (slice text ⟨here + lineBreakLength text here, stop⟩) := by
  rw [slice_of_lt (by omega) hle]
  unfold lineBreakLength at hb hm ⊢
  split at hb
  · next hc => rw [if_pos hc, hc, piecesFrom]
  · next hc =>
    split at hb
    · next hr =>
      rw [if_neg hc, if_pos hr] at hm
      rw [if_neg hc, if_pos hr, slice_of_lt (by omega) hle, hr.1, hr.2, piecesFrom]
    · exact absurd hb (Nat.lt_irrefl 0)

/-- Behind every line feed the cutting starts anew. -/
theorem exists_piecesFrom_eq_append {text : σ} (start : Nat) {here lineStart stop : Nat}
    (h : here < lineStart) (hlineFeed : charAt text (lineStart - 1) = '\n')
    (hm : lineStart ≤ stop) (hle : stop ≤ length text) :
    ∃ before, piecesFrom start here (slice text ⟨here, stop⟩) =
      before ++ piecesFrom lineStart lineStart (slice text ⟨lineStart, stop⟩) := by
  have hlast := lineBreakLength_of_lineFeed hlineFeed
  by_cases hzero : lineBreakLength text here = 0
  -- By recursion on the distance: one character, or one line break, is passed at a time.
  · have hne : here ≠ lineStart - 1 := by
      intro heq
      rw [← heq, hzero] at hlast
      exact absurd hlast Nat.zero_ne_one
    have hlt : here + 1 < lineStart := by omega
    have hu : Unbroken text here (here + 1) := (Unbroken.refl text here).succ hzero
    rw [piecesFrom_skip start (Nat.le_succ here) hu (by omega) hle]
    exact exists_piecesFrom_eq_append start hlt hlineFeed hm hle
  · have hpos : 0 < lineBreakLength text here := Nat.pos_of_ne_zero hzero
    have hnext : here + lineBreakLength text here ≤ lineStart := by
      have hshort := lineBreakLength_le text here
      by_cases heq : here = lineStart - 1
      · rw [heq, hlast]
        omega
      · omega
    rw [piecesFrom_break start hpos (by omega) hle]
    rcases Nat.eq_or_lt_of_le hnext with heq | hlt
    · rw [heq]
      exact ⟨[⟨start, here⟩], rfl⟩
    · obtain ⟨before, hbefore⟩ := exists_piecesFrom_eq_append
        (here + lineBreakLength text here) hlt hlineFeed hm hle
      rw [hbefore]
      exact ⟨⟨start, here⟩ :: before, rfl⟩
termination_by lineStart - here

/-- Each line within a construct is one of its pieces. -/
theorem mem_piecesFrom {text : σ} {start lineStart lineStop stop : Nat} (hstart : start ≤ lineStart)
    (hfirst : start < lineStart → charAt text (lineStart - 1) = '\n')
    (hline : lineStart ≤ lineStop) (hu : Unbroken text lineStart lineStop)
    (hstop : lineStop ≤ stop) (hle : stop ≤ length text)
    (hlast : lineStop < stop → 0 < lineBreakLength text lineStop ∧
      lineStop + lineBreakLength text lineStop ≤ stop) :
    ⟨lineStart, lineStop⟩ ∈ piecesFrom start start (slice text ⟨start, stop⟩) := by
  -- The cutting starts anew with the line, unless the construct does.
  obtain ⟨before, hbefore⟩ : ∃ before, piecesFrom start start (slice text ⟨start, stop⟩) =
      before ++ piecesFrom lineStart lineStart (slice text ⟨lineStart, stop⟩) := by
    rcases Nat.eq_or_lt_of_le hstart with rfl | hlt
    · exact ⟨[], rfl⟩
    · exact exists_piecesFrom_eq_append start hlt (hfirst hlt) (by omega) hle
  rw [hbefore, piecesFrom_skip lineStart hline hu hstop hle]
  apply List.mem_append_right
  rcases Nat.eq_or_lt_of_le hstop with rfl | hlt
  · rw [piecesFrom_self]
    exact List.mem_cons_self
  · obtain ⟨hpos, hbreak⟩ := hlast hlt
    rw [piecesFrom_break lineStart hpos hbreak hle]
    exact List.mem_cons_self

end Lexeme

end OdinSyntax
