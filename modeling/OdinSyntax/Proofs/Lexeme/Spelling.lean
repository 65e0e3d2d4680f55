import Mathlib.Data.List.Basic
import OdinSyntax.Proofs.Lexeme.Extent

/-!
# How lexemes are spelled

What the characters of a lexeme and those behind it say of its shape, with no reference to how the
lexer finds it. `IsNumber`, `IsWord`, `IsOperator` and `IsMark` are about the characters `word` of a
lexeme in front of `rest`. Each says that all of `word` belongs together and that nothing of `rest`
could be added: numbers and words end where no character of the kind follows, and an operator is the
longest one that starts there.

`headExtent_spells` shows that every lexeme is spelled as its shape says.
-/

namespace OdinSyntax

/-- A number: a digit, or a point before a digit, and all characters of numerals behind. -/
structure IsNumber (word rest : List Char) : Prop where
  starts : ∃ c tail, word = c :: tail ∧
    (isDigit c = true ∨ c = '.' ∧ ∃ d tail', tail = d :: tail' ∧ isDigit d = true)
  parts : ∀ c ∈ word, isNumberPart c = true
  ends : isNumberPart (rest.headD sentinel) = false

/-- A word: all characters of words from one on that is no digit. -/
structure IsWord (word rest : List Char) : Prop where
  starts : ∃ c tail, word = c :: tail ∧ isDigit c = false
  parts : ∀ c ∈ word, Lexeme.isWordPart c = true
  ends : Lexeme.isWordPart (rest.headD sentinel) = false

/-- An operator, and the longest one here. It starts no comment and closes none. -/
structure IsOperator (word rest : List Char) : Prop where
  spelled : word ∈ tripleOperators ∨ word ∈ doubleOperators ∨
    ∃ c, word = [c] ∧ isSingleOperator c = true
  longest : ∀ op ∈ tripleOperators ++ doubleOperators, op <+: word ++ rest →
    op.length ≤ word.length
  no_delimiter : ∀ delimiter ∈ [['/', '/'], ['/', '*'], ['*', '/']], ¬ delimiter <+: word ++ rest

/-- A punctuation character that opens no literal and starts no operator. -/
structure IsMark (word rest : List Char) : Prop where
  spelled : ∃ c, word = [c] ∧ isPunctuation c = true ∧ isSingleOperator c = false ∧
    c ∉ ['"', '\'', '\x60']
  no_operator : ∀ op ∈ tripleOperators ++ doubleOperators, ¬ op <+: word ++ rest

/-- What a shape says of the characters of a lexeme and of those behind it. Of comments and literals
it is how they start. -/
def Shape.Spells (word rest : List Char) : Shape → Prop
  | .number => IsNumber word rest
  | .word => IsWord word rest
  | .operator => IsOperator word rest
  | .punctuation => IsMark word rest
  | .lineComment => ['/', '/'] <+: word
  | .blockComment _ => ['/', '*'] <+: word
  | .quoted _ => ['"'] <+: word ∨ ['\''] <+: word
  | .rawString _ => ['\x60'] <+: word
  | .lineBreak | .blank | .strayClose => True

namespace Lexeme

variable {c : Char} {rest op : List Char} {n : Nat} {shape : Shape}

/-! ## Runs of characters -/

theorem take_length_takeWhile (p : Char → Bool) (rest : List Char) :
    rest.take (rest.takeWhile p).length = rest.takeWhile p :=
  (List.prefix_iff_eq_take.mp (List.takeWhile_prefix p)).symm

/-- A run of characters ends in front of one that does not belong to it. -/
theorem headD_drop_length_takeWhile {p : Char → Bool} (hp : p sentinel = false)
    (rest : List Char) : p ((rest.drop (rest.takeWhile p).length).headD sentinel) = false := by
  have hdrop : rest.drop (rest.takeWhile p).length = rest.dropWhile p := by
    have hparts := List.take_append_drop (rest.takeWhile p).length rest
    rw [take_length_takeWhile] at hparts
    exact List.append_cancel_left (hparts.trans List.takeWhile_append_dropWhile.symm)
  have hhead := List.head?_dropWhile_not p rest
  rw [hdrop]
  cases hrest : rest.dropWhile p with
  | nil => exact hp
  | cons d tail =>
    rw [hrest] at hhead
    exact hhead

/-- All characters of a run are in its class, the first one included. -/
theorem forall_mem_run {p : Char → Bool} (hc : p c = true) (rest : List Char) :
    ∀ d ∈ c :: rest.take (rest.takeWhile p).length, p d = true := by
  rw [take_length_takeWhile]
  intro d hd
  rcases List.mem_cons.mp hd with rfl | hd
  · exact hc
  · exact List.all_eq_true.mp List.all_takeWhile d hd

/-! ## Operators -/

theorem length_of_mem_tripleOperators (h : op ∈ tripleOperators) : op.length = 3 := by
  have hall : tripleOperators.all (·.length == 3) = true := rfl
  exact beq_iff_eq.mp (List.all_eq_true.mp hall op h)

theorem length_of_mem_doubleOperators (h : op ∈ doubleOperators) : op.length = 2 := by
  have hall : doubleOperators.all (·.length == 2) = true := rfl
  exact beq_iff_eq.mp (List.all_eq_true.mp hall op h)

/-- Two characters that a text starts with. -/
theorem eq_of_starts_pair (hop : op.length = 2) (h : op <+: c :: rest) :
    op = [c, rest.headD sentinel] := by
  obtain ⟨a, b, rfl⟩ := List.length_eq_two.mp hop
  obtain ⟨rfl, htail⟩ := List.cons_prefix_cons.mp h
  obtain ⟨rest, rfl⟩ := htail
  rfl

/-- Three characters that a text starts with. -/
theorem eq_of_starts_triple (hop : op.length = 3) (h : op <+: c :: rest) :
    op = [c, rest.headD sentinel, rest.tail.headD sentinel] := by
  obtain ⟨a, b, d, rfl⟩ := List.length_eq_three.mp hop
  obtain ⟨rfl, htail⟩ := List.cons_prefix_cons.mp h
  obtain ⟨rest, rfl⟩ := htail
  rfl

/-- A text starts with no other pair of characters than its first two. -/
theorem not_starts_pair {a b : Char} (h : ¬ (c = a ∧ rest.headD sentinel = b)) :
    ¬ [a, b] <+: c :: rest := by
  intro hstarts
  have heq : [a, b] = [c, rest.headD sentinel] := eq_of_starts_pair rfl hstarts
  cases heq
  exact h ⟨rfl, rfl⟩

/-- What an operator takes stands in the text, for the sentinel is in no operator. -/
theorem cons_take_of_operatorLength?
    (h : operatorLength? c (rest.headD sentinel) (rest.tail.headD sentinel) = some n) :
    c :: rest.take (n - 1) = [c, rest.headD sentinel, rest.tail.headD sentinel].take n := by
  obtain ⟨hle, hall⟩ := isPunctuation_of_operatorLength? h
  have hsentinel : sentinel ∉ [c, rest.headD sentinel, rest.tail.headD sentinel].take n :=
    fun hmem => absurd (hall _ hmem) (by decide)
  have hpos := operatorLength?_pos h
  obtain rfl | rfl | rfl : n = 1 ∨ n = 2 ∨ n = 3 := by omega
  · rfl
  · match rest with
    | [] => exact absurd (by simp) hsentinel
    | d :: rest => rfl
  · match rest with
    | [] => exact absurd (by simp) hsentinel
    | [d] => exact absurd (by simp) hsentinel
    | d :: e :: rest => rfl

/-- An operator that the text starts with is found. -/
theorem not_starts_triple
    (h : ¬ tripleOperators.contains [c, rest.headD sentinel, rest.tail.headD sentinel] = true)
    (hop : op ∈ tripleOperators) : ¬ op <+: c :: rest := by
  intro hstarts
  rw [eq_of_starts_triple (length_of_mem_tripleOperators hop) hstarts] at hop
  exact h (List.contains_iff_mem.mpr hop)

theorem not_starts_double (h : ¬ doubleOperators.contains [c, rest.headD sentinel] = true)
    (hop : op ∈ doubleOperators) : ¬ op <+: c :: rest := by
  intro hstarts
  rw [eq_of_starts_pair (length_of_mem_doubleOperators hop) hstarts] at hop
  exact h (List.contains_iff_mem.mpr hop)

/-- An operator of the tables is found before a shorter one. -/
theorem isOperator_of_operatorLength? {word behind : List Char}
    (h : operatorLength? c (rest.headD sentinel) (rest.tail.headD sentinel) = some n)
    (hword : word = [c, rest.headD sentinel, rest.tail.headD sentinel].take n)
    (hparts : word ++ behind = c :: rest)
    (hdelimiter : ∀ delimiter ∈ [['/', '/'], ['/', '*'], ['*', '/']],
      ¬ delimiter <+: c :: rest) : IsOperator word behind := by
  rw [← hparts] at hdelimiter
  revert h
  fun_cases operatorLength? c (rest.headD sentinel) (rest.tail.headD sentinel) with
  -- The tables are asked one after the other, so a shorter operator comes with the fact that no
  -- longer one starts here.
  | case1 hthree =>
    rintro ⟨⟩
    subst hword
    refine ⟨.inl (List.contains_iff_mem.mp hthree), fun op hop _ => ?_, hdelimiter⟩
    rcases List.mem_append.mp hop with hop | hop
    · exact Nat.le_of_eq (length_of_mem_tripleOperators hop)
    · rw [length_of_mem_doubleOperators hop]
      exact Nat.le_succ 2
  | case2 hthree htwo =>
    rintro ⟨⟩
    subst hword
    refine ⟨.inr (.inl (List.contains_iff_mem.mp htwo)), fun op hop hstarts => ?_, hdelimiter⟩
    rw [hparts] at hstarts
    rcases List.mem_append.mp hop with hop | hop
    · exact absurd hstarts (not_starts_triple hthree hop)
    · exact Nat.le_of_eq (length_of_mem_doubleOperators hop)
  | case3 hthree htwo hone =>
    rintro ⟨⟩
    subst hword
    refine ⟨.inr (.inr ⟨c, rfl, hone⟩), fun op hop hstarts => ?_, hdelimiter⟩
    rw [hparts] at hstarts
    rcases List.mem_append.mp hop with hop | hop
    · exact absurd hstarts (not_starts_triple hthree hop)
    · exact absurd hstarts (not_starts_double htwo hop)
  | case4 => rintro ⟨⟩

/-- Where no operator is found, none starts. -/
theorem not_prefix_of_operatorLength?
    (h : operatorLength? c (rest.headD sentinel) (rest.tail.headD sentinel) = none) :
    isSingleOperator c = false ∧
      ∀ op ∈ tripleOperators ++ doubleOperators, ¬ op <+: c :: rest := by
  revert h
  fun_cases operatorLength? c (rest.headD sentinel) (rest.tail.headD sentinel) with
  | case4 hthree htwo hone =>
    intro _
    refine ⟨eq_false_of_ne_true hone, fun op hop => ?_⟩
    rcases List.mem_append.mp hop with hop | hop
    · exact not_starts_triple hthree hop
    · exact not_starts_double htwo hop
  | _ => rintro ⟨⟩

/-! ## The first lexeme -/

theorem isNumber_of_isNumberStart (h : isNumberStart c (rest.headD sentinel) = true) :
    IsNumber (c :: rest.take (rest.takeWhile isNumberPart).length)
      (rest.drop (rest.takeWhile isNumberPart).length) where
  starts := by
    refine ⟨c, _, rfl, ?_⟩
    rw [isNumberStart, Bool.or_eq_true, Bool.and_eq_true, beq_iff_eq] at h
    rw [take_length_takeWhile]
    rcases h with hdigit | ⟨hc, hdigit⟩
    · exact .inl hdigit
    · refine .inr ⟨hc, ?_⟩
      cases rest with
      | nil => exact absurd hdigit (by decide)
      | cons d tail =>
        have hpart : isNumberPart d = true := by
          simp [isNumberPart, show isDigit d = true from hdigit]
        exact ⟨d, _, List.takeWhile_cons_of_pos hpart, hdigit⟩
  parts := forall_mem_run (isNumberPart_of_isNumberStart h) rest
  ends := headD_drop_length_takeWhile (by decide) rest

theorem isWord_of_isWordPart (hpart : isWordPart c = true) (hdigit : isDigit c = false) :
    IsWord (c :: rest.take (rest.takeWhile isWordPart).length)
      (rest.drop (rest.takeWhile isWordPart).length) where
  starts := ⟨c, _, rfl, hdigit⟩
  parts := forall_mem_run hpart rest
  ends := headD_drop_length_takeWhile (by decide) rest

/-- A construct that holds more than its first character holds the second one. -/
theorem pair_prefix_take {d : Char} (h : rest.headD sentinel = d) (hd : d ≠ sentinel)
    (hn : rest ≠ [] → 0 < n) : [c, d] <+: c :: rest.take n := by
  cases rest with
  | nil => exact absurd h.symm hd
  | cons e rest =>
    obtain rfl : e = d := h
    obtain ⟨n, rfl⟩ := Nat.exists_eq_succ_of_ne_zero (Nat.ne_of_gt (hn (List.cons_ne_nil _ _)))
    exact ⟨rest.take n, rfl⟩

/-- Every lexeme is spelled as its shape says. -/
theorem headExtent_spells (h : headExtent c rest = (shape, n)) :
    shape.Spells (c :: rest.take n) (rest.drop n) := by
  revert h
  fun_cases headExtent c rest with
  | case1 | case3 =>
    rintro ⟨⟩
    trivial
  | case2 next hbreak hopen =>
    intro h
    obtain ⟨⟨closed, rfl⟩, hn⟩ := exists_of_closedExtent_eq h
    rw [hopen.1]
    refine pair_prefix_take hopen.2 (by decide) fun hrest => ?_
    -- The comment is closed behind its opener, or it goes to the end of the text.
    rcases hn with hn | rfl
    · obtain ⟨m, -, rfl⟩ := Option.map_eq_some_iff.mp hn
      exact Nat.succ_pos m
    · exact List.length_pos_iff.mpr hrest
  | case4 next hbreak hopen hclose hline =>
    rintro ⟨⟩
    rw [hline.1]
    refine pair_prefix_take hline.2 (by decide) fun hrest => ?_
    cases rest with
    | nil => exact absurd rfl hrest
    | cons d rest =>
      obtain rfl : d = '/' := hline.2
      exact Nat.succ_pos _
  | case5 next hbreak hopen hclose hline hquote =>
    intro h
    have hstart : ['"'] <+: c :: rest.take n ∨ ['\''] <+: c :: rest.take n :=
      hquote.imp (fun hc => ⟨_, congrArg (· :: rest.take n) hc.symm⟩)
        fun hc => ⟨_, congrArg (· :: rest.take n) hc.symm⟩
    unfold quotedExtent at h
    split at h <;> cases h <;> exact hstart
  | case6 next hbreak hopen hclose hline hquote hraw =>
    intro h
    obtain ⟨⟨closed, rfl⟩, -⟩ := exists_of_closedExtent_eq h
    exact ⟨_, congrArg (· :: rest.take n) hraw.symm⟩
  | case7 next hbreak hopen hclose hline hquote hraw hnumber =>
    rintro ⟨⟩
    exact isNumber_of_isNumberStart hnumber
  | case8 next afterNext hbreak hopen hclose hline hquote hraw hnumber n hoperator =>
    rintro ⟨⟩
    apply isOperator_of_operatorLength? hoperator (cons_take_of_operatorLength? hoperator)
    · rw [List.cons_append, List.take_append_drop]
    · simp only [List.mem_cons, List.not_mem_nil, or_false, forall_eq_or_imp, forall_eq]
      exact ⟨not_starts_pair hline, not_starts_pair hopen, not_starts_pair hclose⟩
  | case9 next afterNext hbreak hopen hclose hline hquote hraw hnumber hoperator hpunctuation =>
    rintro ⟨⟩
    obtain ⟨hsingle, hnone⟩ := not_prefix_of_operatorLength? hoperator
    refine ⟨⟨c, rfl, hpunctuation, hsingle, ?_⟩, ?_⟩
    · simp only [List.mem_cons, List.not_mem_nil, or_false, not_or]
      exact ⟨fun hc => hquote (.inl hc), fun hc => hquote (.inr hc), hraw⟩
    · exact hnone
  | case10 =>
    rintro ⟨⟩
    trivial
  | case11 next afterNext hbreak hopen hclose hline hquote hraw hnumber _ hpunctuation hblank =>
    rintro ⟨⟩
    apply isWord_of_isWordPart
    · exact (isWordPart_iff c).mpr ⟨eq_false_of_ne_true hblank, eq_false_of_ne_true hpunctuation⟩
    -- What starts no number is no digit.
    · rw [isNumberStart, Bool.or_eq_true, not_or] at hnumber
      exact eq_false_of_ne_true hnumber.1

end Lexeme

end OdinSyntax
