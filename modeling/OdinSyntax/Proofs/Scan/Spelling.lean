import OdinSyntax.Proofs.Lexeme.Neighbours
import OdinSyntax.Proofs.Lexeme.Pieces
import OdinSyntax.Proofs.Scan.Lexemes

/-!
# What the characters of a text say of its tokens

A token can be judged by the text alone (`Scan.WellSpelled`): by its own characters, by the one in
front of it and by those behind. Numbers, words and operators are as long as possible, and a word
goes on behind another character of words only where a number ends between the two. Every token of a
scan passes (`Scan.wellSpelled_tokenize`).
-/

namespace OdinSyntax

namespace Scan

open Source Lexeme

variable {σ : Type} [Source σ] {options : Options} {text : σ} {offset : Nat} {tokens : List Token}
  {t : Token}

/-- Whether a character of words stands in front of the offset. -/
def FollowsWordPart (text : σ) (offset : Nat) : Prop :=
  0 < offset ∧ isWordPart (charAt text (offset - 1)) = true

/-- Whether a line feed stands in front of the offset. -/
def FollowsLineFeed (text : σ) (offset : Nat) : Prop :=
  0 < offset ∧ charAt text (offset - 1) = '\n'

/-- What the text says of a token of each kind. The tokens are asked only for a number that ends
where a word starts. -/
def WellSpelled (text : σ) (tokens : List Token) (t : Token) : Prop :=
  let word := slice text t.span
  let rest := suffix text t.span.stop
  match t.kind with
  | .number =>
    IsNumber word rest ∧
      (isDigit (charAt text t.span.start) = true → ¬ FollowsWordPart text t.span.start)
  | .keyword | .identifier | .typeName | .reference | .definition =>
    IsWord word rest ∧
      (FollowsWordPart text t.span.start →
        ∃ u ∈ tokens, u.kind = .number ∧ u.span.stop = t.span.start)
  | .operator => IsOperator word rest
  | .punctuation => IsMark word rest
  | .comment =>
    charAt text t.span.start = '/' ∧ charAt text (t.span.start + 1) ∈ ['/', '*'] ∧
        t.span.start + 2 ≤ t.span.stop ∨
      FollowsLineFeed text t.span.start
  | .stringLiteral =>
    charAt text t.span.start ∈ ['"', '\'', '\x60'] ∨ FollowsLineFeed text t.span.start

/-- The tokens of a text are those of the lexemes at its starts. -/
theorem mem_tokenize_iff :
    t ∈ tokenize options text ⟨0, length text⟩ ↔
      ∃ start, LexemeStart text start ∧ start < length text ∧
        t ∈ (headAt text start).tokens options := by
  have htokens : tokenize options text ⟨0, length text⟩ = tokensOf options (suffix text 0) := by
    rw [tokenize_eq_filter_keeps, filter_keeps_whole]
    rfl
  rw [htokens, tokensOf, List.mem_flatMap]
  constructor
  · rintro ⟨lexeme, hmem, ht⟩
    obtain ⟨start, hstart, hlt, rfl⟩ := LexemeStart.zero.exists_of_mem hmem
    exact ⟨start, hstart, hlt, ht⟩
  · rintro ⟨start, hstart, hlt, ht⟩
    exact ⟨_, hstart.mem_lexemesFrom hlt, ht⟩

/-- A scan for a region keeps some of them. -/
theorem mem_tokenize_iff_keeps {region : Span} :
    t ∈ tokenize options text region ↔
      (∃ start, LexemeStart text start ∧ start < length text ∧
        t ∈ (headAt text start).tokens options) ∧ keeps region t = true := by
  rw [tokenize_eq_filter_keeps, List.mem_filter, ← filter_keeps_whole, ← tokenize_eq_filter_keeps,
    mem_tokenize_iff]

/-! ## Tokens of lexemes -/

section Lexemes

variable {start : Nat} (hlt : start < length text)

include hlt

/-- A character of a lexeme, by offset. -/
theorem charAt_of_getElem?_headAt {i : Nat} {c : Char}
    (h : (headAt text start).text[i]? = some c) :
    start + i < (headAt text start).span.stop ∧ charAt text (start + i) = c := by
  rw [← slice_headAt hlt] at h
  exact charAt_of_getElem?_slice (stop_headAt_le hlt) h

theorem charAt_of_pair_prefix {a b : Char} (h : [a, b] <+: (headAt text start).text) :
    charAt text start = a ∧ charAt text (start + 1) = b ∧
      start + 2 ≤ (headAt text start).span.stop := by
  obtain ⟨tail, htext⟩ := h
  have hfirst : (headAt text start).text[0]? = some a := by rw [← htext]; rfl
  have hsecond : (headAt text start).text[1]? = some b := by rw [← htext]; rfl
  obtain ⟨hstop, hb⟩ := charAt_of_getElem?_headAt hlt hsecond
  exact ⟨(charAt_of_getElem?_headAt hlt hfirst).2, hb, hstop⟩

theorem spells_headAt :
    (headAt text start).shape.Spells (slice text (headAt text start).span)
      (suffix text (headAt text start).span.stop) := by
  rw [slice_headAt hlt, ← rest_headAt hlt]
  exact headAt_spells text start

/-- A piece of a construct starts where the construct does and holds its opener, or it starts behind
a line feed. -/
theorem start_of_mem_pieces {closed : Bool} {piece : Span} {opener tail : List Char}
    (htext : (headAt text start).text = opener ++ tail)
    (hopener : opener.all isPunctuation = true)
    (hmem : piece ∈ (headAt text start).pieces options closed) :
    piece.start = start ∧ start + opener.length ≤ piece.stop ∨
      FollowsLineFeed text piece.start := by
  have hblank : ∀ c ∈ opener, isBlank c = false := fun c hc =>
    isBlank_of_isPunctuation (List.all_eq_true.mp hopener c hc)
  have hpiece := mem_piecesFrom_of_mem_pieces hmem
  rw [htext, piecesFrom_append _ _ hblank] at hpiece
  refine (start_of_mem_piecesFrom hpiece).imp_right fun ⟨i, hi, hfirst⟩ => ?_
  have hget : (headAt text start).text[opener.length + i]? = some '\n' := by
    rw [htext, List.getElem?_append_right (Nat.le_add_right _ _), Nat.add_sub_cancel_left, hi]
  have hchar := (charAt_of_getElem?_headAt hlt hget).2
  rw [← Nat.add_assoc] at hchar
  rw [hfirst]
  exact ⟨Nat.succ_pos _, hchar⟩

theorem wellSpelled_lineComment (hshape : (headAt text start).shape = .lineComment) :
    WellSpelled text tokens ⟨(headAt text start).span, .comment⟩ := by
  have hspells := headAt_spells text start
  rw [hshape] at hspells
  obtain ⟨hfirst, hsecond, hstop⟩ := charAt_of_pair_prefix hlt hspells
  refine .inl ⟨hfirst, ?_, hstop⟩
  show charAt text (start + 1) ∈ ['/', '*']
  rw [hsecond]
  decide

/-- A piece of a block comment starts with the opener or behind a line feed. -/
theorem wellSpelled_blockComment {closed : Bool}
    (hshape : (headAt text start).shape = .blockComment closed) {piece : Span}
    (hmem : piece ∈ (headAt text start).pieces options closed) :
    WellSpelled text tokens ⟨piece, .comment⟩ := by
  have hspells := headAt_spells text start
  rw [hshape] at hspells
  obtain ⟨tail, htext⟩ := id hspells
  obtain ⟨hfirst, hsecond, -⟩ := charAt_of_pair_prefix hlt hspells
  refine (start_of_mem_pieces hlt htext.symm (by decide) hmem).imp_left fun ⟨hpiece, hstop⟩ => ?_
  rw [hpiece, hfirst, hsecond]
  exact ⟨rfl, by decide, hstop⟩

/-- A piece of a raw string starts with the backtick or behind a line feed. -/
theorem wellSpelled_rawString {closed : Bool}
    (hshape : (headAt text start).shape = .rawString closed) {piece : Span}
    (hmem : piece ∈ (headAt text start).pieces options closed) :
    WellSpelled text tokens ⟨piece, .stringLiteral⟩ := by
  have hspells := headAt_spells text start
  rw [hshape] at hspells
  obtain ⟨tail, htext⟩ := hspells
  refine (start_of_mem_pieces hlt htext.symm (by decide) hmem).imp_left fun ⟨hpiece, _⟩ => ?_
  have hfirst : (headAt text start).text[0]? = some '\x60' := by rw [← htext]; rfl
  rw [hpiece, ← Nat.add_zero start, (charAt_of_getElem?_headAt hlt hfirst).2]
  decide

omit hlt in
/-- A literal starts with its quote. -/
theorem wellSpelled_quoted {closed : Bool} (hshape : (headAt text start).shape = .quoted closed) :
    WellSpelled text tokens ⟨(headAt text start).span, .stringLiteral⟩ := by
  have hspells := headAt_spells text start
  rw [hshape] at hspells
  refine .inl ?_
  show charAt text start ∈ ['"', '\'', '\x60']
  rcases hspells with ⟨tail, htext⟩ | ⟨tail, htext⟩
  · rw [← (List.cons.inj htext).1]
    decide
  · rw [← (List.cons.inj htext).1]
    decide

variable (hstart : LexemeStart text start)

include hstart

theorem wellSpelled_number (hshape : (headAt text start).shape = .number) :
    WellSpelled text tokens ⟨(headAt text start).span, .number⟩ := by
  have hspells := spells_headAt hlt
  rw [hshape] at hspells
  refine ⟨hspells, fun hdigit hfollows => ?_⟩
  have hpart := (hstart.exists_number hfollows.1 hfollows.2 (isWordPart_of_isDigit hdigit)).1
  rw [isNumberPart, show isDigit (charAt text start) = true from hdigit] at hpart
  simp at hpart

/-- A word is spelled like one, and it follows a character of words only if a number ends there. -/
theorem wellSpelled_word (hshape : (headAt text start).shape = .word) {kind : Kind}
    (hkind : kind.isWord = true) :
    WellSpelled text (tokenize options text ⟨0, length text⟩)
      ⟨(headAt text start).span, kind⟩ := by
  have hspells := spells_headAt hlt
  rw [hshape] at hspells
  -- A character of words before a word is in the lexeme before, which is a number then.
  have hbehind : FollowsWordPart text start →
      ∃ u ∈ tokenize options text ⟨0, length text⟩, u.kind = .number ∧ u.span.stop = start := by
    intro hfollows
    have hpart : isWordPart (charAt text start) = true := by
      rw [slice_headAt hlt] at hspells
      exact hspells.parts _ List.mem_cons_self
    obtain ⟨-, before, hbefore, hlt', hnumber, hstop⟩ :=
      hstart.exists_number hfollows.1 hfollows.2 hpart
    refine ⟨⟨(headAt text before).span, .number⟩, mem_tokenize_iff.mpr ⟨before, hbefore, hlt', ?_⟩,
      rfl, hstop⟩
    rw [Lexeme.tokens, hnumber]
    exact List.mem_singleton_self _
  cases kind with
  | keyword | identifier | typeName | reference | definition => exact ⟨hspells, hbehind⟩
  | operator | punctuation | comment | stringLiteral | number => cases hkind

end Lexemes

/-- What a word may be. -/
theorem isWord_ofWord (word rest : List Char) : (Kind.ofWord word rest).isWord = true := by
  fun_cases Kind.ofWord word rest
  all_goals rfl

/-- **Lexemes are sound and as long as possible.** The text alone shows that each token of a scan is
spelled as its kind says, that numbers, words and operators end where they must, and that no word
goes on from another one. -/
theorem wellSpelled_tokenize (options : Options) (text : σ) :
    ∀ t ∈ tokenize options text ⟨0, length text⟩,
      WellSpelled text (tokenize options text ⟨0, length text⟩) t := by
  intro t ht
  obtain ⟨start, hstart, hlt, hmem⟩ := mem_tokenize_iff.mp ht
  -- Each token comes from a lexeme, and the shape of the lexeme says which kind it has.
  rw [Lexeme.tokens] at hmem
  cases hshape : (headAt text start).shape with
  | lineBreak | blank | strayClose =>
    rw [hshape] at hmem
    cases hmem
  | lineComment =>
    rw [hshape] at hmem
    obtain rfl := List.mem_singleton.mp hmem
    exact wellSpelled_lineComment hlt hshape
  | blockComment closed =>
    rw [hshape] at hmem
    obtain ⟨piece, hpiece, rfl⟩ := List.mem_map.mp hmem
    exact wellSpelled_blockComment hlt hshape hpiece
  | quoted closed =>
    rw [hshape] at hmem
    cases closed with
    | false => cases hmem
    | true =>
      obtain rfl := List.mem_singleton.mp hmem
      exact wellSpelled_quoted hshape
  | rawString closed =>
    rw [hshape] at hmem
    obtain ⟨piece, hpiece, rfl⟩ := List.mem_map.mp hmem
    exact wellSpelled_rawString hlt hshape hpiece
  | number =>
    rw [hshape] at hmem
    obtain rfl := List.mem_singleton.mp hmem
    exact wellSpelled_number hlt hstart hshape
  | operator | punctuation =>
    rw [hshape] at hmem
    obtain rfl := List.mem_singleton.mp hmem
    have hspells := spells_headAt hlt
    rw [hshape] at hspells
    exact hspells
  | word =>
    rw [hshape] at hmem
    obtain rfl := List.mem_singleton.mp hmem
    exact wellSpelled_word hlt hstart hshape (isWord_ofWord _ _)

/-- A word directly behind a number, and three dashes of which none is left for the arrow. -/
theorem wellSpelled_tokenize_dashes :
    let text := Snapshot.ofList ['1', 'x', '2', 'g', '-', '-', '-', '>']
    let tokens : List Token := [⟨⟨0, 3⟩, .number⟩, ⟨⟨3, 4⟩, .identifier⟩, ⟨⟨4, 7⟩, .operator⟩,
      ⟨⟨7, 8⟩, .operator⟩]
    tokenize {} text ⟨0, length text⟩ = tokens ∧
      IsWord ['g'] ['-', '-', '-', '>'] ∧
      (FollowsWordPart text 3 ∧ ∃ u ∈ tokens, u.kind = .number ∧ u.span.stop = 3) ∧
      IsOperator ['-', '-', '-'] ['>'] := by
  intro text tokens
  have htokens : tokenize {} text ⟨0, length text⟩ = tokens := by
    rw [tokenize_eq_steps]
    decide +kernel
  have hall := wellSpelled_tokenize {} text
  rw [htokens] at hall
  have hword : WellSpelled text tokens ⟨⟨3, 4⟩, .identifier⟩ := hall _ (by decide)
  have hoperator : WellSpelled text tokens ⟨⟨4, 7⟩, .operator⟩ := hall _ (by decide)
  have hfollows : FollowsWordPart text 3 := ⟨by decide, by decide⟩
  exact ⟨htokens, hword.1, ⟨hfollows, hword.2 hfollows⟩, hoperator⟩

end Scan

end OdinSyntax
