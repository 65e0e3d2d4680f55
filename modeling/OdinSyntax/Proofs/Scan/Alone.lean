import OdinSyntax.Proofs.Lexeme.Alone
import OdinSyntax.Proofs.Scan.Words
import OdinSyntax.Proofs.Text.Encoding

/-!
# Tokens on their own

The text of a token is tokenized to that token again (`tokenizeAll_text`). So neither the extent of
a token nor its kind depends on what stands before it, and what stands behind it only tells the
names that are called or defined from other identifiers (`Kind.alone`).

The reason is that the text of a lexeme is that one lexeme (`Lexeme.lexemesFrom_text_head`). A token
is a whole lexeme unless it is one of several pieces of a comment or a literal, and those are
separated by line feeds (`Lexeme.eq_of_mem_tokens`).
-/

namespace OdinSyntax

/-- The kind of a token once its text, `spelling`, stands alone. The names that were known by what
follows them are plain identifiers then. -/
def Kind.alone (kind : Kind) (spelling : String) : Kind :=
  match kind with
  | .reference => if spelling ∈ builtinProcs then .reference else .identifier
  | .definition => .identifier
  | kind => kind

/-- With nothing behind it, a word is judged by the vocabularies, and it is an identifier otherwise.
-/
theorem Kind.ofWord_nil (word rest : List Char) :
    ofWord word [] = (ofWord word rest).alone (.ofList word) := by
  have hparen : ¬ ['('] <+: ([] : List Char) := by decide
  have hcolons : ¬ [':', ':'] <+: ([] : List Char) := by decide
  rw [ofWord_eq, ofWord_eq, List.dropWhile_nil, if_neg hparen, if_neg hcolons]
  split_ifs with hproc
  all_goals simp only [Kind.alone, hproc]
  all_goals rfl

namespace Lexeme

variable {lexeme : Lexeme} {t : Token}

theorem span_alone (lexeme : Lexeme) : lexeme.alone.span = ⟨0, lexeme.text.length⟩ :=
  congrArg (Span.mk 0) (Nat.zero_add _)

theorem isEmpty_span_alone (lexeme : Lexeme) :
    lexeme.alone.span.isEmpty = lexeme.span.isEmpty := by
  rw [span_alone, Span.isEmpty, Span.isEmpty, decide_eq_decide, span]
  dsimp only
  omega

/-- A construct without line feeds has one piece. -/
theorem pieces_of_not_mem (lexeme : Lexeme) (h : '\n' ∉ lexeme.text) (closed : Bool) :
    lexeme.pieces {} closed = [lexeme.span].filter (!·.isEmpty) := by
  rw [pieces, Bool.or_true, if_pos rfl, piecesFrom_of_not_mem _ _ h]
  rfl

/-- The token of a construct without line feeds. -/
theorem eq_of_mem_map_pieces {closed : Bool} {kind : Kind} (h : '\n' ∉ lexeme.text)
    (ht : t ∈ (lexeme.pieces {} closed).map (Token.mk · kind)) :
    t = ⟨lexeme.span, kind⟩ ∧
      (lexeme.alone.pieces {} closed).map (Token.mk · kind) = [⟨lexeme.alone.span, kind⟩] := by
  obtain ⟨span, hspan, rfl⟩ := List.mem_map.mp ht
  rw [pieces_of_not_mem lexeme h] at hspan
  obtain ⟨hspan, hempty⟩ := List.mem_filter.mp hspan
  obtain rfl := List.mem_singleton.mp hspan
  refine ⟨rfl, ?_⟩
  rw [pieces_of_not_mem lexeme.alone h, List.filter_singleton, isEmpty_span_alone, hempty]
  rfl

/-- A token that is not one of several pieces is the whole lexeme, and the lexeme alone has it as
its one token. -/
theorem eq_of_mem_tokens (ht : t ∈ lexeme.tokens {})
    (hline : '\n' ∉ lexeme.text ∨ t.kind ≠ .comment ∧ t.kind ≠ .stringLiteral) :
    t.span = lexeme.span ∧ lexeme.alone.tokens {} =
      [⟨lexeme.alone.span, t.kind.alone (.ofList lexeme.text)⟩] := by
  have hshape' : lexeme.alone.shape = lexeme.shape := rfl
  -- Of the lexemes that are cut into pieces, only those on one line come back as one token.
  have hpiece : ∀ {span kind}, t = ⟨span, kind⟩ → kind = .comment ∨ kind = .stringLiteral →
      '\n' ∉ lexeme.text := by
    rintro span kind rfl hkind
    exact hline.resolve_right fun h => hkind.elim h.1 h.2
  rw [tokens] at ht ⊢
  rw [hshape']
  cases hshape : lexeme.shape with
  | lineBreak | blank | strayClose =>
    rw [hshape] at ht
    cases ht
  | blockComment closed =>
    rw [hshape] at ht
    obtain ⟨span, -, rfl⟩ := List.mem_map.mp ht
    obtain ⟨heq, halone⟩ := eq_of_mem_map_pieces (hpiece rfl (.inl rfl)) ht
    exact ⟨congrArg Token.span heq, halone⟩
  | rawString closed =>
    rw [hshape] at ht
    obtain ⟨span, -, rfl⟩ := List.mem_map.mp ht
    obtain ⟨heq, halone⟩ := eq_of_mem_map_pieces (hpiece rfl (.inr rfl)) ht
    exact ⟨congrArg Token.span heq, halone⟩
  | quoted closed =>
    rw [hshape] at ht
    cases closed with
    | false => cases ht
    | true =>
      obtain rfl := List.mem_singleton.mp ht
      exact ⟨rfl, rfl⟩
  | lineComment | number | operator | punctuation =>
    rw [hshape] at ht
    obtain rfl := List.mem_singleton.mp ht
    exact ⟨rfl, rfl⟩
  | word =>
    rw [hshape] at ht
    obtain rfl := List.mem_singleton.mp ht
    refine ⟨rfl, ?_⟩
    dsimp only
    rw [← Kind.ofWord_nil]
    rfl

end Lexeme

namespace Scan

open Source Lexeme

/-- The tokens of a text are those of its lexemes. -/
theorem tokenizeAll_ofList {chars : List Char} (h : chars.length ≤ maxOffset) :
    tokenizeAll (Snapshot.ofList chars) = tokensOf {} chars := by
  have htext : toList (Snapshot.ofList chars) = chars := by
    rw [toList, ← suffix, Snapshot.suffix_ofList h, List.drop_zero]
  rw [tokenizeAll, tokenize_eq_filter_keeps, filter_keeps_whole, htext]

/-- **A token alone is itself.** Take the text of any token, in a text without line feeds, or of a
token that is no part of a comment or a literal in any text. It has one token, which covers all of
it, and that one is of the same kind, except that a name that is called or defined has become a
plain identifier. -/
theorem tokenizeAll_text (s : Snapshot) {t : Token} (ht : t ∈ tokenizeAll s)
    (hline : '\n' ∉ s.chars.toList ∨ t.kind ≠ .comment ∧ t.kind ≠ .stringLiteral) :
    (t.text s).length = t.length ∧
      tokenizeAll (Snapshot.ofString (t.text s)) =
        [⟨⟨0, t.length⟩, t.kind.alone (t.text s)⟩] := by
  obtain ⟨start, -, hlt, hmem⟩ := mem_tokenize_iff.mp ht
  have hslice := slice_headAt hlt
  -- A text without line feeds has lexemes without line feeds.
  have hchars : ∀ c ∈ (headAt s start).text, c ∈ s.chars.toList := by
    intro c hc
    rw [← hslice, Snapshot.slice_eq_drop_take] at hc
    exact List.mem_of_mem_take (List.mem_of_mem_drop hc)
  obtain ⟨hspan, halone⟩ := eq_of_mem_tokens hmem (hline.imp_left (mt (hchars _)))
  have htext : t.text s = .ofList (headAt s start).text := by
    rw [Token.text, Snapshot.text_eq_ofList_slice, hspan, hslice]
  have hlength : (headAt s start).text.length = t.length := by
    rw [Token.length, hspan]
    exact (Nat.add_sub_cancel_left _ _).symm
  have hle : (headAt s start).text.length ≤ maxOffset := by
    have hstop : start + (headAt s start).text.length ≤ s.length := stop_headAt_le hlt
    exact Nat.le_trans (Nat.le_trans (Nat.le_add_left _ _) hstop) s.length_le
  constructor
  · rw [htext, String.length_ofList, hlength]
  · rw [htext, Snapshot.ofString, String.toList_ofList, tokenizeAll_ofList hle, tokensOf, headAt,
      lexemesFrom_text_head, ← headAt, List.flatMap_singleton, halone, span_alone, hlength]

/-- A definition and a built-in procedure in a text with a line feed, and a comment that is not
closed in one without. -/
theorem tokenizeAll_text_definition :
    let s := Snapshot.ofString "x ::\nlen"
    let tail := Snapshot.ofString "0/*a"
    (⟨⟨0, 1⟩, .definition⟩ ∈ tokenizeAll s ∧
      tokenizeAll (Snapshot.ofString "x") = [⟨⟨0, 1⟩, .identifier⟩]) ∧
    (⟨⟨5, 8⟩, .reference⟩ ∈ tokenizeAll s ∧
      tokenizeAll (Snapshot.ofString "len") = [⟨⟨0, 3⟩, .reference⟩]) ∧
    (⟨⟨1, 4⟩, .comment⟩ ∈ tokenizeAll tail ∧
      tokenizeAll (Snapshot.ofString "/*a") = [⟨⟨0, 3⟩, .comment⟩]) := by
  intro s tail
  have hs : tokenizeAll s =
      [⟨⟨0, 1⟩, .definition⟩, ⟨⟨2, 3⟩, .operator⟩, ⟨⟨3, 4⟩, .operator⟩, ⟨⟨5, 8⟩, .reference⟩] := by
    rw [tokenizeAll, tokenize_eq_steps]
    decide +kernel
  have htail : tokenizeAll tail = [⟨⟨0, 1⟩, .number⟩, ⟨⟨1, 4⟩, .comment⟩] := by
    rw [tokenizeAll, tokenize_eq_steps]
    decide +kernel
  have hdefinition : ⟨⟨0, 1⟩, .definition⟩ ∈ tokenizeAll s := by simp [hs]
  have hprocedure : ⟨⟨5, 8⟩, .reference⟩ ∈ tokenizeAll s := by simp [hs]
  have hcomment : ⟨⟨1, 4⟩, .comment⟩ ∈ tokenizeAll tail := by simp [htail]
  exact ⟨⟨hdefinition, (tokenizeAll_text s hdefinition (.inr (by decide))).2⟩,
    ⟨hprocedure, (tokenizeAll_text s hprocedure (.inr (by decide))).2⟩,
    ⟨hcomment, (tokenizeAll_text tail hcomment (.inl (by decide))).2⟩⟩

end Scan

end OdinSyntax
