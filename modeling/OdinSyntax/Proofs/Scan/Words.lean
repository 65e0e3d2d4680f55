import OdinSyntax.Proofs.Scan.Spelling

/-!
# The kinds of words

What kind a token of a word has is told by two things: its characters, looked up in the three
vocabularies, and the first two characters behind the blanks that follow it, which may stand on a
later line and outside of the region (`JudgedBy`). Neither the region nor another word has a say.

Main statement: **`judgedBy_of_mem_tokenize`**.
-/

namespace OdinSyntax

/-! ## Words in front of a text -/

/-- The kind of the word `word` in front of `rest`, where blanks have been dropped from `rest`. The
built-in procedures come before the keywords and these before the built-in types, and any other word
is judged by what `rest` starts with. -/
structure JudgedBy (kind : Kind) (word rest : List Char) : Prop where
  reference_iff : kind = .reference ↔ String.ofList word ∈ builtinProcs ∨
    (String.ofList word ∉ keywords ∧ String.ofList word ∉ builtinTypes) ∧ ['('] <+: rest
  keyword_iff : kind = .keyword ↔
    String.ofList word ∈ keywords ∧ String.ofList word ∉ builtinProcs
  typeName_iff : kind = .typeName ↔ String.ofList word ∈ builtinTypes ∧
    String.ofList word ∉ builtinProcs ∧ String.ofList word ∉ keywords
  definition_iff : kind = .definition ↔ String.ofList word ∉ builtinProcs ∧
    String.ofList word ∉ keywords ∧ String.ofList word ∉ builtinTypes ∧ [':', ':'] <+: rest
  identifier_iff : kind = .identifier ↔ String.ofList word ∉ builtinProcs ∧
    String.ofList word ∉ keywords ∧ String.ofList word ∉ builtinTypes ∧
    ¬ ['('] <+: rest ∧ ¬ [':', ':'] <+: rest

namespace Kind

/-- What is behind the blanks is asked for one and then for two characters. -/
theorem ofWord_eq (word rest : List Char) :
    ofWord word rest =
      if String.ofList word ∈ builtinProcs then .reference
      else if String.ofList word ∈ keywords then .keyword
      else if String.ofList word ∈ builtinTypes then .typeName
      else if ['('] <+: rest.dropWhile isBlank then .reference
      else if [':', ':'] <+: rest.dropWhile isBlank then .definition
      else .identifier := by
  unfold ofWord
  generalize rest.dropWhile isBlank = behind
  dsimp only
  refine if_congr isBuiltinProc_iff rfl (if_congr isKeyword_iff rfl
    (if_congr isBuiltinType_iff rfl ?_))
  split
  · rw [if_pos ⟨_, rfl⟩]
  · rw [if_neg (fun h => absurd (List.cons_prefix_cons.mp h).1 (by decide)), if_pos ⟨_, rfl⟩]
  -- The patterns that did not match are the prefixes that are not there.
  · next hparen hcolons =>
    have hparen' : ¬ ['('] <+: behind := by
      rintro ⟨tail, h⟩
      exact hparen tail h.symm
    have hcolons' : ¬ [':', ':'] <+: behind := by
      rintro ⟨tail, h⟩
      exact hcolons tail h.symm
    rw [if_neg hparen', if_neg hcolons']

/-- The kind that is given is the one of the first case that applies. -/
theorem judgedBy_ofWord (word rest : List Char) :
    JudgedBy (ofWord word rest) word (rest.dropWhile isBlank) := by
  rw [ofWord_eq]
  -- A `(` is not the first one of two colons.
  have hparen : ['('] <+: rest.dropWhile isBlank → ¬ [':', ':'] <+: rest.dropWhile isBlank := by
    rintro ⟨tail, h⟩ h'
    rw [← h] at h'
    exact absurd (List.cons_prefix_cons.mp h').1 (by decide)
  constructor <;> split_ifs <;> simp_all

/-- Two characters behind the blanks are all that matters. -/
theorem ofWord_eq_of_take_eq {word rest rest' : List Char}
    (h : (rest'.dropWhile isBlank).take 2 = (rest.dropWhile isBlank).take 2) :
    ofWord word rest' = ofWord word rest := by
  have hstarts : ∀ pattern : List Char, pattern.length ≤ 2 →
      (pattern <+: rest'.dropWhile isBlank ↔ pattern <+: rest.dropWhile isBlank) := by
    intro pattern hle
    have htake : ∀ behind : List Char, pattern <+: behind.take 2 ↔ pattern <+: behind :=
      fun behind => List.prefix_take_iff.trans (and_iff_left hle)
    rw [← htake, h, htake]
  simp only [ofWord_eq, hstarts ['('] (by decide), hstarts [':', ':'] (by decide)]

end Kind

namespace Scan

open Source Lexeme

variable {σ : Type} [Source σ] {options : Options} {text : σ} {region : Span} {t : Token}

/-! ## Words of a scan -/

/-- A token of a word kind is a word as a whole. -/
theorem eq_of_isWord {lexeme : Lexeme} (ht : t ∈ lexeme.tokens options)
    (hword : t.kind.isWord = true) :
    lexeme.shape = .word ∧ t = ⟨lexeme.span, Kind.ofWord lexeme.text lexeme.rest⟩ := by
  -- Pieces are comments and literals.
  have hpieces : ∀ {closed kind}, kind.isWord = false →
      t ∉ (lexeme.pieces options closed).map (Token.mk · kind) := by
    intro closed kind hkind hmem
    obtain ⟨piece, -, rfl⟩ := List.mem_map.mp hmem
    exact absurd hword (ne_true_of_eq_false hkind)
  rw [Lexeme.tokens] at ht
  cases hshape : lexeme.shape with
  | word =>
    rw [hshape] at ht
    exact ⟨rfl, List.mem_singleton.mp ht⟩
  | blockComment closed | rawString closed =>
    rw [hshape] at ht
    exact absurd ht (hpieces rfl)
  | quoted closed =>
    rw [hshape] at ht
    cases closed with
    | false => cases ht
    | true =>
      obtain rfl := List.mem_singleton.mp ht
      cases hword
  | lineBreak | blank | strayClose =>
    rw [hshape] at ht
    cases ht
  | lineComment | number | operator | punctuation =>
    rw [hshape] at ht
    obtain rfl := List.mem_singleton.mp ht
    cases hword

/-- The kind of a word is that of its characters in front of the rest of the source. -/
theorem kind_eq_ofWord (ht : t ∈ tokenize options text region) (hword : t.kind.isWord = true) :
    t.kind = Kind.ofWord (slice text t.span) (suffix text t.span.stop) := by
  obtain ⟨⟨start, -, hlt, hmem⟩, -⟩ := mem_tokenize_iff_keeps.mp ht
  obtain ⟨-, rfl⟩ := eq_of_isWord hmem hword
  dsimp only
  rw [slice_headAt hlt, ← rest_headAt hlt]

/-- **A word is judged by its characters and by what follows it.** Let a token of any region be of a
kind of words. Its kind is told by the vocabularies that hold its characters, and for a word that is
in none of them by what follows the blanks behind it, up to the end of the source. Nothing else
matters: in any source and for any region, a word of the same characters with the same two
characters behind the blanks has the same kind. -/
theorem judgedBy_of_mem_tokenize (ht : t ∈ tokenize options text region)
    (hword : t.kind.isWord = true) :
    JudgedBy t.kind (slice text t.span) ((suffix text t.span.stop).dropWhile isBlank) ∧
    ∀ {τ : Type} [Source τ] (options' : Options) (text' : τ) (region' : Span),
      ∀ t' ∈ tokenize options' text' region', t'.kind.isWord = true →
        slice text' t'.span = slice text t.span →
        ((suffix text' t'.span.stop).dropWhile isBlank).take 2 =
          ((suffix text t.span.stop).dropWhile isBlank).take 2 →
        t'.kind = t.kind := by
  rw [kind_eq_ofWord ht hword]
  refine ⟨Kind.judgedBy_ofWord _ _, ?_⟩
  intro τ _ options' text' region' t' ht' hword' hslice hrest
  rw [kind_eq_ofWord ht' hword', hslice]
  exact Kind.ofWord_eq_of_take_eq hrest

/-- A call whose parenthesis stands on the next line and outside of the region, behind a word of two
vocabularies, and the same call alone. -/
theorem judgedBy_of_mem_tokenize_call :
    let text := Snapshot.ofString "typeid f\r\n\t(x)"
    let alone := Snapshot.ofString "f(x"
    tokenize {} text ⟨7, 8⟩ = [⟨⟨7, 8⟩, .reference⟩] ∧
      JudgedBy .reference ['f'] ['(', 'x', ')'] ∧
      JudgedBy .keyword "typeid".toList "f\r\n\t(x)".toList ∧
      ∃ t ∈ tokenize {} alone ⟨0, 3⟩, t.span = ⟨0, 1⟩ ∧ t.kind = .reference := by
  intro text alone
  have htokens : tokenize {} text ⟨7, 8⟩ = [⟨⟨7, 8⟩, .reference⟩] := by
    rw [tokenize_eq_steps]
    decide +kernel
  have hkeyword : ⟨⟨0, 6⟩, .keyword⟩ ∈ tokenize {} text ⟨0, 1⟩ := by
    rw [tokenize_eq_steps]
    decide +kernel
  have halone : ⟨⟨0, 1⟩, .reference⟩ ∈ tokenize {} alone ⟨0, 3⟩ := by
    rw [tokenize_eq_steps]
    decide +kernel
  have hcall := judgedBy_of_mem_tokenize (htokens ▸ List.mem_cons_self) rfl
  have hsame := hcall.2 {} alone ⟨0, 3⟩ _ halone rfl (by decide +kernel) (by decide +kernel)
  exact ⟨htokens, hcall.1, (judgedBy_of_mem_tokenize hkeyword rfl).1, _, halone, rfl, hsame⟩

end Scan

end OdinSyntax
