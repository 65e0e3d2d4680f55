import OdinSyntax.Proofs.Scan.Lexemes
import OdinSyntax.Proofs.Text.Lines

/-!
# Tokens and lines

The scan looks for line breaks character by character, in each of its modes, and the line index of
a snapshot is built from the line feeds alone. They agree (`tokenize_agrees_with_lines`): a token
lies within one line of the index, and where a block comment or a raw string extends over a line,
the only token on that line is the line itself.

For the first part a token need only hold no line break. For the second one, the line is found among
the pieces of the construct (`mem_pieces_headAt`), the scan keeps the tokens of the construct
(`Reached.mem_tokenize`), and since tokens do not overlap there is no other on the line. The extent
of a construct is that of the lexeme at its first character, which the scan reads to its end
(`Between.leads_headAt`).
-/

namespace OdinSyntax.Scan

open Source Lexeme

section Constructs

variable {σ : Type} [Source σ] {options : Options} {text : σ} {region : Span} {st : State}

/-! ## Constructs that the scan meets -/

/-- Where the scan begins a lexeme it is between two of them. -/
theorem Reached.exists_between (options : Options) (h : Reached text region st)
    (hat : st.AtLexeme text) :
    ∃ tokens, Between options text region st.position tokens st := by
  rcases hat with hmode | ⟨start, hmode, hend⟩
  · exact ⟨_, between_code hmode h.inv.position_le⟩
  · exact ⟨_, between_number hmode h.inv.position_le hend⟩

/-- The tokens of a lexeme that the scan begins are found, as far as the region keeps them. -/
theorem Reached.mem_tokenize (h : Reached text region st) (hat : st.AtLexeme text)
    (hlt : st.position < length text) {t : Token}
    (ht : t ∈ (headAt text st.position).tokens options) (hkeeps : keeps region t = true) :
    t ∈ tokenize options text region := by
  obtain ⟨tokens, hbetween⟩ := h.exists_between options hat
  have hrun : run text region {} = run text region st := run_eq_of_reaches h
  rw [tokenize, scan, hrun, hbetween.finish_run, lexemesFrom_suffix hlt, List.flatMap_cons]
  apply List.mem_append_right
  exact List.mem_filter.mpr ⟨List.mem_append_left _ ht, hkeeps⟩

/-- With tails, the pieces of a construct that have characters are its tokens. -/
theorem mem_tokens_of_mem_pieces {lexeme : Lexeme} {kind : Kind} {span : Span}
    (htails : options.emitTails = true) (hkind : lexeme.shape.pieceKind? = some kind)
    (hmem : span ∈ piecesFrom lexeme.offset lexeme.offset lexeme.text)
    (hempty : span.isEmpty = false) : ⟨span, kind⟩ ∈ lexeme.tokens options := by
  have hpieces : ∀ closed, span ∈ lexeme.pieces options closed := by
    intro closed
    rw [pieces, htails, Bool.or_true, if_pos rfl]
    exact List.mem_filter.mpr ⟨hmem, by rw [hempty]; rfl⟩
  unfold Shape.pieceKind? at hkind
  split at hkind
  · next closed hshape =>
    cases hkind
    rw [tokens, hshape]
    exact List.mem_map_of_mem (hpieces closed)
  · next closed hshape =>
    cases hkind
    rw [tokens, hshape]
    exact List.mem_map_of_mem (hpieces closed)
  · cases hkind

end Constructs

/-! ## Lines of a snapshot -/

variable {options : Options} {s : Snapshot} {region : Span} {st : State}

/-- A token ends on the line on which it starts. -/
theorem Kept.stop_le_lineStop {bound : Nat} {tokens : List Token} {t : Token}
    (h : Kept s region bound tokens) (hbound : bound ≤ s.length) (ht : t ∈ tokens) :
    t.span.stop ≤ s.lineStop (s.lineOf t.span.start) :=
  Snapshot.le_lineStop_lineOf (h.nonempty t ht) (Nat.le_trans (h.stop_le t ht) hbound)
    (h.unbroken t ht)

/-- A line within a construct is one of the pieces of the construct. -/
theorem mem_pieces_headAt {position line : Nat} {kind : Kind} (hlt : position < s.length)
    (hkind : (headAt s position).shape.pieceKind? = some kind) (hline : line < s.lineCount)
    (hwithin : (headAt s position).span.containsSpan ⟨s.lineStart line, s.lineStop line⟩ = true) :
    ⟨s.lineStart line, s.lineStop line⟩ ∈
      piecesFrom (headAt s position).offset (headAt s position).offset
        (headAt s position).text := by
  obtain ⟨shape, n, hext, hleads⟩ :=
    @exists_leads_codeStep _ _ {} s s.whole ⟨position, .code, #[]⟩ hlt
  have hle : position + (n + 1) ≤ s.length := hleads.position_le
  rw [Span.containsSpan_iff, Lexeme.span, length_text_headAt hlt hext hle] at hwithin
  rw [headAt_eq hlt hext] at hkind hwithin ⊢
  obtain ⟨hstart, hstop⟩ : position ≤ s.lineStart line ∧ s.lineStop line ≤ position + (n + 1) :=
    hwithin
  apply mem_piecesFrom hstart _ (Snapshot.lineStart_le_lineStop hline)
    (Snapshot.unbroken_line hline) hstop hle
  · intro hbefore
    have hpos := Snapshot.lineBreakLength_lineStop_pos (Nat.lt_of_lt_of_le hbefore hle)
    refine ⟨hpos, ?_⟩
    -- A closer is not the CR of a CRLF, so the construct does not end within the line break.
    rcases lineBreakLength_last hext hle (by rw [hkind]; rfl) with hend | hzero
    · rw [hend]
      exact add_lineBreakLength_le (Snapshot.lineStop_le_length hline)
    · have hshort := lineBreakLength_le s (s.lineStop line)
      have hne : s.lineStop line ≠ position + n := by
        intro h
        rw [h, hzero] at hpos
        exact absurd hpos (Nat.lt_irrefl 0)
      omega
  · intro hbefore
    exact Snapshot.lineFeed_of_lineStart_pos hline (Nat.zero_lt_of_lt hbefore)

/-- **The scan and the line index agree on lines.** Every token lies within the content of one line
of the index and holds no line break. Conversely, with tails, for every block comment or raw string
that the scan of the whole text meets in code, and every line with characters that lies within it,
there is one token on that line, and its span is the line. -/
theorem tokenize_agrees_with_lines (options : Options) (s : Snapshot) :
    (∀ region, ∀ t ∈ tokenize options s region,
      ∃ line, s.lineSpan? (s.lineOf t.span.start) = some line ∧
        line.containsSpan t.span = true ∧ Unbroken s t.span.start t.span.stop) ∧
    (options.emitTails = true → ∀ st, Reached s s.whole st → st.AtLexeme s →
      st.position < s.length → ∀ kind, (headAt s st.position).shape.pieceKind? = some kind →
      ∀ line span, s.lineSpan? line = some span → span.isEmpty = false →
      (headAt s st.position).span.containsSpan span = true →
      (tokenize options s s.whole).filter (·.span.intersects span) = [⟨span, kind⟩]) := by
  constructor
  · intro region t ht
    have hkept := kept_tokenize options s region
    have hstop := hkept.stop_le_lineStop (Nat.le_refl _) ht
    refine ⟨_, Snapshot.lineSpan?_eq (s.lineOf_lt _), ?_, hkept.unbroken t ht⟩
    exact (Span.containsSpan_iff _ _).mpr ⟨s.lineStart_lineOf_le _, hstop⟩
  · intro htails st hreached hat hlt kind hkind line span hspan hempty hwithin
    obtain ⟨hline, rfl⟩ := Snapshot.lineSpan?_eq_some_iff.mp hspan
    -- The line is a piece of the construct, the piece is a token, and no other token meets it.
    have hpiece := mem_pieces_headAt hlt hkind hline hwithin
    have htoken := mem_tokens_of_mem_pieces htails hkind hpiece hempty
    have hlt' : s.lineStart line < s.lineStop line := (Span.isEmpty_eq_false_iff _).mp hempty
    have hkeeps : keeps s.whole ⟨⟨s.lineStart line, s.lineStop line⟩, kind⟩ = true :=
      @keeps_whole _ _ s ⟨⟨s.lineStart line, s.lineStop line⟩, kind⟩ hlt'
        (Snapshot.lineStop_le_length hline)
    have hmem := hreached.mem_tokenize hat hlt htoken hkeeps
    exact (kept_tokenize options s s.whole).filter_intersects hmem

/-- A block comment over three lines behind a number. The first line ends with CRLF, and the second
one is empty. -/
def commentedLines : Snapshot :=
  .ofString "7/*a\r\n\nbc*/\nd"

/-- The last line of a comment behind a number, and the one token on it. -/
theorem tokenize_agrees_with_lines_commentedLines :
    (headAt commentedLines 1).span = ⟨1, 11⟩ ∧ commentedLines.lineSpan? 2 = some ⟨7, 11⟩ ∧
      (tokenize {} commentedLines commentedLines.whole).filter (·.span.intersects ⟨7, 11⟩) =
        [⟨⟨7, 11⟩, .comment⟩] ∧
      ∃ line, commentedLines.lineSpan? (commentedLines.lineOf 7) = some line ∧
        line.containsSpan ⟨7, 11⟩ = true := by
  obtain ⟨hwithin, hpieces⟩ := tokenize_agrees_with_lines {} commentedLines
  have hcomment : (headAt commentedLines 1).span = ⟨1, 11⟩ := rfl
  have hline : commentedLines.lineSpan? 2 = some ⟨7, 11⟩ := rfl
  -- The scan waits in the number for its first other character.
  have hreached : Reached commentedLines commentedLines.whole
      (step commentedLines commentedLines.whole {}) := reaches_step (by decide)
  have htoken := hpieces rfl _ hreached (.inr ⟨0, rfl, rfl⟩) (by decide) .comment rfl 2 ⟨7, 11⟩
    hline rfl rfl
  have hmem : ⟨⟨7, 11⟩, .comment⟩ ∈
      (tokenize {} commentedLines commentedLines.whole).filter (·.span.intersects ⟨7, 11⟩) := by
    rw [htoken]
    exact List.mem_cons_self
  obtain ⟨line, hlineOf, hcontains, -⟩ := hwithin _ _ (List.mem_filter.mp hmem).1
  exact ⟨hcomment, hline, htoken, line, hlineOf, hcontains⟩

end OdinSyntax.Scan
