import OdinSyntax.Proofs.Scan.LineState
import OdinSyntax.Proofs.Text.LineEndings

/-!
# Line endings do not matter

A text whose line feeds become CRLF keeps its tokens, with their kinds and characters, and each of
them moves on by the number of line feeds before it (`tokenize_withCRLF`).

From corresponding offsets a step of the scan sees the same in both texts (`sameView_withCRLF`): a
line break of one character there is one of two here, the line feed and the CR are blank to a look
ahead, and all else is the same. So the two scans are parallel. The kind of a word may depend on
what is behind many line breaks, but they are blanks to that look ahead too (`ofWord_withCRLF`).
-/

namespace OdinSyntax

/-- The look ahead of a word passes over line breaks of both kinds. -/
theorem dropWhile_withCRLF (rest : List Char) :
    (withCRLF rest).dropWhile isBlank = withCRLF (rest.dropWhile isBlank) := by
  induction rest with
  | nil => rfl
  | cons c rest ih =>
    by_cases hc : c = '\n'
    · subst hc
      rw [withCRLF_lineFeed, List.dropWhile_cons_of_pos isBlank_carriageReturn,
        List.dropWhile_cons_of_pos isBlank_lineFeed, List.dropWhile_cons_of_pos isBlank_lineFeed,
        ih]
    · rw [withCRLF_cons_of_ne hc]
      by_cases hblank : isBlank c = true
      · rw [List.dropWhile_cons_of_pos hblank, List.dropWhile_cons_of_pos hblank, ih]
      · rw [List.dropWhile_cons_of_neg hblank, List.dropWhile_cons_of_neg hblank,
          withCRLF_cons_of_ne hc]

/-- What is behind a word is judged behind the blanks, and a CR is one more blank. -/
theorem ofWord_withCRLF (word rest : List Char) :
    Kind.ofWord word (withCRLF rest) = Kind.ofWord word rest := by
  have hhead := List.head?_dropWhile_not isBlank rest
  unfold Kind.ofWord
  rw [dropWhile_withCRLF]
  generalize rest.dropWhile isBlank = ahead at hhead ⊢
  -- Of what is ahead the first two characters matter, and the first one is no line feed.
  cases ahead with
  | nil => rfl
  | cons c tail =>
    have hc : c ≠ '\n' := by
      rintro rfl
      exact absurd hhead (by simp [isBlank_lineFeed])
    rw [withCRLF_cons_of_ne hc]
    cases tail with
    | nil => rfl
    | cons d tail =>
      by_cases hd : d = '\n'
      · subst hd
        rw [withCRLF_lineFeed]
        split <;> simp_all
      · rw [withCRLF_cons_of_ne hd]
        split <;> simp_all

namespace Scan

open Source Lexeme

variable {chars : List Char} {options : Options}

section Views

variable (hle : (withCRLF chars).length ≤ maxOffset)

include hle

/-- A line feed and the CR in its place are blanks. -/
theorem alike_withCRLF (offset : Nat) :
    Alike (charAt (Snapshot.ofList chars) offset)
      (charAt (Snapshot.ofList (withCRLF chars)) (crlfOffset chars offset)) := by
  rw [Snapshot.charAt_withCRLF hle]
  split
  · next hc => exact .inr ⟨by rw [hc, isBlank_lineFeed], isBlank_carriageReturn⟩
  · exact .inl rfl

variable (h : ¬ ['\r', '\n'] <:+: chars)

include h

/-- From corresponding offsets a step sees the same in both texts. -/
theorem sameView_withCRLF (here : Nat) :
    SameView (crlfOffset chars) (Snapshot.ofList chars) here (Snapshot.ofList (withCRLF chars))
      (crlfOffset chars here) := by
  have hbreak := Snapshot.lineBreakLength_of_not_infix hle h
  have hbreak' := Snapshot.lineBreakLength_withCRLF hle
  have hsucc := Snapshot.crlfOffset_succ_of_charAt hle
  -- Without a CRLF in the text, a character that starts no line break is no line feed.
  have hne : ∀ {offset}, lineBreakLength (Snapshot.ofList chars) offset = 0 →
      charAt (Snapshot.ofList chars) offset ≠ '\n' := by
    intro offset hzero hc
    rw [hbreak, if_pos hc] at hzero
    cases hzero
  have hmove : ∀ {offset}, lineBreakLength (Snapshot.ofList chars) offset = 0 →
      crlfOffset chars (offset + 1) = crlfOffset chars offset + 1 := by
    intro offset hzero
    rw [hsucc, if_neg (hne hzero)]
  constructor
  case lineBreak_iff =>
    rw [hbreak, hbreak']
    split <;> decide
  case move_lineBreak =>
    intro hpos
    have hc : charAt (Snapshot.ofList chars) here = '\n' := by
      apply Decidable.byContradiction
      intro hc
      rw [hbreak, if_neg hc] at hpos
      cases hpos
    rw [hbreak, hbreak', if_pos hc, if_pos hc, hsucc, if_pos hc]
  case move_add =>
    intro n _ hu
    induction n with
    | zero => rfl
    | succ n ih =>
      have hzero := hu (here + n) (Nat.le_add_right _ _) (Nat.lt_succ_self _)
      rw [← Nat.add_assoc, hmove hzero, ih (by omega) fun i hi hi' => hu i hi (by omega)]
      rfl
  case char_eq =>
    intro hzero
    rw [Snapshot.charAt_withCRLF hle, if_neg (hne hzero)]
  case next_alike =>
    intro hzero
    rw [← hmove hzero]
    exact alike_withCRLF hle _
  case afterNext_alike =>
    intro hzero hblank
    have hmove' := hmove (lineBreakLength_eq_zero_of_not_isBlank hblank)
    rw [hmove hzero] at hmove'
    exact hmove' ▸ alike_withCRLF hle (here + 2)
  case escape_iff =>
    intro hzero _
    rw [← hmove hzero, hbreak, hbreak', Snapshot.source_length, Snapshot.source_length,
      Snapshot.length_ofList_withCRLF hle, (strictMono_crlfOffset chars).lt_iff_lt]
    apply and_congr_right
    intro _
    split <;> decide

end Views

/-! ## Tokens -/

section Tokens

variable (hle : (withCRLF chars).length ≤ maxOffset) {t u : Token}
  (hu : Unbroken (Snapshot.ofList chars) t.span.start t.span.stop)
  (hlt : t.span.start < t.span.stop)

include hle hu hlt

/-- A token has its line feeds before its start. -/
theorem span_map_crlfOffset :
    t.span.map (crlfOffset chars) = t.span.map (· + (chars.take t.span.start).count '\n') := by
  have hmem := Snapshot.lineFeed_not_mem_of_unbroken hle hu
  rw [Span.map, crlfOffset_of_not_mem (Nat.le_of_lt hlt) hmem, crlfOffset]
  rfl

variable (hstop : t.span.stop ≤ length (Snapshot.ofList chars))

include hstop

/-- A token keeps its characters. -/
theorem slice_shift_withCRLF :
    slice (Snapshot.ofList (withCRLF chars))
        (t.shift ((chars.take t.span.start).count '\n')).span =
      slice (Snapshot.ofList chars) t.span := by
  have hslice := Snapshot.slice_withCRLF hle hu hlt hstop
  rw [Token.shift, ← span_map_crlfOffset hle hu hlt, Span.map, hslice]

theorem wordKind_withCRLF :
    wordKind (Snapshot.ofList (withCRLF chars)) (t.span.map (crlfOffset chars)) =
      wordKind (Snapshot.ofList chars) t.span := by
  have hslice := Snapshot.slice_withCRLF hle hu hlt hstop
  rw [wordKind_eq_ofWord, wordKind_eq_ofWord, Span.map, hslice]
  dsimp only
  rw [Snapshot.suffix_withCRLF hle, ofWord_withCRLF]

/-- All characters of a token move alike, since no line feed is in it. -/
theorem shift_eq_of_twin_withCRLF (htwin : Twin (crlfOffset chars) (Snapshot.ofList chars)
    (Snapshot.ofList (withCRLF chars)) t u) :
    t.shift ((chars.take t.span.start).count '\n') = u := by
  obtain ⟨hspan, hkind⟩ := htwin
  have hsame : u.kind = t.kind := by
    rcases hkind with hkind | ⟨hkind, hkind'⟩
    · exact hkind
    · rw [hkind, hkind', hspan, wordKind_withCRLF hle hu hlt hstop]
  rw [Token.shift, ← span_map_crlfOffset hle hu hlt, ← hspan, ← hsame]

end Tokens

/-- **Line endings do not matter.** Put a CRLF in the place of each line feed of a text that has no
CRLF. Each token keeps its kind and its characters and moves on by the number of line feeds before
it, and the two texts have the same lines. -/
theorem tokenize_withCRLF (h : ¬ ['\r', '\n'] <:+: chars)
    (hle : (withCRLF chars).length ≤ maxOffset) :
    let text := Snapshot.ofList chars
    let text' := Snapshot.ofList (withCRLF chars)
    (∀ options, tokenize options text' ⟨0, length text'⟩ =
        (tokenize options text ⟨0, length text⟩).map fun t =>
          t.shift ((chars.take t.span.start).count '\n')) ∧
      (∀ options, ∀ t ∈ tokenize options text ⟨0, length text⟩,
        slice text' (t.shift ((chars.take t.span.start).count '\n')).span =
          slice text t.span) ∧
      text'.lineCount = text.lineCount ∧
      ∀ line,
        (text'.lineSpan? line).map (slice text') = (text.lineSpan? line).map (slice text) := by
  intro text text'
  have hmono := strictMono_crlfOffset chars
  have hend : length text' = crlfOffset chars (length text) := Snapshot.length_ofList_withCRLF hle
  -- Both scans run side by side, from the start of the texts to their ends.
  have hstart : Parallel (crlfOffset chars) text text' [] {} {} := ⟨rfl, rfl, [], rfl, .nil⟩
  have hrun := parallel_run hmono (fun x _ => sameView_withCRLF hle h x) hend hstart (inv_init ..)
  refine ⟨fun options => ?_, fun options t ht => ?_, Snapshot.lineCount_withCRLF hle,
    Snapshot.map_slice_lineSpan?_withCRLF hle h⟩
  · have hkept := kept_tokenize options text ⟨0, length text⟩
    obtain ⟨twins, htokens, htwins⟩ := (parallel_finish hmono hrun hend options).exists_twins
    have hshift : (tokenize options text ⟨0, length text⟩).map
        (fun t => t.shift ((chars.take t.span.start).count '\n')) = twins := by
      rw [← List.forall₂_eq_eq_eq, List.forall₂_map_left_iff]
      apply ((List.forall₂_and_left _ _).mpr ⟨fun t ht => ht, htwins⟩).imp
      intro t u ⟨ht, htwin⟩
      exact shift_eq_of_twin_withCRLF hle (hkept.unbroken t ht) (hkept.nonempty t ht)
        (hkept.stop_le t ht) htwin
    rw [hshift]
    exact htokens
  · have hkept := kept_tokenize options text ⟨0, length text⟩
    exact slice_shift_withCRLF hle (hkept.unbroken t ht) (hkept.nonempty t ht) (hkept.stop_le t ht)

/-- A lone CR, a comment over two lines, and a word whose parenthesis is on the next line. The
second part of the comment and the word have the same characters in both texts. -/
theorem tokenize_withCRLF_call :
    let chars := ['x', '\r', '/', '*', '\n', '*', '/', 'f', '\n', '(']
    let text := Snapshot.ofList chars
    let text' := Snapshot.ofList (withCRLF chars)
    ¬ ['\r', '\n'] <:+: chars ∧ (withCRLF chars).length ≤ maxOffset ∧
      tokenize {} text ⟨0, length text⟩ = [⟨⟨0, 1⟩, .identifier⟩, ⟨⟨2, 4⟩, .comment⟩,
        ⟨⟨5, 7⟩, .comment⟩, ⟨⟨7, 8⟩, .reference⟩, ⟨⟨9, 10⟩, .punctuation⟩] ∧
      tokenize {} text' ⟨0, length text'⟩ = [⟨⟨0, 1⟩, .identifier⟩, ⟨⟨2, 4⟩, .comment⟩,
        ⟨⟨6, 8⟩, .comment⟩, ⟨⟨8, 9⟩, .reference⟩, ⟨⟨11, 12⟩, .punctuation⟩] ∧
      slice text' ⟨6, 8⟩ = ['*', '/'] ∧ slice text' ⟨8, 9⟩ = ['f'] := by
  intro chars text text'
  have h : ¬ ['\r', '\n'] <:+: chars := by simp [chars, List.infix_cons_iff]
  have hle : (withCRLF chars).length ≤ maxOffset := by decide
  have htokens : tokenize {} text ⟨0, length text⟩ = [⟨⟨0, 1⟩, .identifier⟩, ⟨⟨2, 4⟩, .comment⟩,
      ⟨⟨5, 7⟩, .comment⟩, ⟨⟨7, 8⟩, .reference⟩, ⟨⟨9, 10⟩, .punctuation⟩] := by
    rw [tokenize_eq_steps]
    decide +kernel
  obtain ⟨htokens', hslices, -⟩ := tokenize_withCRLF h hle
  have hmoved := htokens' {}
  rw [htokens] at hmoved
  have hcomment := hslices {} ⟨⟨5, 7⟩, .comment⟩ (by rw [htokens]; decide)
  have hword := hslices {} ⟨⟨7, 8⟩, .reference⟩ (by rw [htokens]; decide)
  exact ⟨h, hle, htokens, hmoved, hcomment, hword⟩

end Scan

end OdinSyntax
