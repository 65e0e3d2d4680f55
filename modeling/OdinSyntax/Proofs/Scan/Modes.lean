import OdinSyntax.Proofs.Scan.Invariant

/-!
# What the mode of a scan says

Between two steps, a scan knows of the text before it no more than its position and its mode. This
module spells out what a mode says of the characters that have been read (`TrueToMode`). Most of it
is the invariant of the scan. What is new is the depth of a block comment, which counts the
delimiters since the comment was entered.

The depth is compared with the text. `InCommentSince` says at which offset the present comment was
entered, and `delimiters` reads the delimiters of the text behind it. A scan that is in a comment
reads on where it has left off: the delimiters up to any later offset are those up to the position
followed by those behind it (`SplitsAt`). A step keeps that, one case for each thing it may find
(`SplitsAt.opener`, `.closer`, `.skip`).

Main statement: **`reached_trueToMode`**.
-/

namespace OdinSyntax.Scan

open Source

/-! ## Delimiters of a text -/

/-- What opens or closes a block comment. -/
inductive Delimiter
  | opener
  | closer
deriving DecidableEq

/-- The delimiters of comments in a text, read from its start on, so that no two share a character.
-/
def delimiters : List Char → List Delimiter
  | [] => []
  | '/' :: '*' :: rest => .opener :: delimiters rest
  | '*' :: '/' :: rest => .closer :: delimiters rest
  | _ :: rest => delimiters rest

example : delimiters "/*/**/*".toList = [.opener, .opener, .closer] := by decide

theorem delimiters_cons {c : Char} {rest : List Char}
    (hopen : ¬ (c = '/' ∧ rest.head? = some '*')) (hclose : ¬ (c = '*' ∧ rest.head? = some '/')) :
    delimiters (c :: rest) = delimiters rest := by
  rw [delimiters]
  · rintro rest rfl rfl
    exact hopen ⟨rfl, rfl⟩
  · rintro rest rfl rfl
    exact hclose ⟨rfl, rfl⟩

section SplitsAt

variable {σ : Type} [Source σ] {text : σ} {entry here : Nat} {read : List Delimiter}

/-- From `entry` on, the delimiters `read` come before `here`, and none of them goes on behind it.
-/
def SplitsAt (text : σ) (entry here : Nat) (read : List Delimiter) : Prop :=
  ∀ stop, here ≤ stop → stop ≤ length text →
    delimiters (slice text ⟨entry, stop⟩) = read ++ delimiters (slice text ⟨here, stop⟩)

theorem splitsAt_self (text : σ) (entry : Nat) : SplitsAt text entry entry [] :=
  fun _ _ _ => rfl

/-- Up to the present offset, these are all delimiters. -/
theorem SplitsAt.eq (h : SplitsAt text entry here read) (hle : here ≤ length text) :
    delimiters (slice text ⟨entry, here⟩) = read := by
  rw [h here (Nat.le_refl _) hle, slice_self, delimiters, List.append_nil]

/-- An opener is one delimiter, and its star does not start another one. -/
theorem SplitsAt.opener (h : SplitsAt text entry here read)
    (hopen : charAt text here = '/' ∧ charAt text (here + 1) = '*') :
    SplitsAt text entry (here + 2) (read ++ [.opener]) := by
  intro stop hstop hle
  rw [h stop (by omega) hle, slice_of_lt (show here < stop by omega) hle,
    slice_of_lt (show here + 1 < stop by omega) hle, hopen.1, hopen.2, delimiters]
  simp

/-- A closer is one delimiter, and its slash does not start another one. -/
theorem SplitsAt.closer (h : SplitsAt text entry here read)
    (hclose : charAt text here = '*' ∧ charAt text (here + 1) = '/') :
    SplitsAt text entry (here + 2) (read ++ [.closer]) := by
  intro stop hstop hle
  rw [h stop (by omega) hle, slice_of_lt (show here < stop by omega) hle,
    slice_of_lt (show here + 1 < stop by omega) hle, hclose.1, hclose.2, delimiters]
  simp

theorem SplitsAt.skip (h : SplitsAt text entry here read)
    (hopen : ¬ (charAt text here = '/' ∧ charAt text (here + 1) = '*'))
    (hclose : ¬ (charAt text here = '*' ∧ charAt text (here + 1) = '/')) :
    SplitsAt text entry (here + 1) read := by
  intro stop hstop hle
  have hnext : ∀ c, (slice text ⟨here + 1, stop⟩).head? = some c → charAt text (here + 1) = c := by
    intro c hc
    rw [List.head?_eq_getElem?] at hc
    exact (charAt_of_getElem?_slice hle hc).2
  rw [h stop (by omega) hle, slice_of_lt (show here < stop by omega) hle,
    delimiters_cons (fun hc => hopen ⟨hc.1, hnext _ hc.2⟩) (fun hc => hclose ⟨hc.1, hnext _ hc.2⟩)]

/-- No character of a line break is one of a delimiter. -/
theorem SplitsAt.lineBreak (h : SplitsAt text entry here read) :
    SplitsAt text entry (here + lineBreakLength text here) read := by
  have hskip : ∀ n ≤ lineBreakLength text here, SplitsAt text entry (here + n) read := by
    intro n hn
    induction n with
    | zero => exact h
    | succ n ih =>
      have hblank : isBlank (charAt text (here + n)) = true :=
        isBlank_of_lt_lineBreakLength (Nat.le_add_right _ _) (by omega)
      have hne : ∀ {c : Char}, isBlank c = false → charAt text (here + n) ≠ c := by
        rintro c hc rfl
        rw [hblank] at hc
        cases hc
      exact (ih (by omega)).skip (fun hc => hne isBlank_slash hc.1)
        (fun hc => hne isBlank_star hc.1)
  exact hskip _ (Nat.le_refl _)

end SplitsAt

/-! ## Entering and staying in a comment -/

variable {σ : Type} [Source σ] {text : σ} {region : Span} {st st' : State} {entry : Nat}

/-- Whether a block comment is being read. -/
def Mode.InBlockComment (mode : Mode) : Prop :=
  ∃ segment depth, mode = .blockComment segment depth

/-- The scan is in a block comment that it entered at the offset `entry`. -/
inductive InCommentSince (text : σ) (region : Span) : Nat → State → Prop
  | enter {st st' : State} (h : Reached text region st) (hbefore : ¬ st.mode.InBlockComment)
    (hnext : Next text region st st') (hin : st'.mode.InBlockComment) :
    InCommentSince text region st.position st'
  | stay {entry : Nat} {st st' : State} (h : InCommentSince text region entry st)
    (hnext : Next text region st st') (hin : st'.mode.InBlockComment) :
    InCommentSince text region entry st'

/-- What the state of a scan in a comment has to do with the text since `entry`. -/
structure CountsSince (text : σ) (entry : Nat) (st : State) : Prop where
  opens : charAt text entry = '/' ∧ charAt text (entry + 1) = '*'
  le_position : entry + 2 ≤ st.position
  counts : ∃ segment depth read, st.mode = .blockComment segment depth ∧
    SplitsAt text (entry + 2) st.position read ∧
    depth + read.count .closer = 1 + read.count .opener

/-- A step in a word stays in the word or leads back to code. -/
theorem not_inBlockComment_wordStep (text : σ) (region : Span) (start : Nat) (st : State) :
    ¬ (wordStep text region start st).mode.InBlockComment := by
  fun_cases wordStep text region start st <;>
  · rintro ⟨segment, depth, hmode⟩
    cases hmode

theorem not_inBlockComment_symbolStep (text : σ) (region : Span) (st : State) :
    ¬ (symbolStep text region st).mode.InBlockComment := by
  fun_cases symbolStep text region st <;>
  · rintro ⟨segment, depth, hmode⟩
    cases hmode

/-- In code, only the opener at the position leads into a comment. -/
theorem countsSince_codeStep (hin : (codeStep text region st).mode.InBlockComment) :
    CountsSince text st.position (codeStep text region st) := by
  revert hin
  fun_cases codeStep text region st with
  | case2 start c next _ _ hopen =>
    intro _
    exact ⟨hopen, Nat.le_refl _, start, 1, [], rfl, splitsAt_self _ _, rfl⟩
  | case9 => exact fun hin => absurd hin (not_inBlockComment_symbolStep text region st)
  | case11 => exact fun hin => absurd hin (not_inBlockComment_wordStep text region _ st)
  | _ =>
    rintro ⟨segment, depth, hmode⟩
    cases hmode

/-- A comment is entered from code, or from a number that has ended before the position. -/
theorem countsSince_of_enters (hbefore : ¬ st.mode.InBlockComment)
    (hin : (step text region st).mode.InBlockComment) :
    CountsSince text st.position (step text region st) := by
  revert hin
  fun_cases step text region st with
  | case1 => exact countsSince_codeStep
  | case2 start => exact fun hin => absurd hin (not_inBlockComment_wordStep text region start st)
  | case3 start =>
    fun_cases numberStep text region start st with
    | case1 =>
      rintro ⟨segment, depth, hmode⟩
      cases hmode
    | case2 =>
      -- The number is closed and the opener is read in one step, both at the position.
      intro hin
      simpa using countsSince_codeStep hin
  | case4 quote start =>
    fun_cases quotedStep text region quote start st <;>
    · rintro ⟨segment, depth, hmode⟩
      cases hmode
  | case5 segment =>
    fun_cases rawStringStep text region segment st <;>
    · rintro ⟨segment, depth, hmode⟩
      cases hmode
  | case6 start =>
    fun_cases lineCommentStep text region start st <;>
    · rintro ⟨segment, depth, hmode⟩
      cases hmode
  | case7 segment depth hmode => exact absurd ⟨segment, depth, hmode⟩ hbefore

/-- A step that stays in the comment counts the delimiter that it reads, if any. -/
theorem CountsSince.step (h : CountsSince text entry st)
    (hin : (step text region st).mode.InBlockComment) :
    CountsSince text entry (step text region st) := by
  obtain ⟨hopens, hle, segment, depth, read, hmode, hsplits, hcount⟩ := h
  have hle' : entry + 2 ≤ (Scan.step text region st).position :=
    Nat.le_trans hle (Nat.le_of_lt (position_lt_step text region st))
  have hstep : Scan.step text region st = blockCommentStep text region segment depth st := by
    rw [Scan.step, hmode]
  refine ⟨hopens, hle', ?_⟩
  rw [hstep] at hin ⊢
  revert hin
  fun_cases blockCommentStep text region segment depth st with
  | case1 here c next hopen =>
    intro _
    refine ⟨segment, depth + 1, read ++ [Delimiter.opener], rfl, hsplits.opener hopen, ?_⟩
    rw [List.count_append, List.count_append, List.count_singleton_self]
    show depth + 1 + (_ + 0) = _
    omega
  -- The last closer leads out of the comment.
  | case2 =>
    rintro ⟨segment, depth, hmode⟩
    cases hmode
  | case3 here c next _ hclose hdepth =>
    intro _
    refine ⟨segment, depth - 1, read ++ [Delimiter.closer], rfl, hsplits.closer hclose, ?_⟩
    rw [List.count_append, List.count_append, List.count_singleton_self]
    show _ = 1 + (_ + 0)
    omega
  | case4 here c next breakLength hopen hclose hbreak =>
    intro _
    refine ⟨_, depth, read, rfl, ?_, hcount⟩
    rw [State.position_enter, State.position_emit]
    exact hsplits.lineBreak
  | case5 here c next breakLength hopen hclose hbreak =>
    intro _
    exact ⟨segment, depth, read, rfl, hsplits.skip hopen hclose, hcount⟩

/-- As long as the scan is in a comment, the depth counts the delimiters since it was entered. -/
theorem InCommentSince.countsSince (h : InCommentSince text region entry st) :
    CountsSince text entry st := by
  induction h with
  | enter _ hbefore hnext hin =>
    obtain ⟨-, rfl⟩ := hnext
    exact countsSince_of_enters hbefore hin
  | stay _ hnext hin ih =>
    obtain ⟨-, rfl⟩ := hnext
    exact ih.step hin

/-- A scan that is in a comment has entered it somewhere. -/
theorem Reached.exists_inCommentSince (h : Reached text region st) (hin : st.mode.InBlockComment) :
    ∃ entry, InCommentSince text region entry st := by
  induction h with
  | refl =>
    obtain ⟨segment, depth, hmode⟩ := hin
    cases hmode
  | @tail st st' hreached hnext ih =>
    by_cases hbefore : st.mode.InBlockComment
    · obtain ⟨entry, hsince⟩ := ih hbefore
      exact ⟨entry, hsince.stay hnext hin⟩
    · exact ⟨st.position, .enter hreached hbefore hnext hin⟩

/-! ## Modes -/

/-- What the mode of a state between two steps says of the text before the position, and where the
tokens end that were found. -/
structure TrueToMode (text : σ) (region : Span) (st : State) : Prop where
  /-- No token that was found extends behind the start of the next one. -/
  stop_le_frontier : ∀ t ∈ st.tokens.toList, t.span.stop ≤ st.frontier
  frontier_le_position : st.frontier ≤ st.position
  number : ∀ start, st.mode = .number start →
    ∀ i, start ≤ i → i < st.position → isNumberPart (charAt text i) = true
  /-- The character at the position is one of the word. -/
  word : ∀ start, st.mode = .word start → st.position < length text ∧
    ∀ i, start ≤ i → i ≤ st.position →
      isBlank (charAt text i) = false ∧ isPunctuation (charAt text i) = false
  /-- No line break lies in what has been read of the next token. -/
  unbroken : Unbroken text st.frontier st.position
  depth_bounds : ∀ segment depth, st.mode = .blockComment segment depth →
    1 ≤ depth ∧ 2 * depth ≤ st.position
  entered : st.mode.InBlockComment → ∃ entry, InCommentSince text region entry st
  /-- The depth of a comment counts the delimiters behind the opener with which it was entered. -/
  depth_add_closers : ∀ segment depth entry, st.mode = .blockComment segment depth →
    InCommentSince text region entry st →
      (charAt text entry = '/' ∧ charAt text (entry + 1) = '*') ∧ entry + 2 ≤ st.position ∧
      depth + (delimiters (slice text ⟨entry + 2, st.position⟩)).count .closer =
        1 + (delimiters (slice text ⟨entry + 2, st.position⟩)).count .opener

/-- The delimiters that were counted are those of the text between the opener and the position. -/
theorem InCommentSince.counts_slice {segment depth : Nat}
    (h : InCommentSince text region entry st) (hmode : st.mode = .blockComment segment depth)
    (hle : st.position ≤ length text) :
    depth + (delimiters (slice text ⟨entry + 2, st.position⟩)).count .closer =
      1 + (delimiters (slice text ⟨entry + 2, st.position⟩)).count .opener := by
  obtain ⟨segment', depth', read, hmode', hsplits, hcount⟩ := h.countsSince.counts
  obtain ⟨rfl, rfl⟩ := Mode.blockComment.inj (hmode.symm.trans hmode')
  rw [hsplits.eq hle]
  exact hcount

/-- A token starts before the position or at it, and what has been read of it is in one line. -/
theorem Inv.frontier_le (h : Inv text region st) :
    st.frontier ≤ st.position ∧ Unbroken text st.frontier st.position := by
  obtain ⟨position, mode, tokens⟩ := st
  obtain ⟨-, hfits, -⟩ := h
  cases mode with
  | code => exact ⟨Nat.le_refl _, Unbroken.refl _ _⟩
  | word start =>
    refine ⟨Nat.le_of_lt hfits.1, unbroken_of_not_isBlank fun i hi hi' => ?_⟩
    exact ((isWordPart_iff _).mp (hfits.2.2 i hi (Nat.le_of_lt hi'))).1
  | number start => exact ⟨Nat.le_of_lt hfits.1, hfits.unbroken_number⟩
  | quoted quote start | lineComment start => exact ⟨Nat.le_of_lt hfits.1, hfits.2⟩
  | rawString segment => exact hfits
  | blockComment segment depth => exact ⟨hfits.1, hfits.2.1⟩

/-- Each part comes from the invariant or, for comments, from the run since their entry. -/
theorem Reached.trueToMode (h : Reached text region st) : TrueToMode text region st where
  stop_le_frontier := h.inv.kept.stop_le
  frontier_le_position := h.inv.frontier_le.1
  number := by
    intro start hmode
    have hfits := h.inv.fits
    rw [hmode] at hfits
    exact hfits.2
  word := by
    intro start hmode
    have hfits := h.inv.fits
    rw [hmode] at hfits
    exact ⟨hfits.2.1, fun i hi hi' => (isWordPart_iff _).mp (hfits.2.2 i hi hi')⟩
  unbroken := h.inv.frontier_le.2
  depth_bounds := by
    intro segment depth hmode
    have hfits := h.inv.fits
    rw [hmode] at hfits
    exact hfits.2.2
  -- The invariant says nothing of the opener, which may be any number of steps ago.
  entered := h.exists_inCommentSince
  depth_add_closers := by
    intro segment depth entry hmode hsince
    have hcounts := hsince.countsSince
    exact ⟨hcounts.opens, hcounts.le_position, hsince.counts_slice hmode h.inv.position_le⟩

/-- **Modes are true of the text.** In every state between two steps of a scan, for every text and
region, the mode says of the characters before the position what `TrueToMode` lists. So the scan
does not end within a word, and when what is open at the end of the text is closed, the mode is that
of code. -/
theorem reached_trueToMode (text : σ) (region : Span) :
    (∀ st, Reached text region st → TrueToMode text region st) ∧
    (∀ start, (scan text region).mode ≠ .word start) ∧
    ∀ options, (finish options (length text) region (scan text region)).mode = .code := by
  refine ⟨fun _ h => h.trueToMode, ?_, fun _ => rfl⟩
  intro start hmode
  have hlt := ((reached_scan text region).trueToMode.word start hmode).1
  rw [position_scan] at hlt
  exact Nat.lt_irrefl _ hlt

/-- A comment right behind a number, which holds a comment of its own and a line break. -/
theorem reached_trueToMode_nestedComment :
    let text := Snapshot.ofString "1/*/**/\n"
    let st : State := ⟨8, .blockComment 8 1, #[⟨⟨0, 1⟩, .number⟩, ⟨⟨1, 7⟩, .comment⟩]⟩
    Reached text ⟨0, 8⟩ st ∧ InCommentSince text ⟨0, 8⟩ 1 st ∧
      delimiters (slice text ⟨3, 8⟩) = [.opener, .closer] ∧ TrueToMode text ⟨0, 8⟩ st := by
  intro text st
  let inComment (position depth : Nat) : State :=
    ⟨position, .blockComment 1 depth, #[⟨⟨0, 1⟩, .number⟩]⟩
  have hnumber : Reached text ⟨0, 8⟩ ⟨1, .number 0, #[]⟩ := .single ⟨by decide, rfl⟩
  have henter : Next text ⟨0, 8⟩ ⟨1, .number 0, #[]⟩ (inComment 3 1) := ⟨by decide, rfl⟩
  have hopen : Next text ⟨0, 8⟩ (inComment 3 1) (inComment 5 2) := ⟨by decide, rfl⟩
  have hclose : Next text ⟨0, 8⟩ (inComment 5 2) (inComment 7 1) := ⟨by decide, rfl⟩
  have hbreak : Next text ⟨0, 8⟩ (inComment 7 1) st := ⟨by decide, rfl⟩
  have hreached : Reached text ⟨0, 8⟩ st :=
    (((hnumber.tail henter).tail hopen).tail hclose).tail hbreak
  have hsince : InCommentSince text ⟨0, 8⟩ 1 (inComment 3 1) := by
    refine .enter hnumber ?_ henter ⟨_, _, rfl⟩
    rintro ⟨segment, depth, hmode⟩
    cases hmode
  refine ⟨hreached, ?_, by decide, (reached_trueToMode text ⟨0, 8⟩).1 st hreached⟩
  exact ((hsince.stay hopen ⟨_, _, rfl⟩).stay hclose ⟨_, _, rfl⟩).stay hbreak ⟨_, _, rfl⟩

end OdinSyntax.Scan
