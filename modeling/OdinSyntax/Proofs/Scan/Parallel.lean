import Mathlib.Data.List.Forall2
import Mathlib.Order.Monotone.Basic
import OdinSyntax.Proofs.Scan.Lexemes

/-!
# Parallel scans

Two texts may look alike from some offset in the one and from some offset in the other: behind a
common beginning, in front of a common end, or everywhere but for the length of their line breaks.
Scans that are there in the same mode then make the same step.

Which offsets correspond is told by a map `move` from the one text to the other, and `SameView` says
what a step needs of the characters ahead. That is little: behind a line feed, and behind a blank
that follows an operator, it does not matter what comes. `Parallel` relates the states of the two
scans. Each of the functions that make a step keeps it (`parallel_codeStep`, ...), and so does a
run over offsets with the same view (`Parallel.exists_reaches`).

The kind of a word depends on characters that are further ahead than a step looks. Tokens of
parallel scans are therefore only *twins*: their spans correspond, and their kinds are the same or
are those of a word (`Twin`).
-/

namespace OdinSyntax

/-- The span whose bounds are those of `s`, moved. -/
def Span.map (move : Nat → Nat) (s : Span) : Span :=
  ⟨move s.start, move s.stop⟩

namespace Scan

open Source Lexeme

/-- The mode that holds the same lexeme at moved offsets. -/
def Mode.map (move : Nat → Nat) : Mode → Mode
  | code => code
  | word start => word (move start)
  | number start => number (move start)
  | quoted quote start => quoted quote (move start)
  | rawString segment => rawString (move segment)
  | lineComment start => lineComment (move start)
  | blockComment segment depth => blockComment (move segment) depth

variable {σ τ : Type} [Source σ] [Source τ] {move : Nat → Nat} {text : σ} {text' : τ}
  {before : List Token} {st st' : State}

/-! ## What a step sees -/

/-- From `here` in the one text and `here'` in the other, a step sees the same. -/
structure SameView (move : Nat → Nat) (text : σ) (here : Nat) (text' : τ) (here' : Nat) : Prop where
  lineBreak_iff : 0 < lineBreakLength text' here' ↔ 0 < lineBreakLength text here
  move_lineBreak : 0 < lineBreakLength text here →
    move (here + lineBreakLength text here) = here' + lineBreakLength text' here'
  move_add : ∀ n ≤ 3, Unbroken text here (here + n) → move (here + n) = here' + n
  char_eq : lineBreakLength text here = 0 → charAt text' here' = charAt text here
  next_alike : lineBreakLength text here = 0 →
    Alike (charAt text (here + 1)) (charAt text' (here' + 1))
  afterNext_alike : lineBreakLength text here = 0 → isBlank (charAt text (here + 1)) = false →
    Alike (charAt text (here + 2)) (charAt text' (here' + 2))
  escape_iff : lineBreakLength text here = 0 → charAt text here = '\\' →
    (here' + 1 < length text' ∧ lineBreakLength text' (here' + 1) = 0 ↔
      here + 1 < length text ∧ lineBreakLength text (here + 1) = 0)

namespace SameView

variable {here here' : Nat}

/-- Within a line, the next characters correspond. -/
theorem move_succ (h : SameView move text here text' here')
    (hzero : lineBreakLength text here = 0) : move (here + 1) = here' + 1 :=
  h.move_add 1 (by omega) ((Unbroken.refl text here).succ hzero)

/-- What stands at the offsets is alike, for the characters of line breaks are blank. -/
theorem alike (h : SameView move text here text' here') :
    Alike (charAt text here) (charAt text' here') := by
  rcases Nat.eq_zero_or_pos (lineBreakLength text here) with hzero | hbreak
  · exact .inl (h.char_eq hzero)
  · exact .inr ⟨isBlank_of_lt_lineBreakLength (Nat.le_refl _) (Nat.lt_add_of_pos_right hbreak),
      isBlank_of_lt_lineBreakLength (Nat.le_refl _)
        (Nat.lt_add_of_pos_right (h.lineBreak_iff.mpr hbreak))⟩

/-- The two characters of a delimiter stand at both offsets or at none. -/
theorem delimiter_iff (h : SameView move text here text' here') {a b : Char}
    (ha : isBlank a = false) (hb : isBlank b = false) :
    (charAt text' here' = a ∧ charAt text' (here' + 1) = b) ↔
      (charAt text here = a ∧ charAt text (here + 1) = b) := by
  rw [h.alike.eq_iff ha]
  apply and_congr_right
  intro hc
  have hzero : lineBreakLength text here = 0 :=
    lineBreakLength_eq_zero_of_not_isBlank (by rwa [hc])
  exact (h.next_alike hzero).eq_iff hb

end SameView

/-- The same characters, at a distance of `k`, look the same. Behind a line feed they may differ. -/
theorem sameView_of_charAt_eq {here k : Nat}
    (hchar : ∀ n ≤ 2, (∀ i < n, charAt text (here + i) ≠ '\n') →
      charAt text' (here + n + k) = charAt text (here + n))
    (hnext : charAt text here ≠ '\n' → (here + 1 + k < length text' ↔ here + 1 < length text)) :
    SameView (· + k) text here text' (here + k) := by
  -- A step looks at three characters, and no further than a line feed.
  have hzero : charAt text' (here + k) = charAt text here :=
    hchar 0 (by omega) fun i hi => absurd hi (Nat.not_lt_zero i)
  have hone : charAt text here ≠ '\n' → charAt text' (here + k + 1) = charAt text (here + 1) := by
    intro hc
    rw [Nat.add_right_comm]
    apply hchar 1 (by omega)
    intro i hi
    rwa [Nat.lt_one_iff.mp hi]
  have htwo : charAt text here ≠ '\n' → charAt text (here + 1) ≠ '\n' →
      charAt text' (here + k + 2) = charAt text (here + 2) := by
    intro hc hc'
    rw [Nat.add_right_comm]
    apply hchar 2 (by omega)
    intro i hi
    obtain rfl | rfl : i = 0 ∨ i = 1 := by omega
    · exact hc
    · exact hc'
  have hbreak := lineBreakLength_eq_of_charAt_eq hzero hone
  have hnotBreak : lineBreakLength text here = 0 → charAt text here ≠ '\n' :=
    fun h => ((lineBreakLength_eq_zero_iff _ _).mp h).1
  constructor
  case lineBreak_iff => rw [hbreak]
  case move_lineBreak =>
    intro _
    rw [hbreak, Nat.add_right_comm]
  case move_add => exact fun n _ _ => Nat.add_right_comm ..
  case char_eq => exact fun _ => hzero
  case next_alike => exact fun h => .inl (hone (hnotBreak h))
  case afterNext_alike =>
    intro h hblank
    refine .inl (htwo (hnotBreak h) fun hc => ?_)
    rw [hc, isBlank_lineFeed] at hblank
    cases hblank
  case escape_iff =>
    intro h _
    have hbreak' := lineBreakLength_eq_of_charAt_eq (hone (hnotBreak h)) (htwo (hnotBreak h))
    rw [Nat.add_right_comm, hnext (hnotBreak h), Nat.add_right_comm, hbreak']

/-! ## Parallel states -/

/-- Tokens that parallel scans find at corresponding offsets. The kinds are the same, or each is
that of a word in its text. -/
def Twin (move : Nat → Nat) (text : σ) (text' : τ) (t u : Token) : Prop :=
  u.span = t.span.map move ∧
    (u.kind = t.kind ∨ t.kind = wordKind text t.span ∧ u.kind = wordKind text' u.span)

/-- The scan of `text'` is where that of `text` is, and behind the tokens `before` it has found the
same tokens, up to the kinds of words. -/
structure Parallel (move : Nat → Nat) (text : σ) (text' : τ) (before : List Token)
    (st st' : State) : Prop where
  position_eq : st'.position = move st.position
  mode_eq : st'.mode = st.mode.map move
  exists_twins : ∃ twins, st'.tokens.toList = before ++ twins ∧
    List.Forall₂ (Twin move text text') st.tokens.toList twins

theorem Parallel.enter (h : Parallel move text text' before st st') {mode mode' : Mode}
    {distance distance' : Nat} (hmode : mode' = mode.map move)
    (hmove : move (st.position + distance) = st'.position + distance') :
    Parallel move text text' before (st.enter mode distance) (st'.enter mode' distance') where
  position_eq := hmove.symm
  mode_eq := hmode
  exists_twins := h.exists_twins

/-- Both scans find a token, or both drop it since it is empty. -/
theorem Parallel.emit_twin (hmono : StrictMono move) (h : Parallel move text text' before st st')
    {start stop start' stop' : Nat} {kind kind' : Kind} (hstart : start' = move start)
    (hstop : stop' = move stop) (hlt : start < stop → start < length text)
    (hlt' : start' < stop' → start' < length text')
    (hkind : kind' = kind ∨
      kind = wordKind text ⟨start, stop⟩ ∧ kind' = wordKind text' ⟨start', stop'⟩) :
    Parallel move text text' before (st.emit ⟨0, length text⟩ ⟨start, stop⟩ kind)
      (st'.emit ⟨0, length text'⟩ ⟨start', stop'⟩ kind') where
  position_eq := by rw [State.position_emit, State.position_emit, h.position_eq]
  mode_eq := by rw [State.mode_emit, State.mode_emit, h.mode_eq]
  exists_twins := by
    obtain ⟨twins, htokens, htwins⟩ := h.exists_twins
    rw [toList_tokens_emit, toList_tokens_emit, htokens, List.append_assoc]
    refine ⟨_, rfl, ?_⟩
    -- Offsets move in order, so a span is empty iff its counterpart is.
    have hiff : start' < stop' ↔ start < stop := by
      rw [hstart, hstop, hmono.lt_iff_lt]
    have hkeeps : keeps ⟨0, length text'⟩ ⟨⟨start', stop'⟩, kind'⟩ =
        keeps ⟨0, length text⟩ ⟨⟨start, stop⟩, kind⟩ := by
      rw [Bool.eq_iff_iff, keeps_whole_iff _ hlt', keeps_whole_iff _ hlt]
      exact hiff
    apply List.rel_append htwins
    rw [List.filter_cons, List.filter_cons, hkeeps, List.filter_nil, List.filter_nil]
    split
    · exact .cons ⟨by rw [hstart, hstop]; rfl, hkind⟩ .nil
    · exact .nil

/-- Both scans add a token and go on. -/
theorem Parallel.emit_enter (hmono : StrictMono move) (h : Parallel move text text' before st st')
    {start stop start' stop' distance distance' : Nat} {mode mode' : Mode} (kind : Kind)
    (hstart : start' = move start) (hstop : stop' = move stop)
    (hlt : start < stop → start < length text) (hlt' : start' < stop' → start' < length text')
    (hmode : mode' = mode.map move)
    (hmove : move (st.position + distance) = st'.position + distance') :
    Parallel move text text' before
      ((st.emit ⟨0, length text⟩ ⟨start, stop⟩ kind).enter mode distance)
      ((st'.emit ⟨0, length text'⟩ ⟨start', stop'⟩ kind).enter mode' distance') := by
  apply (h.emit_twin hmono hstart hstop hlt hlt' (.inl rfl)).enter hmode
  rw [State.position_emit, State.position_emit]
  exact hmove

/-- Both scans take the same branch. -/
theorem Parallel.ite {p p' : Prop} [Decidable p] [Decidable p'] {a a' b b' : State} (hp : p' ↔ p)
    (hthen : p → Parallel move text text' before a a')
    (helse : ¬ p → Parallel move text text' before b b') :
    Parallel move text text' before (if p then a else b) (if p' then a' else b') := by
  by_cases h : p
  · rw [if_pos h, if_pos (hp.mpr h)]
    exact hthen h
  · rw [if_neg h, if_neg (mt hp.mp h)]
    exact helse h

/-! ## Parallel steps -/

section Steps

variable (hmono : StrictMono move) (h : Parallel move text text' before st st')
  (hview : SameView move text st.position text' st'.position)
  (hlt : st.position < length text) (hlt' : st'.position < length text')

include hmono h hview hlt hlt'

/-- A word goes on in both texts or ends in both. It is classified in each by what follows it. -/
theorem parallel_wordStep {start start' : Nat} (hstart : start' = move start)
    (hle : start ≤ st.position) (hzero : lineBreakLength text st.position = 0) :
    Parallel move text text' before (wordStep text ⟨0, length text⟩ start st)
      (wordStep text' ⟨0, length text'⟩ start' st') := by
  have hsame := (hview.next_alike hzero).isWordPart_eq
  have hmove := hview.move_succ hzero
  by_cases hpart : isWordPart (charAt text (st.position + 1)) = true
  · rw [wordStep_of_isWordPart _ _ _ hpart, wordStep_of_isWordPart _ _ _ (hsame.trans hpart)]
    exact h.enter (by rw [hstart]; rfl) hmove
  · have hend := eq_false_of_ne_true hpart
    have hle' : start' ≤ st'.position := by
      rw [hstart, h.position_eq]
      exact hmono.monotone hle
    rw [wordStep_of_not_isWordPart _ hle hend, wordStep_of_not_isWordPart _ hle' (hsame.trans hend)]
    apply (h.emit_twin hmono hstart hmove.symm (fun _ => by omega) (fun _ => by omega)
      (.inr ⟨rfl, rfl⟩)).enter rfl
    rw [State.position_emit, State.position_emit]
    exact hmove

/-- Operators and punctuation are the same, as all that they look at is alike. -/
theorem parallel_symbolStep (hzero : lineBreakLength text st.position = 0) :
    Parallel move text text' before (symbolStep text ⟨0, length text⟩ st)
      (symbolStep text' ⟨0, length text'⟩ st') := by
  have hsame : operatorLength? (charAt text' st'.position) (charAt text' (st'.position + 1))
        (charAt text' (st'.position + 2)) =
      operatorLength? (charAt text st.position) (charAt text (st.position + 1))
        (charAt text (st.position + 2)) := by
    rw [hview.char_eq hzero]
    exact operatorLength?_eq_of_alike _ (hview.next_alike hzero) (hview.afterNext_alike hzero)
  unfold symbolStep
  dsimp only
  rw [hsame]
  split
  · next n hn =>
    have hu := unbroken_of_not_isBlank (isBlank_of_operatorLength? hn)
    have hmove := hview.move_add n (isPunctuation_of_operatorLength? hn).1 hu
    exact h.emit_enter hmono .operator h.position_eq hmove.symm (fun _ => hlt) (fun _ => hlt') rfl
      hmove
  · have hmove := hview.move_succ hzero
    exact h.emit_enter hmono .punctuation h.position_eq hmove.symm (fun _ => hlt) (fun _ => hlt')
      rfl hmove

/-- The tests of the one text come out as those of the other do. -/
theorem parallel_codeStep :
    Parallel move text text' before (codeStep text ⟨0, length text⟩ st)
      (codeStep text' ⟨0, length text'⟩ st') := by
  have hdelimiter : ∀ {a b}, isBlank a = false → isBlank b = false →
      charAt text st.position = a ∧ charAt text (st.position + 1) = b →
        move (st.position + 2) = st'.position + 2 := by
    intro a b ha hb hab
    exact hview.move_add 2 (by omega) (delimiter_within ha hb hab).2
  unfold codeStep
  dsimp only
  refine .ite hview.lineBreak_iff (fun hbreak => h.enter rfl (hview.move_lineBreak hbreak))
    fun hbreak => ?_
  have hzero := Nat.eq_zero_of_not_pos hbreak
  have hmove := hview.move_succ hzero
  have hnumber := isNumberStart_eq_of_alike (charAt text st.position) (hview.next_alike hzero)
  refine .ite (hview.delimiter_iff isBlank_slash isBlank_star)
    (fun hab => h.enter (by rw [h.position_eq]; rfl) (hdelimiter isBlank_slash isBlank_star hab))
    fun _ => ?_
  refine .ite (hview.delimiter_iff isBlank_star isBlank_slash)
    (fun hab => h.enter rfl (hdelimiter isBlank_star isBlank_slash hab)) fun _ => ?_
  refine .ite (hview.delimiter_iff isBlank_slash isBlank_slash)
    (fun hab => h.enter (by rw [h.position_eq]; rfl) (hdelimiter isBlank_slash isBlank_slash hab))
    fun _ => ?_
  -- No delimiter starts here, so the character alone decides, but for a point before a digit.
  rw [hview.char_eq hzero]
  refine .ite .rfl (fun _ => h.enter (by rw [h.position_eq]; rfl) hmove) fun _ => ?_
  refine .ite .rfl (fun _ => h.enter (by rw [h.position_eq]; rfl) hmove) fun _ => ?_
  refine .ite .rfl (fun _ => h.enter (by rw [h.position_eq]; rfl) hmove) fun _ => ?_
  refine .ite (by rw [hnumber]) (fun _ => h.enter (by rw [h.position_eq]; rfl) hmove) fun _ => ?_
  refine .ite .rfl (fun _ => parallel_symbolStep hmono h hview hlt hlt' hzero) fun _ => ?_
  refine .ite .rfl (fun _ => h.enter rfl hmove) fun _ => ?_
  exact parallel_wordStep hmono h hview hlt hlt' h.position_eq (Nat.le_refl _) hzero

theorem parallel_numberStep {start start' : Nat} (hstart : start' = move start) :
    Parallel move text text' before (numberStep text ⟨0, length text⟩ start st)
      (numberStep text' ⟨0, length text'⟩ start' st') := by
  unfold numberStep
  refine .ite (by rw [hview.alike.class_eq fun _ => isBlank_of_isNumberPart]) (fun hpart => ?_)
    fun _ => ?_
  · have hzero := lineBreakLength_eq_zero_of_not_isBlank (isBlank_of_isNumberPart hpart)
    exact h.enter (by rw [hstart]; rfl) (hview.move_succ hzero)
  · apply parallel_codeStep hmono
    · exact h.emit_enter hmono .number hstart h.position_eq (fun _ => by omega) (fun _ => by omega)
        rfl h.position_eq.symm
    · simpa using hview
    · simpa using hlt
    · simpa using hlt'

/-- Literals are closed or given up at corresponding offsets. -/
theorem parallel_quotedStep {quote : Quote} {start start' : Nat} (hstart : start' = move start) :
    Parallel move text text' before (quotedStep text ⟨0, length text⟩ quote start st)
      (quotedStep text' ⟨0, length text'⟩ quote start' st') := by
  have hmode : Mode.quoted quote start' = (Mode.quoted quote start).map move := by
    rw [hstart]
    rfl
  unfold quotedStep
  dsimp only
  refine .ite hview.lineBreak_iff (fun hbreak => h.enter rfl (hview.move_lineBreak hbreak))
    fun hbreak => ?_
  have hzero := Nat.eq_zero_of_not_pos hbreak
  have hmove := hview.move_succ hzero
  rw [hview.char_eq hzero]
  refine .ite .rfl (fun hescape => ?_) fun _ => ?_
  · refine .ite (hview.escape_iff hzero hescape) (fun hnext => ?_) fun _ => h.enter hmode hmove
    have hu := ((Unbroken.refl text st.position).succ hzero).succ hnext.2
    exact h.enter hmode (hview.move_add 2 (by omega) hu)
  refine .ite .rfl (fun _ => ?_) fun _ => h.enter hmode hmove
  exact h.emit_enter hmono .stringLiteral hstart hmove.symm (fun _ => by omega)
    (fun _ => by omega) rfl hmove

theorem parallel_rawStringStep {segment segment' : Nat} (hsegment : segment' = move segment) :
    Parallel move text text' before (rawStringStep text ⟨0, length text⟩ segment st)
      (rawStringStep text' ⟨0, length text'⟩ segment' st') := by
  unfold rawStringStep
  dsimp only
  refine .ite hview.lineBreak_iff (fun hbreak => ?_) fun hbreak => ?_
  · have hmove := hview.move_lineBreak hbreak
    exact h.emit_enter hmono .stringLiteral hsegment h.position_eq (fun _ => by omega)
      (fun _ => by omega) (by rw [Mode.map, hmove]) hmove
  have hzero := Nat.eq_zero_of_not_pos hbreak
  have hmove := hview.move_succ hzero
  rw [hview.char_eq hzero]
  refine .ite .rfl (fun _ => ?_) fun _ => h.enter (by rw [hsegment]; rfl) hmove
  exact h.emit_enter hmono .stringLiteral hsegment hmove.symm (fun _ => by omega)
    (fun _ => by omega) rfl hmove

theorem parallel_lineCommentStep {start start' : Nat} (hstart : start' = move start) :
    Parallel move text text' before (lineCommentStep text ⟨0, length text⟩ start st)
      (lineCommentStep text' ⟨0, length text'⟩ start' st') := by
  unfold lineCommentStep
  dsimp only
  refine .ite hview.lineBreak_iff (fun hbreak => ?_) fun hbreak => ?_
  · exact h.emit_enter hmono .comment hstart h.position_eq (fun _ => by omega)
      (fun _ => by omega) rfl (hview.move_lineBreak hbreak)
  · exact h.enter (by rw [hstart]; rfl) (hview.move_succ (Nat.eq_zero_of_not_pos hbreak))

/-- Segments of block comments end at corresponding offsets, and delimiters are the same. -/
theorem parallel_blockCommentStep {segment segment' depth : Nat}
    (hsegment : segment' = move segment) :
    Parallel move text text' before (blockCommentStep text ⟨0, length text⟩ segment depth st)
      (blockCommentStep text' ⟨0, length text'⟩ segment' depth st') := by
  have hopen := hview.delimiter_iff isBlank_slash isBlank_star
  have hclose := hview.delimiter_iff isBlank_star isBlank_slash
  unfold blockCommentStep
  dsimp only
  refine .ite hopen (fun hab => ?_) fun _ => ?_
  · have hu := (delimiter_within isBlank_slash isBlank_star hab).2
    exact h.enter (by rw [hsegment]; rfl) (hview.move_add 2 (by omega) hu)
  refine .ite hclose (fun hab => ?_) fun _ => ?_
  · obtain ⟨hwithin, hu⟩ := delimiter_within isBlank_star isBlank_slash hab
    have hwithin' := (delimiter_within isBlank_star isBlank_slash (hclose.mpr hab)).1
    have hmove := hview.move_add 2 (by omega) hu
    refine .ite .rfl (fun _ => ?_) fun _ => h.enter (by rw [hsegment]; rfl) hmove
    exact h.emit_enter hmono .comment hsegment hmove.symm (fun _ => by omega)
      (fun _ => by omega) rfl hmove
  refine .ite hview.lineBreak_iff (fun hbreak => ?_) fun hbreak => ?_
  · have hmove := hview.move_lineBreak hbreak
    exact h.emit_enter hmono .comment hsegment h.position_eq (fun _ => by omega)
      (fun _ => by omega) (by rw [Mode.map, hmove]) hmove
  · exact h.enter (by rw [hsegment]; rfl) (hview.move_succ (Nat.eq_zero_of_not_pos hbreak))

/-- Parallel scans stay parallel over a step. -/
theorem parallel_step (hinv : Inv text' ⟨0, length text'⟩ st') :
    Parallel move text text' before (step text ⟨0, length text⟩ st)
      (step text' ⟨0, length text'⟩ st') := by
  obtain ⟨position, mode, tokens⟩ := st
  obtain ⟨position', mode', tokens'⟩ := st'
  obtain rfl : position' = move position := h.position_eq
  obtain rfl : mode' = mode.map move := h.mode_eq
  cases mode with
  | code => exact parallel_codeStep hmono h hview hlt hlt'
  | word start =>
    -- The word goes on at the position, so no line break is there.
    obtain ⟨hstart, -, hparts⟩ := hinv.fits
    have hpart := hparts (move position) (Nat.le_of_lt hstart) (Nat.le_refl _)
    have hzero' : lineBreakLength text' (move position) = 0 :=
      lineBreakLength_eq_zero_of_not_isBlank ((isWordPart_iff _).mp hpart).1
    have hzero : lineBreakLength text position = 0 := by
      apply Nat.eq_zero_of_not_pos
      rw [← hview.lineBreak_iff]
      exact Nat.not_lt.mpr (Nat.le_of_eq hzero')
    have hle : start ≤ position := Nat.le_of_lt (hmono.lt_iff_lt.mp hstart)
    exact parallel_wordStep hmono h hview hlt hlt' rfl hle hzero
  | number start => exact parallel_numberStep hmono h hview hlt hlt' rfl
  | quoted quote start => exact parallel_quotedStep hmono h hview hlt hlt' rfl
  | rawString segment => exact parallel_rawStringStep hmono h hview hlt hlt' rfl
  | lineComment start => exact parallel_lineCommentStep hmono h hview hlt hlt' rfl
  | blockComment segment depth => exact parallel_blockCommentStep hmono h hview hlt hlt' rfl

end Steps

/-! ## Parallel runs -/

/-- Scans that see the same before `stop` stay parallel until they get there. -/
theorem Parallel.exists_reaches {stop : Nat} {st st' : State} (hmono : StrictMono move)
    (hview : ∀ x < stop, SameView move text x text' (move x))
    (hwithin : ∀ x < stop, x < length text ∧ move x < length text')
    (h : Parallel move text text' before st st') (hinv : Inv text' ⟨0, length text'⟩ st') :
    ∃ st₁ st₁', Reaches text ⟨0, length text⟩ st st₁ ∧ Reaches text' ⟨0, length text'⟩ st' st₁' ∧
      stop ≤ st₁.position ∧ Parallel move text text' before st₁ st₁' := by
  by_cases hposition : st.position < stop
  · have hview' := hview _ hposition
    obtain ⟨hlt, hlt'⟩ := hwithin _ hposition
    rw [← h.position_eq] at hview' hlt'
    have hnext := position_lt_step text ⟨0, length text⟩ st
    obtain ⟨st₁, st₁', hreaches, hreaches', hstop, hparallel⟩ :=
      exists_reaches hmono hview hwithin (parallel_step hmono h hview' hlt hlt' hinv)
        (inv_step hlt' hinv)
    exact ⟨st₁, st₁', .of_step hlt hreaches, .of_step hlt' hreaches', hstop, hparallel⟩
  · exact ⟨st, st', .refl, .refl, Nat.le_of_not_lt hposition, h⟩
termination_by stop - st.position

/-- Scans that see the same up to the ends of both texts are parallel there. -/
theorem parallel_run (hmono : StrictMono move)
    (hview : ∀ x < length text, SameView move text x text' (move x))
    (hend : length text' = move (length text)) (h : Parallel move text text' before st st')
    (hinv : Inv text' ⟨0, length text'⟩ st') :
    Parallel move text text' before (run text ⟨0, length text⟩ st)
      (run text' ⟨0, length text'⟩ st') := by
  have hwithin : ∀ x < length text, x < length text ∧ move x < length text' := by
    intro x hx
    rw [hend]
    exact ⟨hx, hmono hx⟩
  obtain ⟨st₁, st₁', hreaches, hreaches', hstop, hparallel⟩ :=
    h.exists_reaches hmono hview hwithin hinv
  have hstop' : length text' ≤ st₁'.position := by
    rw [hend, hparallel.position_eq]
    exact hmono.monotone hstop
  rw [run_eq_of_reaches hreaches, run_eq_of_reaches hreaches', run_of_le hstop, run_of_le hstop']
  exact hparallel

/-- What is open at the ends of both texts is closed alike. -/
theorem parallel_finish (hmono : StrictMono move) (h : Parallel move text text' before st st')
    (hend : length text' = move (length text)) (options : Options) :
    Parallel move text text' before (finish options (length text) ⟨0, length text⟩ st)
      (finish options (length text') ⟨0, length text'⟩ st') := by
  have hclose : ∀ (kind : Kind) (start : Nat), Parallel move text text' before
      ((st.emit ⟨0, length text⟩ ⟨start, length text⟩ kind).enter .code 0)
      ((st'.emit ⟨0, length text'⟩ ⟨move start, length text'⟩ kind).enter .code 0) :=
    fun kind start => h.emit_enter hmono kind rfl hend id id rfl h.position_eq.symm
  have hopen : Parallel move text text' before (st.enter .code 0) (st'.enter .code 0) :=
    h.enter rfl h.position_eq.symm
  unfold finish
  rw [h.mode_eq]
  cases st.mode with
  | code | word | quoted => exact hopen
  | number start => exact hclose .number start
  | lineComment start => exact hclose .comment start
  | rawString segment =>
    by_cases htails : options.emitTails = true
    · simp only [Mode.map, if_pos htails]
      exact hclose .stringLiteral segment
    · simp only [Mode.map, if_neg htails]
      exact hopen
  | blockComment segment depth =>
    by_cases htails : options.emitTails = true
    · simp only [Mode.map, if_pos htails]
      exact hclose .comment segment
    · simp only [Mode.map, if_neg htails]
      exact hopen

end Scan

end OdinSyntax
