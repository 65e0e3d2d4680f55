import OdinSyntax.Proofs.Scan.Parallel
import OdinSyntax.Proofs.Text.Common

/-!
# What a line passes to the next one

A scan that comes to the start of a line is in code, in a raw string or in a block comment, whose
segment starts there (`exists_mode_eq`). This `LineState` is all that the lines behind it know of
those before: what the scan finds from there on is what a scan of the rest alone finds when it is
started in that state (`tokenize_eq_append_resume`). An editor may therefore keep the state of each
line and read a line again only when its text or that state changes.

The scan of a text that ends with its line and the scan of any continuation of the text are parallel
up to the end of the line. From there on the scan of the continuation is parallel to that of the
rest, at a distance.
-/

namespace OdinSyntax

/-- The token whose span lies `distance` further on. -/
def Token.shift (distance : Nat) (t : Token) : Token :=
  ⟨t.span.map (· + distance), t.kind⟩

theorem Token.shift_comm (t : Token) (m n : Nat) : (t.shift m).shift n = (t.shift n).shift m := by
  simp only [shift, Span.map, Nat.add_right_comm]

theorem Token.le_start_of_mem_map_shift {tokens : List Token} {k : Nat} {t : Token}
    (h : t ∈ tokens.map (shift k)) : k ≤ t.span.start := by
  obtain ⟨u, -, rfl⟩ := List.mem_map.mp h
  exact Nat.le_add_left _ _

namespace Scan

open Source Lexeme

/-! ## States of lines -/

/-- What is open where a line starts. -/
inductive LineState
  | code
  | rawString
  /-- A block comment in which `depth` openers wait for their closers. -/
  | blockComment (depth : Nat)
deriving DecidableEq

/-- The mode of a scan that starts a line at `offset`. -/
def LineState.mode (offset : Nat) : LineState → Mode
  | code => .code
  | rawString => .rawString offset
  | blockComment depth => .blockComment offset depth

variable {σ τ : Type} [Source σ] [Source τ] {options : Options} {text : σ} {text' : τ}
  {region : Span} {st : State} {state : LineState} {p k : Nat}

/-- Whether a line starts at `offset`: there is a line feed before, or the text starts. -/
def AtLineStart (text : σ) (offset : Nat) : Prop :=
  0 < offset → charAt text (offset - 1) = '\n'

/-- Whatever starts before a line and reaches it has a line break in it. -/
theorem AtLineStart.not_unbroken {start offset : Nat} (h : AtLineStart text offset)
    (hlt : start < offset) : ¬ Unbroken text start offset := by
  intro hu
  have hzero := hu (offset - 1) (by omega) (by omega)
  rw [lineBreakLength_of_lineFeed (h (by omega))] at hzero
  cases hzero

/-- At the start of a line nothing else is open than raw strings and block comments, and no
character of the line before belongs to their segments. -/
theorem exists_mode_eq (h : Inv text region st) (hend : st.position = length text)
    (hline : AtLineStart text st.position) :
    ∃ state : LineState, st.mode = state.mode st.position := by
  obtain ⟨position, mode, tokens⟩ := st
  obtain ⟨-, hfits, -⟩ := h
  -- A segment holds no line break, so it has just started.
  have hsegment : ∀ {segment}, segment ≤ position → Unbroken text segment position →
      segment = position := by
    intro segment hle hu
    rcases Nat.eq_or_lt_of_le hle with heq | hlt
    · exact heq
    · exact absurd hu (hline.not_unbroken hlt)
  cases mode with
  | code => exact ⟨.code, rfl⟩
  | word start => exact absurd hfits.2.1 (Nat.not_lt.mpr (Nat.le_of_eq hend.symm))
  | number start => exact absurd hfits.unbroken_number (hline.not_unbroken hfits.1)
  | quoted quote start => exact absurd hfits.2 (hline.not_unbroken hfits.1)
  | lineComment start => exact absurd hfits.2 (hline.not_unbroken hfits.1)
  | rawString segment =>
    obtain rfl := hsegment hfits.1 hfits.2
    exact ⟨.rawString, rfl⟩
  | blockComment segment depth =>
    obtain rfl := hsegment hfits.1 hfits.2.1
    exact ⟨.blockComment depth, rfl⟩

/-! ## Up to the start of a line -/

/-- Up to the end of its last line, a step sees the same in a text and in its continuation. -/
theorem sameView_of_atLineStart (h : SamePrefix text text' p) (hline : AtLineStart text p) {x : Nat}
    (hx : x < p) : SameView id text x text' x := by
  have hwithin : ∀ n, (∀ i < n, charAt text (x + i) ≠ '\n') → x + n < p := by
    intro n hn
    induction n with
    | zero => exact hx
    | succ n ih =>
      have hlt := ih fun i hi => hn i (Nat.lt_succ_of_lt hi)
      apply Nat.lt_of_le_of_ne hlt
      rintro rfl
      exact hn n (Nat.lt_succ_self n) (hline (Nat.succ_pos _))
  have hchar : ∀ n ≤ 2, (∀ i < n, charAt text (x + i) ≠ '\n') →
      charAt text' (x + n + 0) = charAt text (x + n) :=
    fun n _ hn => h.charAt_eq (x + n) (hwithin n hn)
  refine sameView_of_charAt_eq hchar fun hc => ?_
  have hlt : x + 1 < p := hwithin 1 fun i hi => by
    rwa [Nat.lt_one_iff.mp hi]
  have hle := h.le_length
  have hle' := h.le_length'
  exact ⟨fun _ => by omega, fun _ => by omega⟩

/-- The scan of a continuation passes the end of the text in the mode in which the scan of the text
ends. -/
theorem exists_reached_of_samePrefix (h : SamePrefix text text' (length text))
    (hline : AtLineStart text (length text)) :
    ∃ st, Reached text' ⟨0, length text'⟩ st ∧ st.position = length text ∧
      st.mode = (scan text ⟨0, length text⟩).mode := by
  have hstart : Parallel id text text' [] {} {} := ⟨rfl, rfl, [], rfl, .nil⟩
  have hview : ∀ x < length text, SameView id text x text' (id x) :=
    fun x hx => sameView_of_atLineStart h hline hx
  have hwithin : ∀ x < length text, x < length text ∧ id x < length text' :=
    fun x hx => ⟨hx, Nat.lt_of_lt_of_le hx h.le_length'⟩
  obtain ⟨st, st', hreached, hreached', hstop, hparallel⟩ :=
    hstart.exists_reaches strictMono_id hview hwithin (inv_init ..)
  have hend : st.position = length text :=
    Nat.le_antisymm (Reached.inv hreached).position_le hstop
  have hscan : scan text ⟨0, length text⟩ = st := by
    rw [scan, run_eq_of_reaches hreached, run_of_le hstop]
  refine ⟨st', hreached', ?_, ?_⟩
  · rw [hparallel.position_eq, hend, id]
  · rw [hparallel.mode_eq, hscan]
    cases st.mode <;> rfl

/-! ## From the start of a line on -/

/-- The tokens of a text that starts in `state`. -/
def resume (options : Options) (state : LineState) (text : σ) : List Token :=
  (finish options (length text) ⟨0, length text⟩
    (run text ⟨0, length text⟩ { mode := state.mode 0 })).tokens.toList

theorem resume_code (options : Options) (text : σ) :
    resume options .code text = tokenize options text ⟨0, length text⟩ := rfl

/-- In front of the same characters, steps see the same. -/
theorem sameView_of_sameSuffix (h : SameSuffix text text' k) (x : Nat) :
    SameView (· + k) text x text' (x + k) := by
  apply sameView_of_charAt_eq fun n _ _ => h.charAt_eq (x + n)
  intro _
  rw [h.length_eq]
  exact Nat.add_lt_add_iff_right

/-- Words with the same text behind them have the same kind. -/
theorem wordKind_eq_of_sameSuffix (h : SameSuffix text text' k) (span : Span) :
    wordKind text' (span.map (· + k)) = wordKind text span := by
  rw [wordKind_eq_ofWord, wordKind_eq_ofWord, Span.map, h.slice_eq]
  dsimp only
  rw [h.suffix_eq]

/-- Behind what comes first, a token is moved and not judged anew: its word is the same, and so is
what is behind it. -/
theorem shift_eq_of_twin (h : SameSuffix text text' k) {t u : Token}
    (htwin : Twin (· + k) text text' t u) : t.shift k = u := by
  obtain ⟨hspan, hkind⟩ := htwin
  have hsame : u.kind = t.kind := by
    rcases hkind with hkind | ⟨hkind, hkind'⟩
    · exact hkind
    · rw [hkind, hkind', hspan, wordKind_eq_of_sameSuffix h]
  rw [Token.shift, ← hspan, ← hsame]

/-- What starts behind an offset, where the tokens before end in front of it. -/
theorem Kept.filter_append_shift {before later : List Token} {bound stop next : Nat}
    (h : Kept text region bound before) (hle : bound ≤ stop) (hle' : stop ≤ next) :
    (before ++ later.map (Token.shift next)).filter (fun t => stop ≤ t.span.start) =
      later.map (Token.shift next) := by
  have hbefore : before.filter (fun t => stop ≤ t.span.start) = [] :=
    h.filter_eq_nil fun t ht => Nat.le_trans hle (of_decide_eq_true ht)
  have hbehind : (later.map (Token.shift next)).filter (fun t => stop ≤ t.span.start) =
      later.map (Token.shift next) :=
    List.filter_eq_self.mpr fun t ht =>
      decide_eq_true (Nat.le_trans hle' (Token.le_start_of_mem_map_shift ht))
  rw [List.filter_append, hbefore, hbehind, List.nil_append]

/-- What the scan finds behind the start of a line depends on the state there and on the text behind
it only. -/
theorem tokenize_eq_append_resume (h : SameSuffix text text' k)
    (hreached : Reached text' ⟨0, length text'⟩ st) (hposition : st.position = k)
    (hmode : st.mode = state.mode k) :
    tokenize options text' ⟨0, length text'⟩ =
      st.tokens.toList ++ (resume options state text).map (Token.shift k) := by
  have hmono : StrictMono (· + k) := fun x y hxy => Nat.add_lt_add_right hxy k
  have hstart : Parallel (· + k) text text' st.tokens.toList { mode := state.mode 0 } st := by
    refine ⟨?_, ?_, [], (List.append_nil _).symm, .nil⟩
    · rw [hposition, Nat.zero_add]
    · rw [hmode]
      cases state <;> simp [LineState.mode, Mode.map]
  have hrun := parallel_run hmono (fun x _ => sameView_of_sameSuffix h x) h.length_eq hstart
    hreached.inv
  obtain ⟨twins, htokens, htwins⟩ := (parallel_finish hmono hrun h.length_eq options).exists_twins
  have hshift : (resume options state text).map (Token.shift k) = twins := by
    rw [← List.forall₂_eq_eq_eq, List.forall₂_map_left_iff]
    exact htwins.imp fun _ _ => shift_eq_of_twin h
  rw [tokenize, scan, run_eq_of_reaches hreached, htokens, hshift]

/-- What the scan finds behind an offset where it is in code is what it finds in the rest alone. -/
theorem tokenize_eq_append_tokenize (h : SameSuffix text text' k)
    (hreached : Reached text' ⟨0, length text'⟩ st) (hposition : st.position = k)
    (hmode : st.mode = .code) :
    tokenize options text' ⟨0, length text'⟩ =
      st.tokens.toList ++ (tokenize options text ⟨0, length text⟩).map (Token.shift k) := by
  have hmode' : st.mode = LineState.code.mode k := hmode
  rw [tokenize_eq_append_resume h hreached hposition hmode', resume_code]

/-! ## Texts that end with a line -/

/-- Whether a text is empty or ends with a line feed. -/
def EndsLine (chars : List Char) : Prop :=
  chars = [] ∨ chars.getLast? = some '\n'

/-- The scan of a text ends at its end and leaves `state` to the line behind it. -/
def LeavesIn (chars : List Char) (state : LineState) : Prop :=
  let text := Snapshot.ofList chars
  let last := scan text ⟨0, length text⟩
  last.position = chars.length ∧ last.mode = state.mode chars.length

/-- The tokens of `chars ++ rest` that start behind `chars`. -/
def tokensBehind (options : Options) (chars rest : List Char) : List Token :=
  let text := Snapshot.ofList (chars ++ rest)
  (tokenize options text ⟨0, length text⟩).filter fun t => chars.length ≤ t.span.start

section Lines

variable {chars chars' rest : List Char}

theorem EndsLine.atLineStart (h : EndsLine chars) (hle : chars.length ≤ maxOffset) :
    AtLineStart (Snapshot.ofList chars) chars.length := by
  intro hpos
  rcases h with rfl | hlast
  · exact absurd hpos (Nat.lt_irrefl 0)
  · rw [List.getLast?_eq_getElem?] at hlast
    rw [Snapshot.charAt_ofList hle, List.getD_eq_getElem?_getD, hlast]
    rfl

/-- The scan of such a text leaves one of the states to the next line. -/
theorem EndsLine.exists_leavesIn (h : EndsLine chars) (hle : chars.length ≤ maxOffset) :
    ∃ state, LeavesIn chars state := by
  have hlength : length (Snapshot.ofList chars) = chars.length := Snapshot.length_ofList hle
  have hend := position_scan (Snapshot.ofList chars) ⟨0, length (Snapshot.ofList chars)⟩
  have hline := h.atLineStart hle
  rw [← hlength, ← hend] at hline
  obtain ⟨state, hstate⟩ := exists_mode_eq (reached_scan _ _).inv hend hline
  rw [hend.trans hlength] at hstate
  exact ⟨state, hend.trans hlength, hstate⟩

/-- What follows a text is read in the state that the text leaves. -/
theorem tokensBehind_eq_resume (h : EndsLine chars) (hleaves : LeavesIn chars state)
    (hle : (chars ++ rest).length ≤ maxOffset) :
    tokensBehind options chars rest =
      (resume options state (Snapshot.ofList rest)).map (Token.shift chars.length) := by
  have hle' : chars.length ≤ maxOffset := by
    rw [List.length_append] at hle
    omega
  have hlength : length (Snapshot.ofList chars) = chars.length := Snapshot.length_ofList hle'
  have hcommon := Snapshot.samePrefix_append hle
  have hline := h.atLineStart hle'
  rw [← hlength] at hcommon hline
  obtain ⟨st, hreached, hposition, hmode⟩ := exists_reached_of_samePrefix hcommon hline
  rw [hlength] at hposition
  rw [hleaves.2] at hmode
  -- The tokens found so far end where the segment starts, and that is behind the text.
  have hfrontier : st.frontier = chars.length := by
    rw [State.frontier, hmode, hposition]
    cases state <;> rfl
  have hkept := (Reached.inv hreached).kept
  rw [hfrontier] at hkept
  rw [tokensBehind, tokenize_eq_append_resume (Snapshot.sameSuffix_append hle) hreached hposition
    hmode]
  exact hkept.filter_append_shift (Nat.le_refl _) (Nat.le_refl _)

/-- **The state of a line is all that the lines before pass to it.** The scan of a text that ends
with its line ends at the end of the text, in code or at the start of a segment of a raw string or
block comment. Behind texts that leave the same state, the tokens of any continuation are the same
at the same distance from its start, and behind a text that leaves code they are the tokens of the
continuation alone. -/
theorem tokensBehind_of_leavesIn (h : EndsLine chars) (hle : chars.length ≤ maxOffset) :
    (∃ state, LeavesIn chars state) ∧
    ∀ (options : Options) (rest : List Char) (state : LineState), LeavesIn chars state →
      (chars ++ rest).length ≤ maxOffset →
        (∀ chars', EndsLine chars' → LeavesIn chars' state →
          (chars' ++ rest).length ≤ maxOffset →
            (tokensBehind options chars rest).map (Token.shift chars'.length) =
              (tokensBehind options chars' rest).map (Token.shift chars.length)) ∧
        (state = .code → tokensBehind options chars rest =
          (tokenize options (Snapshot.ofList rest)
            ⟨0, length (Snapshot.ofList rest)⟩).map (Token.shift chars.length)) := by
  refine ⟨h.exists_leavesIn hle, fun options rest state hleaves hrest => ⟨?_, ?_⟩⟩
  · intro chars' h' hleaves' hrest'
    -- Both are the tokens of the continuation from that state on, shifted once for each text.
    rw [tokensBehind_eq_resume h hleaves hrest, tokensBehind_eq_resume h' hleaves' hrest',
      List.map_map, List.map_map]
    apply List.map_congr_left
    exact fun t _ => t.shift_comm chars.length chars'.length
  · rintro rfl
    rw [tokensBehind_eq_resume h hleaves hrest, resume_code]

/-- Two texts that leave a comment of depth two, and one that leaves code. -/
theorem tokensBehind_of_leavesIn_nested :
    let opened := "x /* /*\n".toList
    let opened' := "/*/*\r\n\n".toList
    let rest := "*/ y */ z ::".toList
    LeavesIn opened (.blockComment 2) ∧ LeavesIn opened' (.blockComment 2) ∧
      (tokensBehind {} opened rest).map (Token.shift 7) =
        (tokensBehind {} opened' rest).map (Token.shift 8) ∧
      LeavesIn "// z\n".toList .code ∧
      tokensBehind {} "// z\n".toList rest =
        (tokenize {} (Snapshot.ofList rest) ⟨0, length (Snapshot.ofList rest)⟩).map
          (Token.shift 5) := by
  intro opened opened' rest
  have hopened : LeavesIn opened (.blockComment 2) := by
    rw [LeavesIn, scan_eq_steps]
    decide +kernel
  have hopened' : LeavesIn opened' (.blockComment 2) := by
    rw [LeavesIn, scan_eq_steps]
    decide +kernel
  have hcode : LeavesIn "// z\n".toList .code := by
    rw [LeavesIn, scan_eq_steps]
    decide +kernel
  have hsame := ((tokensBehind_of_leavesIn (.inr (by decide)) (by decide)).2 {} rest
    (.blockComment 2) hopened (by decide)).1 opened' (.inr (by decide)) hopened' (by decide)
  have halone := ((tokensBehind_of_leavesIn (.inr (by decide)) (by decide)).2 {} rest .code hcode
    (by decide)).2 rfl
  exact ⟨hopened, hopened', hsame, hcode, halone⟩

end Lines

end Scan

end OdinSyntax
