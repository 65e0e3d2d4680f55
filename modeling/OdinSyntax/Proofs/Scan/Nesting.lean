import OdinSyntax.Proofs.Lexeme.CommentTree
import OdinSyntax.Proofs.Scan.LineState
import OdinSyntax.Proofs.Text.Encoding

/-!
# Nested comments

A block comment is read to the closer of its opener, however its comments nest. While the scan is in
the comment, the closer for which it is heading stays the same (`InCommentTo.step`), and with the
last step of the comment the scan is in code just behind it. There it has found the pieces of the
comment, and it goes on as on a text of its own.

Main statement: **`tokenize_commentTree`**.
-/

namespace OdinSyntax.Scan

open Source Lexeme

/-! ## Up to the closer -/

section InComment

variable {σ : Type} [Source σ] {text : σ} {region : Span} {st : State} {stop : Nat}

/-- A block comment in which `depth` closers are awaited at `offset` is closed right before `stop`.
-/
def ClosesAt (text : σ) (stop depth offset : Nat) : Prop :=
  ∃ n, blockFrom text depth offset = (true, n) ∧ offset + n = stop

/-- The scan is in a block comment that is closed right before `stop`. -/
def InCommentTo (text : σ) (stop : Nat) (st : State) : Prop :=
  ∃ segment depth, st.mode = .blockComment segment (depth + 1) ∧
    ClosesAt text stop (depth + 1) st.position

/-- A closer that is found further on is at the same place. -/
theorem ClosesAt.add {depth depth' offset distance : Nat} (h : ClosesAt text stop depth offset)
    (heq : blockFrom text depth offset = ((blockFrom text depth' (offset + distance)).1,
      distance + (blockFrom text depth' (offset + distance)).2)) :
    ClosesAt text stop depth' (offset + distance) := by
  obtain ⟨n, hfrom, rfl⟩ := h
  rw [hfrom] at heq
  obtain ⟨hclosed, rfl⟩ := Prod.mk.inj heq
  exact ⟨_, Prod.ext hclosed.symm rfl, Nat.add_assoc _ _ _⟩

theorem ClosesAt.lt_length {depth offset : Nat} (h : ClosesAt text stop (depth + 1) offset) :
    offset < length text := by
  obtain ⟨n, hfrom, -⟩ := h
  apply Nat.lt_of_not_le
  intro hle
  rw [blockFrom_of_length_le hle] at hfrom
  cases hfrom

theorem ClosesAt.eq_of_zero {offset : Nat} (h : ClosesAt text stop 0 offset) : offset = stop := by
  obtain ⟨n, hfrom, rfl⟩ := h
  rw [blockFrom_zero] at hfrom
  obtain ⟨-, rfl⟩ := Prod.mk.inj hfrom
  rfl

/-- A comment that is closed goes on to its closer, and the step over the closer leads to code. -/
theorem InCommentTo.step (h : InCommentTo text stop st) :
    InCommentTo text stop (step text region st) ∨
      (step text region st).mode = .code ∧ (step text region st).position = stop := by
  obtain ⟨segment, depth, hmode, hcloses⟩ := h
  have hlt := hcloses.lt_length
  have hstep : Scan.step text region st = blockCommentStep text region segment (depth + 1) st := by
    rw [Scan.step, hmode]
  rw [hstep]
  fun_cases blockCommentStep text region segment (depth + 1) st with
  | case1 here c next hopen =>
    have hle := (delimiter_within isBlank_slash isBlank_star hopen).1
    exact .inl ⟨segment, depth + 1, rfl, hcloses.add (blockFrom_open hle hopen)⟩
  -- A closer ends the comment if it is the last one awaited, and so it is the one at `stop`.
  | case2 here c next _ hclose hdepth =>
    have hle := (delimiter_within isBlank_star isBlank_slash hclose).1
    obtain rfl : depth = 0 := by omega
    refine .inr ⟨rfl, ?_⟩
    rw [State.position_enter, State.position_emit]
    exact (hcloses.add (blockFrom_close hle hclose)).eq_of_zero
  | case3 here c next _ hclose hdepth =>
    have hle := (delimiter_within isBlank_star isBlank_slash hclose).1
    obtain ⟨depth, rfl⟩ : ∃ d, depth = d + 1 := ⟨depth - 1, by omega⟩
    exact .inl ⟨segment, depth, rfl, hcloses.add (blockFrom_close hle hclose)⟩
  | case4 here c next breakLength hopen hclose hbreak =>
    refine .inl ⟨_, depth, rfl, ?_⟩
    rw [State.position_enter, State.position_emit]
    exact hcloses.add (blockFrom_break hlt)
  | case5 here c next breakLength hopen hclose hbreak =>
    exact .inl ⟨segment, depth, rfl, hcloses.add (blockFrom_of_ne hlt hopen hclose)⟩

/-- Where a scan that starts with a comment is: at the start, in the comment, or behind it, and then
it has been in code right behind it. -/
theorem Reached.comment_cases
    (hopen : charAt text 0 = '/' ∧ charAt text 1 = '*') (hcloses : ClosesAt text stop 1 2)
    (h : Reached text region st) :
    st = {} ∨ InCommentTo text stop st ∨
      (stop ≤ st.position ∧
        ∃ st', Reached text region st' ∧ st'.mode = .code ∧ st'.position = stop) := by
  induction h with
  | refl => exact .inl rfl
  | @tail st st' hreached hnext ih =>
    obtain ⟨hlt, rfl⟩ := hnext
    have hreached' : Reached text region (Scan.step text region st) :=
      hreached.trans (reaches_step hlt)
    rcases ih with rfl | hin | ⟨hle, hcode⟩
    -- The first step reads the opener.
    · have hbreak : ¬ 0 < lineBreakLength text 0 := by
        rw [lineBreakLength_eq_zero_of_not_isBlank (hopen.1 ▸ isBlank_slash)]
        exact Nat.lt_irrefl 0
      have hstep : Scan.step text region {} = State.enter {} (.blockComment 0 1) 2 := by
        show codeStep text region {} = _
        rw [codeStep, if_neg hbreak, if_pos hopen]
      rw [hstep]
      exact .inr (.inl ⟨0, 0, rfl, hcloses⟩)
    · rcases hin.step with hin | ⟨hmode, hposition⟩
      · exact .inr (.inl hin)
      · exact .inr (.inr ⟨Nat.le_of_eq hposition.symm, _, hreached', hmode, hposition⟩)
    · have hnext := position_lt_step text region st
      exact .inr (.inr ⟨by omega, hcode⟩)

end InComment

/-! ## The comment and the text behind it -/

section Tree

/-- One token for each piece of a comment that has characters. -/
def commentTokens (comment : List Char) : List Token :=
  ((piecesFrom 0 0 comment).filter (!·.isEmpty)).map (⟨·, .comment⟩)

/-- The lexemes of the text are the comment and those behind it. -/
theorem tokensOf_commentTree (options : Options) (tree : CommentTree) (rest : List Char) :
    tokensOf options (tree.render ++ rest) = commentTokens tree.render ++
      (lexemesFrom tree.render.length rest).flatMap (·.tokens options) := by
  have hhead := head_render tree 0 rest
  rw [tokensOf, CommentTree.render, List.cons_append, List.cons_append, lexemesFrom_cons, hhead,
    List.flatMap_cons, Nat.zero_add]
  rfl

variable {σ : Type} [Source σ] {text : σ} {tree : CommentTree} {rest : List Char}
  (htext : toList text = tree.render ++ rest)

include htext

theorem charAt_commentTree : charAt text 0 = '/' ∧ charAt text 1 = '*' := by
  have hfirst := headD_suffix text 0
  have hnext := headD_suffix text 1
  rw [← tail_suffix] at hnext
  rw [← hfirst, ← hnext, suffix, ← toList, htext]
  exact ⟨rfl, rfl⟩

/-- The comment is closed where its rendering ends. -/
theorem closesAt_commentTree : ClosesAt text tree.render.length 1 2 := by
  have hsuffix : suffix text 2 = tree.items.render ++ rest := by
    rw [← Nat.zero_add 2, ← drop_suffix, suffix, ← toList, htext]
    rfl
  refine ⟨tree.items.render.length, ?_, Nat.add_comm _ _⟩
  rw [blockFrom, hsuffix, closeBlock?_render tree.plain, closeBlock?, Option.map_some,
    Nat.zero_add]
  rfl

theorem suffix_commentTree : suffix text tree.render.length = rest := by
  rw [← Nat.zero_add tree.render.length, ← drop_suffix, suffix, ← toList, htext, List.drop_left]

/-- The scan comes out of the comment into code. -/
theorem exists_reached_commentTree (region : Span) :
    ∃ st, Reached text region st ∧ st.mode = .code ∧ st.position = tree.render.length := by
  have hlast := reached_scan text region
  have hend := position_scan text region
  rcases hlast.comment_cases (charAt_commentTree htext) (closesAt_commentTree htext) with
    hstart | ⟨segment, depth, -, hcloses⟩ | ⟨-, hcode⟩
  · have hlt : 0 < length text :=
      lt_length_of_not_isBlank ((charAt_commentTree htext).1 ▸ isBlank_slash)
    rw [hstart] at hend
    exact absurd hend (Nat.ne_of_lt hlt)
  · exact absurd hcloses.lt_length (by omega)
  · exact hcode

/-- Behind the comment, the scan has found its pieces. -/
theorem Reached.tokens_commentTree {st : State} (h : Reached text ⟨0, length text⟩ st)
    (hmode : st.mode = .code) (hposition : st.position = tree.render.length) :
    st.tokens.toList = commentTokens tree.render := by
  apply h.tokens_eq_of_tokensOf_eq {} hmode
  rw [hposition, suffix_commentTree htext, htext, tokensOf_commentTree]

end Tree

/-- **Comments nest**: a comment tree in front of any text is read as one comment, however deep or
wide it is. It yields one token for each of its pieces between line breaks that has characters, and
the tokens behind it are those of the text alone. The scan leaves the comment at its outermost
closer, and it is within the comment at all offsets before. -/
theorem tokenize_commentTree (options : Options) (tree : CommentTree) (rest : List Char)
    (h : (tree.render ++ rest).length ≤ maxOffset) :
    let text := Snapshot.ofList (tree.render ++ rest)
    let alone := Snapshot.ofList rest
    tokenize options text ⟨0, length text⟩ =
      ((piecesFrom 0 0 tree.render).filter (!·.isEmpty)).map (⟨·, .comment⟩) ++
        (tokenize options alone ⟨0, length alone⟩).map (Token.shift tree.render.length) ∧
    (∃ st, Reached text ⟨0, length text⟩ st ∧ st.mode = .code ∧
      st.position = tree.render.length) ∧
    ∀ st, Reached text ⟨0, length text⟩ st → 0 < st.position → st.position < tree.render.length →
      ∃ segment depth, st.mode = .blockComment segment depth := by
  intro text alone
  have htext : toList text = tree.render ++ rest := by
    rw [toList, ← suffix, Snapshot.suffix_ofList h, List.drop_zero]
  -- The scan comes to code right behind the comment, and from there it is one of the rest.
  obtain ⟨st, hreached, hmode, hposition⟩ := exists_reached_commentTree htext ⟨0, length text⟩
  refine ⟨?_, ⟨st, hreached, hmode, hposition⟩, ?_⟩
  · rw [tokenize_eq_append_tokenize (Snapshot.sameSuffix_append h) hreached hposition hmode,
      hreached.tokens_commentTree htext hmode hposition]
    rfl
  · intro st hreached hpos hlt
    rcases hreached.comment_cases (charAt_commentTree htext) (closesAt_commentTree htext) with
      rfl | ⟨segment, depth, hmode, -⟩ | ⟨hle, -⟩
    · exact absurd hpos (Nat.lt_irrefl 0)
    · exact ⟨segment, depth + 1, hmode⟩
    · omega

/-- A comment over two lines with a quote, a comment, a line comment and a backtick in it, before a
stray closer and a number. -/
theorem tokenize_commentTree_quotes :
    let tree : CommentTree := ⟨.text "a\"".toList (.comment (.text "/x*".toList .nil)
      (.text "\r\n//\x60".toList .nil)), by decide⟩
    let text := Snapshot.ofList (tree.render ++ "*/1".toList)
    tree.render = "/*a\"/*/x**/\r\n//\x60*/".toList ∧
      tokenize {} text ⟨0, length text⟩ =
        [⟨⟨0, 11⟩, .comment⟩, ⟨⟨13, 18⟩, .comment⟩, ⟨⟨20, 21⟩, .number⟩] ∧
      ∃ st, Reached text ⟨0, length text⟩ st ∧ st.mode = .code ∧ st.position = 18 := by
  intro tree text
  obtain ⟨htokens, hbehind, -⟩ := tokenize_commentTree {} tree "*/1".toList (by decide)
  refine ⟨by decide, ?_, hbehind⟩
  rw [htokens, tokenize_eq_steps]
  decide +kernel

end OdinSyntax.Scan
