import OdinSyntax.Proofs.Scan.Spelling

/-!
# Tails

What it changes to ask for tails (`tokenize_tails`). Only `finish` looks at the option, so two scans
that differ in it come to the same state, and one of them may add a last token there. Which one that
is can be told in two ways: by the mode in which the scan ends (`Mode.tail?`), or by the last lexeme
of the text (`Lexeme.tail?`), for a construct that is not closed takes all of the text behind it.
-/

namespace OdinSyntax

/-- The kind of the pieces of a construct that is not closed. -/
def Shape.openKind? : Shape → Option Kind
  | .blockComment false => some .comment
  | .rawString false => some .stringLiteral
  | _ => none

namespace Lexeme

variable {c : Char} {rest : List Char} {n : Nat} {shape : Shape}

/-- The last piece of a construct that is not closed, an empty one too. -/
def tail? (lexeme : Lexeme) : Option Token :=
  lexeme.shape.openKind?.bind fun kind =>
    (piecesFrom lexeme.offset lexeme.offset lexeme.text).getLast?.map (⟨·, kind⟩)

/-- The kind of a lexeme that needs no closer, and may so be cut off by the end of the text. -/
def openEndedKind? (lexeme : Lexeme) : Option Kind :=
  match lexeme.shape with
  | .number => some .number
  | .lineComment => some .comment
  | .word => some (Kind.ofWord lexeme.text lexeme.rest)
  | _ => none

/-! ## The last lexeme -/

/-- A construct that is not closed takes all of the rest. -/
theorem eq_length_of_closedExtent {found : Bool → Shape} {close? : Option Nat}
    (hopen : (found true).openKind? = none) (hkind : shape.openKind?.isSome)
    (h : closedExtent found rest close? = (shape, n)) : n = rest.length := by
  cases close? with
  | none =>
    cases h
    rfl
  | some m =>
    cases h
    rw [hopen] at hkind
    cases hkind

/-- A construct that is not closed takes all of the text. -/
theorem headExtent_open (hkind : shape.openKind?.isSome) (h : headExtent c rest = (shape, n)) :
    n = rest.length := by
  revert h
  fun_cases headExtent c rest with
  | case2 | case6 => exact eq_length_of_closedExtent rfl hkind
  | case5 =>
    intro h
    unfold quotedExtent at h
    split at h <;> cases h <;> cases hkind
  | _ =>
    rintro ⟨⟩
    cases hkind

/-- Behind a lexeme that is not closed nothing is left. -/
theorem rest_head_of_open (offset : Nat) (h : (head offset c rest).shape.openKind?.isSome) :
    (head offset c rest).rest = [] := by
  cases hext : headExtent c rest with
  | mk shape n =>
    rw [head, hext] at h ⊢
    obtain rfl := headExtent_open h hext
    exact List.drop_length

/-! ## Tokens with tails and without -/

/-- The tail is what is added to the pieces. -/
theorem pieces_false_append (lexeme : Lexeme) :
    lexeme.pieces ⟨true⟩ false = lexeme.pieces ⟨false⟩ false ++
      (piecesFrom lexeme.offset lexeme.offset lexeme.text).getLast?.toList.filter (!·.isEmpty) := by
  have hne := piecesFrom_ne_nil lexeme.offset lexeme.offset lexeme.text
  have hsplit := List.dropLast_concat_getLast hne
  rw [List.getLast?_eq_some_getLast hne, Option.toList_some, pieces, pieces, Bool.false_or,
    Bool.false_or, if_pos rfl, if_neg Bool.false_ne_true, ← List.filter_append, hsplit]

/-- The tail is what is added to the tokens. -/
theorem tokens_eq_append_tail (lexeme : Lexeme) :
    lexeme.tokens ⟨true⟩ =
      lexeme.tokens ⟨false⟩ ++ lexeme.tail?.toList.filter (!·.span.isEmpty) := by
  -- Only constructs over several lines that are not closed have a tail, their last piece.
  have hmap : ∀ kind : Kind, (lexeme.pieces ⟨true⟩ false).map (Token.mk · kind) =
      (lexeme.pieces ⟨false⟩ false).map (Token.mk · kind) ++
        ((piecesFrom lexeme.offset lexeme.offset lexeme.text).getLast?.map
          (Token.mk · kind)).toList.filter (!·.span.isEmpty) := by
    intro kind
    rw [pieces_false_append, List.map_append, Option.toList_map, List.filter_map]
    rfl
  rw [tokens, tokens, tail?]
  cases hshape : lexeme.shape with
  | blockComment closed =>
    cases closed with
    | false => exact hmap .comment
    | true => exact (List.append_nil _).symm
  | rawString closed =>
    cases closed with
    | false => exact hmap .stringLiteral
    | true => exact (List.append_nil _).symm
  | quoted closed => cases closed <;> rfl
  | _ => rfl

/-- Only the last lexeme has a tail. -/
theorem flatMap_tokens_eq_append (offset : Nat) (text : List Char) :
    (lexemesFrom offset text).flatMap (·.tokens ⟨true⟩) =
      (lexemesFrom offset text).flatMap (·.tokens ⟨false⟩) ++
        (lexemesFrom offset text).flatMap (·.tail?.toList.filter (!·.span.isEmpty)) := by
  fun_induction lexemesFrom offset text with
  | case1 => rfl
  | case2 offset c rest lexeme ih =>
    rw [List.flatMap_cons, List.flatMap_cons, List.flatMap_cons, tokens_eq_append_tail lexeme]
    cases hopen : lexeme.shape.openKind? with
    | none =>
      have htail : lexeme.tail? = none := by rw [tail?, hopen, Option.bind_none]
      rw [ih, htail, Option.toList_none, List.filter_nil, List.append_nil, List.nil_append,
        List.append_assoc]
    | some kind =>
      have hrest : lexeme.rest = [] := rest_head_of_open offset (by rw [hopen]; rfl)
      rw [hrest, lexemesFrom_nil, List.flatMap_nil, List.flatMap_nil, List.flatMap_nil,
        List.append_nil, List.append_nil, List.append_nil]

theorem mem_tokens_of_mem_tokens_false {lexeme : Lexeme} {t : Token}
    (ht : t ∈ lexeme.tokens ⟨false⟩) (options : Scan.Options) : t ∈ lexeme.tokens options := by
  obtain ⟨emitTails⟩ := options
  cases emitTails with
  | false => exact ht
  | true =>
    rw [tokens_eq_append_tail]
    exact List.mem_append_left _ ht

/-- The pieces before the last one are tokens without tails too. -/
theorem mem_tokens_of_mem_dropLast {lexeme : Lexeme} {kind : Kind} {piece : Span}
    (hkind : lexeme.shape.pieceKind? = some kind)
    (hmem : piece ∈ (piecesFrom lexeme.offset lexeme.offset lexeme.text).dropLast)
    (hempty : piece.isEmpty = false) (options : Scan.Options) :
    ⟨piece, kind⟩ ∈ lexeme.tokens options := by
  have hpieces : ∀ closed, piece ∈ lexeme.pieces ⟨false⟩ closed := by
    intro closed
    apply List.mem_filter.mpr ⟨?_, by rw [hempty]; rfl⟩
    cases closed with
    | false => exact hmem
    | true => exact (List.dropLast_sublist _).subset hmem
  apply mem_tokens_of_mem_tokens_false _ options
  unfold Shape.pieceKind? at hkind
  rw [tokens]
  split at hkind
  · next closed hshape =>
    cases hkind
    rw [hshape]
    exact List.mem_map_of_mem (hpieces closed)
  · next closed hshape =>
    cases hkind
    rw [hshape]
    exact List.mem_map_of_mem (hpieces closed)
  · cases hkind

/-- A lexeme that ends by itself is one token, whatever is behind it. -/
theorem mem_tokens_of_openEndedKind? {lexeme : Lexeme} {kind : Kind}
    (hkind : lexeme.openEndedKind? = some kind) (options : Scan.Options) :
    ⟨lexeme.span, kind⟩ ∈ lexeme.tokens options := by
  rw [openEndedKind?] at hkind
  rw [tokens]
  cases hshape : lexeme.shape with
  | number | lineComment | word =>
    rw [hshape] at hkind
    cases hkind
    exact List.mem_singleton_self _
  | _ =>
    rw [hshape] at hkind
    cases hkind

end Lexeme

namespace Scan

open Source Lexeme

/-- What a scan that ends in a mode leaves open before `stop`, if tails are asked for. -/
def Mode.tail? (stop : Nat) : Mode → Option Token
  | .blockComment segment _ => some ⟨⟨segment, stop⟩, .comment⟩
  | .rawString segment => some ⟨⟨segment, stop⟩, .stringLiteral⟩
  | .code | .word _ | .number _ | .quoted _ _ | .lineComment _ => none

variable {σ : Type} [Source σ] {text : σ} {region : Span}

/-- The last lexeme of the text is a construct that is not closed, and `t` is its last piece. -/
def IsTail (text : σ) (t : Token) : Prop :=
  ∃ start, LexemeStart text start ∧ start < length text ∧ (headAt text start).tail? = some t

/-- With tails, the end of the text adds the tail of the mode. -/
theorem tokens_finish_eq_append (stop : Nat) (region : Span) (st : State) :
    (finish ⟨true⟩ stop region st).tokens.toList =
      (finish ⟨false⟩ stop region st).tokens.toList ++
        (st.mode.tail? stop).toList.filter (keeps region) := by
  cases hmode : st.mode with
  | blockComment segment depth | rawString segment =>
    simp only [finish, hmode]
    exact toList_tokens_emit ..
  | _ =>
    simp only [finish, hmode]
    exact (List.append_nil _).symm

/-- What tails add comes last. -/
theorem tokenize_true_eq_append (text : σ) (region : Span) :
    tokenize ⟨true⟩ text region = tokenize ⟨false⟩ text region ++
      ((scan text region).mode.tail? (length text)).toList.filter (keeps region) :=
  tokens_finish_eq_append _ _ _

/-- The lexemes tell the same as the mode in which the scan ends. -/
theorem filter_tail_eq (text : σ) (region : Span) :
    ((scan text region).mode.tail? (length text)).toList.filter (keeps region) =
      ((lexemesFrom 0 (toList text)).flatMap
        (·.tail?.toList.filter (!·.span.isEmpty))).filter (keeps region) := by
  have hscan := tokenize_true_eq_append text region
  rw [tokenize_eq_filter_keeps, tokensOf, flatMap_tokens_eq_append, List.filter_append, ← tokensOf,
    ← tokenize_eq_filter_keeps] at hscan
  exact (List.append_cancel_left hscan).symm

/-- A tail of one of the lexemes is a tail of the text. -/
theorem mem_filter_tail_iff {t : Token} :
    t ∈ ((lexemesFrom 0 (toList text)).flatMap
        (·.tail?.toList.filter (!·.span.isEmpty))).filter (keeps region) ↔
      IsTail text t ∧ keeps region t = true := by
  rw [List.mem_filter, List.mem_flatMap]
  refine and_congr_left fun hkeeps => ?_
  have hempty : (!t.span.isEmpty) = true := (Bool.and_eq_true_iff.mp hkeeps).1
  constructor
  · rintro ⟨lexeme, hmem, ht⟩
    obtain ⟨start, hstart, hlt, rfl⟩ := LexemeStart.zero.exists_of_mem hmem
    exact ⟨start, hstart, hlt, Option.mem_toList.mp (List.mem_of_mem_filter ht)⟩
  · rintro ⟨start, hstart, hlt, ht⟩
    exact ⟨_, hstart.mem_lexemesFrom hlt, List.mem_filter.mpr ⟨Option.mem_toList.mpr ht, hempty⟩⟩

theorem filter_toList_eq_singleton_iff {o : Option Token} {p : Token → Bool} {t : Token} :
    o.toList.filter p = [t] ↔ t ∈ o.toList.filter p := by
  constructor
  · intro h
    rw [h]
    exact List.mem_singleton_self t
  · intro h
    obtain ⟨ht, hp⟩ := List.mem_filter.mp h
    rw [Option.mem_toList.mp ht, Option.toList_some, List.filter_singleton, hp]
    rfl

/-- **Tails are all that the option adds.** With tails a scan gives the same tokens as without, or
one more. It gives one more if and only if it ends in a block comment or raw string and the region
keeps the rest of that construct, from the start of the present piece to the end of the text. This
is also the case if and only if the last lexeme of the text is a block comment or raw string that is
not closed, and the region keeps its last piece. All pieces before that one, and the numbers, words
and line comments wherever they end, are found with tails and without. -/
theorem tokenize_tails (text : σ) (region : Span) :
    let on := tokenize ⟨true⟩ text region
    let off := tokenize ⟨false⟩ text region
    (on = off ∨ ∃ t, on = off ++ [t]) ∧
    (∀ t, on = off ++ [t] ↔
      (scan text region).mode.tail? (length text) = some t ∧ keeps region t = true) ∧
    (∀ t, on = off ++ [t] ↔ IsTail text t ∧ keeps region t = true) ∧
    ∀ options start, LexemeStart text start → start < length text →
      (∀ kind, (headAt text start).shape.pieceKind? = some kind →
        ∀ piece ∈ (piecesFrom start start (headAt text start).text).dropLast,
          keeps region ⟨piece, kind⟩ = true → ⟨piece, kind⟩ ∈ tokenize options text region) ∧
      ∀ kind, (headAt text start).openEndedKind? = some kind →
        (headAt text start).span.intersects region = true →
        ⟨(headAt text start).span, kind⟩ ∈ tokenize options text region := by
  intro on off
  have hon : on = off ++ _ := tokenize_true_eq_append text region
  -- Cancelling what is common leaves the tail, if the region keeps it.
  have hiff : ∀ t, on = off ++ [t] ↔
      t ∈ ((scan text region).mode.tail? (length text)).toList.filter (keeps region) := by
    intro t
    rw [hon, List.append_cancel_left_eq, filter_toList_eq_singleton_iff]
  refine ⟨?_, ?_, ?_, ?_⟩
  · cases h : ((scan text region).mode.tail? (length text)).toList.filter (keeps region) with
    | nil =>
      left
      rw [hon, h, List.append_nil]
    | cons t rest =>
      right
      exact ⟨t, (hiff t).mpr (h ▸ List.mem_cons_self)⟩
  · intro t
    rw [hiff, List.mem_filter, Option.mem_toList]
  · intro t
    rw [hiff, filter_tail_eq, mem_filter_tail_iff]
  · intro options start hstart hlt
    constructor
    · intro kind hkind piece hpiece hkeeps
      have hempty : piece.isEmpty = false := by
        simpa using (Bool.and_eq_true_iff.mp hkeeps).1
      have hmem := mem_tokens_of_mem_dropLast hkind hpiece hempty options
      exact mem_tokenize_iff_keeps.mpr ⟨⟨start, hstart, hlt, hmem⟩, hkeeps⟩
    · intro kind hkind hintersects
      have hmem := mem_tokens_of_openEndedKind? hkind options
      have hempty := isEmpty_of_mem_tokens (List.cons_ne_nil _ _) hmem
      refine mem_tokenize_iff_keeps.mpr ⟨⟨start, hstart, hlt, hmem⟩, ?_⟩
      rw [keeps, hempty, hintersects]
      rfl

/-- A number, and a comment on two lines that is not closed. -/
theorem tokenize_tails_comment :
    let text := Snapshot.ofString "1/*a\r\nb"
    tokenize ⟨true⟩ text ⟨3, 7⟩ = tokenize ⟨false⟩ text ⟨3, 7⟩ ++ [⟨⟨6, 7⟩, .comment⟩] ∧
      IsTail text ⟨⟨6, 7⟩, .comment⟩ ∧
      ⟨⟨1, 4⟩, .comment⟩ ∈ tokenize ⟨false⟩ text ⟨3, 7⟩ ∧
      ⟨⟨0, 1⟩, .number⟩ ∈ tokenize ⟨false⟩ text ⟨0, 0⟩ := by
  intro text
  obtain ⟨-, hmode, htail, hrest⟩ := tokenize_tails text ⟨3, 7⟩
  have hon := (hmode ⟨⟨6, 7⟩, .comment⟩).mpr (by
    rw [scan_eq_steps]
    decide +kernel)
  have hnumber : (headAt text 0).span = ⟨0, 1⟩ := by decide +kernel
  have hstart : LexemeStart text 1 := by
    have hnext := LexemeStart.zero.next (show 0 < Source.length text by decide)
    rwa [hnumber] at hnext
  have hpiece := (hrest ⟨false⟩ 1 hstart (by decide)).1 .comment (by decide +kernel) ⟨1, 4⟩
    (by decide +kernel) rfl
  have hcaret := ((tokenize_tails text ⟨0, 0⟩).2.2.2 ⟨false⟩ 0 .zero (by decide)).2 .number
    (by decide +kernel) (by rw [hnumber]; rfl)
  rw [hnumber] at hcaret
  exact ⟨hon, ((htail _).mp hon).1, hpiece, hcaret⟩

end Scan

end OdinSyntax
