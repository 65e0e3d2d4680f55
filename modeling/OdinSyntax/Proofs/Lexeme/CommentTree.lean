import OdinSyntax.Lexeme.Tokens

/-!
# Comment trees

A block comment is a tree: between its delimiters it has chunks of text and further comments. A
`CommentTree` is such a tree whose chunks hold no delimiter, not even with the character behind
them, so that its delimiters are those that it is rendered with.

The search for the closer of a comment goes through the whole rendering of a tree and comes out one
level further up (`closeBlock?_render`). In front of any text, the first lexeme is therefore the
rendering of the tree, no more and no less of it (`head_render`).
-/

namespace OdinSyntax

/-- The items between the delimiters of a comment, in their order: chunks of text and comments. -/
inductive CommentItems
  | nil
  | text (chunk : List Char) (rest : CommentItems)
  | comment (items rest : CommentItems)

/-- Whether the text holds an opener or a closer of a comment. -/
def HasDelimiter (text : List Char) : Prop :=
  ['/', '*'] <:+: text ∨ ['*', '/'] <:+: text

/-- A delimiter of a part is one of the whole. -/
theorem HasDelimiter.mono {part text : List Char} (h : HasDelimiter part)
    (hpart : part <:+: text) : HasDelimiter text :=
  h.imp (·.trans hpart) (·.trans hpart)

instance (text : List Char) : Decidable (HasDelimiter text) :=
  inferInstanceAs (Decidable (_ ∨ _))

namespace CommentItems

/-- The characters of the items and of the closer behind them. -/
def render : CommentItems → List Char
  | nil => ['*', '/']
  | text chunk rest => chunk ++ rest.render
  | comment items rest => '/' :: '*' :: (items.render ++ rest.render)

/-- Items are rendered with the closer behind them, so there is always some character. -/
theorem length_render_pos (items : CommentItems) : 0 < items.render.length := by
  induction items with
  | nil => exact Nat.succ_pos _
  | text chunk rest ih =>
    rw [render, List.length_append]
    exact Nat.add_pos_right _ ih
  | comment => exact Nat.succ_pos _

/-- Whether no chunk holds a delimiter, together with the character that follows it. -/
def Plain : CommentItems → Prop
  | nil => True
  | text chunk rest => ¬ HasDelimiter (chunk ++ rest.render.take 1) ∧ rest.Plain
  | comment items rest => items.Plain ∧ rest.Plain

/-- Whether items are plain is decided by recursion on them. -/
def decidablePlain : (items : CommentItems) → Decidable items.Plain
  | nil => .isTrue trivial
  | text _ rest =>
    have := rest.decidablePlain
    inferInstanceAs (Decidable (_ ∧ _))
  | comment items rest =>
    have := items.decidablePlain
    have := rest.decidablePlain
    inferInstanceAs (Decidable (_ ∧ _))

instance (items : CommentItems) : Decidable items.Plain :=
  items.decidablePlain

end CommentItems

/-- A block comment with what it is made of. -/
structure CommentTree where
  items : CommentItems
  plain : items.Plain

/-- The characters of the comment. -/
def CommentTree.render (tree : CommentTree) : List Char :=
  '/' :: '*' :: tree.items.render

namespace Lexeme

/-! ## The search for the closer -/

theorem closeBlock?_cons {depth : Nat} {c : Char} {text : List Char}
    (h : ¬ HasDelimiter (c :: text.take 1)) :
    closeBlock? (depth + 1) (c :: text) = (closeBlock? (depth + 1) text).map (· + 1) := by
  rw [closeBlock?]
  · rintro rest rfl rfl
    exact h (.inl (List.infix_refl _))
  · rintro rest rfl rfl
    exact h (.inr (List.infix_refl _))

/-- A chunk without a delimiter is passed over. -/
theorem closeBlock?_append {depth : Nat} {chunk text : List Char}
    (h : ¬ HasDelimiter (chunk ++ text.take 1)) :
    closeBlock? (depth + 1) (chunk ++ text) =
      (closeBlock? (depth + 1) text).map (· + chunk.length) := by
  induction chunk with
  | nil => simp
  | cons c chunk ih =>
    have hnext : (chunk ++ text).take 1 = (chunk ++ text.take 1).take 1 := by
      cases chunk with
      | nil => rw [List.nil_append, List.nil_append, List.take_take, Nat.min_self]
      | cons => rfl
    have hfirst : ¬ HasDelimiter (c :: (chunk ++ text).take 1) := by
      rw [hnext]
      exact mt (·.mono ((List.prefix_cons_inj c).mpr (List.take_prefix 1 _)).isInfix) h
    have hlater : ¬ HasDelimiter (chunk ++ text.take 1) :=
      mt (·.mono (List.suffix_cons c _).isInfix) h
    rw [List.cons_append, closeBlock?_cons hfirst, ih hlater, Option.map_map]
    rfl

/-- The closer that ends the items is found behind their rendering, and the search goes on with one
closer less to await. -/
theorem closeBlock?_render {items : CommentItems} (h : items.Plain) (depth : Nat)
    (text : List Char) :
    closeBlock? (depth + 1) (items.render ++ text) =
      (closeBlock? depth text).map (· + items.render.length) := by
  induction items generalizing depth text with
  | nil => rw [CommentItems.render, List.cons_append, List.singleton_append, closeBlock?]; rfl
  | text chunk rest ih =>
    obtain ⟨hchunk, hrest⟩ := h
    -- Only the character behind a chunk matters, and it is rendered by the items, not by the text.
    rw [← List.take_append_of_le_length rest.length_render_pos] at hchunk
    rw [CommentItems.render, List.append_assoc, closeBlock?_append hchunk, ih hrest,
      Option.map_map, List.length_append]
    congr 1
    funext n
    simp only [Function.comp_apply]
    omega
  | comment items rest ihItems ihRest =>
    obtain ⟨hitems, hrest⟩ := h
    rw [CommentItems.render, List.cons_append, List.cons_append, List.append_assoc, closeBlock?,
      ihItems hitems, ihRest hrest, Option.map_map, Option.map_map,
      List.length_cons, List.length_cons, List.length_append]
    congr 1
    funext n
    simp only [Function.comp_apply]
    omega

/-- A comment in front of any text is the first lexeme. -/
theorem head_render (tree : CommentTree) (offset : Nat) (text : List Char) :
    head offset '/' ('*' :: (tree.items.render ++ text)) =
      ⟨.blockComment true, offset, tree.render, text⟩ := by
  have hclose : closeBlock? 1 (tree.items.render ++ text) = some tree.items.render.length := by
    rw [closeBlock?_render tree.plain, closeBlock?, Option.map_some, Nat.zero_add]
  have hextent : headExtent '/' ('*' :: (tree.items.render ++ text)) =
      (.blockComment true, tree.items.render.length + 1) := by
    rw [headExtent]
    simp [breakLength, hclose, closedExtent]
  rw [head, hextent]
  simp [CommentTree.render]

end Lexeme

end OdinSyntax
