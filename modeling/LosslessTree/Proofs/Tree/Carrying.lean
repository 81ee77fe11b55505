import LosslessTree.Proofs.Grammar.Wholeness
import LosslessTree.Proofs.Grammar.Confinement

set_option autoImplicit false

namespace LosslessTree

theorem Place.after_leaf (p : Place) (l : Leaf) (rest : Forest) :
    p.after (.leaf l rest) = (p.afterLeaf l).after rest := by
  simp [after, afterLeaf, Forest.nodeCount, Forest.tokenCount, Forest.byteLength, Nat.add_assoc]

theorem Place.after_node (p : Place) (k : Kind) (inner rest : Forest) :
    p.after (.node k inner rest) = (p.inside.after inner).after rest := by
  simp [after, inside, Forest.nodeCount, Forest.tokenCount, Forest.byteLength, Nat.add_assoc]

theorem Forest.layout_append (parent : Nat) (p : Place) (f g : Forest) :
    (f ++ g).layout parent p =
      ⟨(f.layout parent p).nodes ++ (g.layout parent (p.after f)).nodes,
        (f.layout parent p).tokens ++ (g.layout parent (p.after f)).tokens,
        (f.layout parent p).children ++ (g.layout parent (p.after f)).children⟩ := by
  induction f generalizing p with
  | nil => rfl
  | leaf l rest ih => simp [layout, ih, Place.after_leaf]
  | node k inner rest _ ih => simp [layout, ih, Place.after_node]

namespace SyntaxTree

variable {t : SyntaxTree} {parent : Nat} {p : Place}

theorem Embeds.append {f g : Forest} (h : t.Embeds parent p (f ++ g)) :
    t.Embeds parent p f ∧ t.Embeds parent (p.after f) g := by
  have nodes := h.nodes
  have tokens := h.tokens
  rw [Forest.layout_append] at nodes tokens
  have nodes := prefix_drop_append nodes
  have tokens := prefix_drop_append tokens
  rw [Forest.layout_nodes_length] at nodes
  rw [Forest.layout_tokens_length] at tokens
  exact ⟨⟨nodes.1, tokens.1⟩, nodes.2, tokens.2⟩

-- The forest stands in the tree, and its leaves are the first of the tokens, whose text stands
-- there.
structure Carries (t : SyntaxTree) (parent : Nat) (p : Place) (f : Forest) (tokens : List Token) :
    Prop where
  embeds : t.Embeds parent p f
  leaves : f.leaves <+: tokens.map Token.leaf
  text : ∃ before after, t.text = before ++ ((tokens.map Token.fullText).flatten ++ after) ∧
    before.byteLength = p.offset

variable {tokens : List Token}

theorem Carries.leaf {l : Leaf} {rest : Forest} (h : t.Carries parent p (.leaf l rest) tokens) :
    ∃ token behind, tokens = token :: behind ∧ l = token.leaf ∧
      t.tokenText (p.token + l.leading.length) = token.text ∧
        t.Carries parent (p.afterLeaf l) rest behind := by
  obtain ⟨here, within⟩ := h.embeds.leaf
  obtain ⟨before, after, text, offset⟩ := h.text
  cases tokens with
  | nil => exact absurd h.leaves (by simp [Forest.leaves])
  | cons token behind =>
      have leaves := h.leaves
      rw [Forest.leaves, List.map_cons, List.cons_prefix_cons] at leaves
      obtain ⟨rfl, leaves⟩ := leaves
      refine ⟨token, behind, rfl, rfl, ?_, within, leaves, ?_⟩
      · have split : t.text = (before ++ Trivia.textOf token.leading) ++ (token.text ++
            (Trivia.textOf token.trailing ++ ((behind.map Token.fullText).flatten ++ after))) := by
          rw [text]
          simp [Token.fullText, List.append_assoc]
        have start : (before ++ Trivia.textOf token.leading).byteLength =
            p.offset + Piece.lengthOf token.leaf.leading := by
          rw [Text.byteLength_append, offset, Trivia.byteLength_textOf]
          exact congrArg (p.offset + ·) (Token.lengthOf_pieces _).symm
        rw [tokenText, textAt, tokenSpan, leaf_token here, split, ← start]
        exact Text.slice_append _ _ _
      · refine ⟨before ++ token.fullText, after, ?_, ?_⟩
        · rw [text]
          simp [List.append_assoc]
        · rw [Text.byteLength_append, offset, ← Token.leaf_byteLength]
          rfl

theorem Carries.node {k : Kind} {inner rest : Forest}
    (h : t.Carries parent p (.node k inner rest) tokens) :
    t.Carries p.node p.inside inner tokens ∧
      t.Carries parent (p.inside.after inner) rest (tokens.drop inner.leaves.length) := by
  obtain ⟨_, within, behind⟩ := h.embeds.node
  obtain ⟨more, leaves⟩ := h.leaves
  obtain ⟨before, after, text, offset⟩ := h.text
  have taken : inner.leaves = (tokens.take inner.leaves.length).map Token.leaf := by
    rw [List.map_take, ← leaves, Forest.leaves, List.append_assoc, List.take_left]
  have left : rest.leaves ++ more = (tokens.drop inner.leaves.length).map Token.leaf := by
    rw [List.map_drop, ← leaves, Forest.leaves, List.append_assoc, List.drop_left]
  refine ⟨⟨within, ⟨rest.leaves ++ more, ?_⟩, before, after, text, offset⟩,
    behind, ⟨more, left⟩, ?_⟩
  · rw [← leaves, Forest.leaves, List.append_assoc]
  · refine ⟨before ++ ((tokens.take inner.leaves.length).map Token.fullText).flatten, after, ?_, ?_⟩
    · rw [text, List.append_assoc, ← List.append_assoc (List.flatten _) _ after,
        ← List.flatten_append, ← List.map_append, List.take_append_drop]
    · rw [Text.byteLength_append, offset, ← Token.total_leaf_byteLength, ← taken,
        ← Forest.byteLength_leaves]
      rfl

theorem parse_carries (text : Text) :
    (parse text).tree.Carries 0 ⟨1, 0, 0⟩ ((TokenStream.ofText text).run .file).parts
      (TokenStream.ofText text).tokens := by
  have whole : (parse text).tree.Embeds 0 ⟨1, 0, 0⟩ (TokenStream.ofText text).forest :=
    ofRoot_embeds text .sourceFile _
  have kept := (TokenStream.ofText text).run_keeps Rule.file
  refine ⟨whole.append.1, ⟨_, kept.symm⟩, [], (TokenStream.ofText text).eof.fullText, ?_, rfl⟩
  have joined : ((TokenStream.ofText text).tokens.map Token.fullText).flatten ++
      (TokenStream.ofText text).eof.fullText = text := by
    have all := TokenStream.ofTextAt_text 0 text
    rwa [TokenStream.all, List.map_append, List.flatten_append, List.map_singleton,
      List.flatten_singleton] at all
  exact joined.symm

end SyntaxTree

end LosslessTree
