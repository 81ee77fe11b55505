import LosslessTree.Tree.Navigation

set_option autoImplicit false

namespace LosslessTree

section Stretches

variable {α : Type}

theorem prefix_drop_append {xs ys zs : List α} {k : Nat} (h : xs ++ ys <+: zs.drop k) :
    xs <+: zs.drop k ∧ ys <+: zs.drop (k + xs.length) := by
  obtain ⟨more, split⟩ := h
  constructor
  · exact ⟨ys ++ more, by rw [← split, List.append_assoc]⟩
  · refine ⟨more, ?_⟩
    rw [← List.drop_drop, ← split, List.append_assoc, List.drop_left]

theorem prefix_drop_tail {x : α} {xs zs : List α} {k : Nat} (h : x :: xs <+: zs.drop k) :
    xs <+: zs.drop (k + 1) := by
  have split : [x] ++ xs <+: zs.drop k := h
  exact (prefix_drop_append split).2

theorem getD_of_prefix_drop {x : α} {xs zs : List α} {k : Nat} (d : α)
    (h : x :: xs <+: zs.drop k) : zs.getD k d = x := by
  obtain ⟨more, split⟩ := h
  have head : zs[k]? = some x := by
    have := congrArg List.head? split
    simpa [List.head?_drop] using this.symm
  simp [List.getD_eq_getElem?_getD, head]

-- A stretch is read back by asking for its indices one by one.
theorem map_getD_of_prefix_drop {xs zs : List α} {k : Nat} (d : α) (h : xs <+: zs.drop k) :
    (List.range' k xs.length).map (fun i => zs.getD i d) = xs := by
  induction xs generalizing k with
  | nil => rfl
  | cons x xs ih =>
      have tail := prefix_drop_tail h
      rw [List.length_cons, List.range'_succ, List.map_cons, getD_of_prefix_drop d h]
      rw [ih (by simpa using tail)]

end Stretches

structure SyntaxTree.Embeds (t : SyntaxTree) (parent : Nat) (p : Place) (f : Forest) : Prop where
  nodes : (f.layout parent p).nodes <+: t.nodes.toList.drop p.node
  tokens : (f.layout parent p).tokens <+: t.tokens.toList.drop p.token

namespace SyntaxTree

variable {t : SyntaxTree} {parent : Nat} {p : Place}

theorem node_eq_getD (n : Nat) : t.node n = t.nodes.toList.getD n default := by
  simp [node, Array.getD_eq_getD_getElem?, List.getD_eq_getElem?_getD]

theorem token_eq_getD (i : Nat) : t.token i = t.tokens.toList.getD i default := by
  simp [token, Array.getD_eq_getD_getElem?, List.getD_eq_getElem?_getD]

theorem Embeds.leaf {l : Leaf} {rest : Forest} (h : t.Embeds parent p (.leaf l rest)) :
    l.layout parent p.offset <+: t.tokens.toList.drop p.token ∧
      t.Embeds parent (p.afterLeaf l) rest := by
  have split := prefix_drop_append h.tokens
  rw [Leaf.layout_length] at split
  exact ⟨split.1, h.nodes, split.2⟩

theorem Embeds.node {k : Kind} {inner rest : Forest} (h : t.Embeds parent p (.node k inner rest)) :
    t.node p.node = .around (some parent) p k inner (inner.layout p.node p.inside).children ∧
      t.Embeds p.node p.inside inner ∧ t.Embeds parent (p.inside.after inner) rest := by
  have nodes := h.nodes
  have tokens := prefix_drop_append h.tokens
  rw [Forest.layout_tokens_length] at tokens
  simp only [Forest.layout, List.cons_append] at nodes
  have below := prefix_drop_tail nodes
  have split := prefix_drop_append below
  rw [Forest.layout_nodes_length] at split
  exact ⟨node_eq_getD _ ▸ getD_of_prefix_drop _ nodes, ⟨split.1, tokens.1⟩, ⟨split.2, tokens.2⟩⟩

theorem ofRoot_embeds (text : Text) (kind : Kind) (inner : Forest) :
    (ofRoot text kind inner).Embeds 0 ⟨1, 0, 0⟩ inner := by
  constructor <;> simp [ofRoot]

theorem ofRoot_node_zero (text : Text) (kind : Kind) (inner : Forest) :
    (ofRoot text kind inner).node 0 =
      .around none ⟨0, 0, 0⟩ kind inner (inner.layout 0 ⟨1, 0, 0⟩).children := by
  simp [node, ofRoot]

theorem ofRoot_nodes_size (text : Text) (kind : Kind) (inner : Forest) :
    (ofRoot text kind inner).nodes.size = 1 + inner.nodeCount := by
  simp [ofRoot, Forest.layout_nodes_length, Nat.add_comm]

theorem ofRoot_tokens_size (text : Text) (kind : Kind) (inner : Forest) :
    (ofRoot text kind inner).tokens.size = inner.tokenCount := by
  simp [ofRoot, Forest.layout_tokens_length]

def sizedToken (t : SyntaxTree) (i : Nat) : Kind × Nat := (t.tokenKind i, (t.tokenSpan i).length)

end SyntaxTree

def Piece.sized (p : Piece) : Kind × Nat := (p.kind.kind, p.length)

theorem Piece.layout_sized (parent offset : Nat) (pieces : List Piece) :
    (Piece.layout parent offset pieces).map (fun d => (d.kind, d.span.length)) =
      pieces.map Piece.sized := by
  induction pieces generalizing offset with
  | nil => rfl
  | cons p pieces ih =>
      rw [Piece.layout, List.map_cons, ih (offset + p.length)]
      simp [Piece.sized, Span.length]

namespace SyntaxTree

variable {t : SyntaxTree} {parent offset start : Nat} {l : Leaf}

theorem sized_stretch {pieces : List Piece}
    (h : Piece.layout parent offset pieces <+: t.tokens.toList.drop start) :
    (List.range' start pieces.length).map t.sizedToken = pieces.map Piece.sized := by
  have read := map_getD_of_prefix_drop default h
  rw [Piece.layout_length] at read
  have sized := congrArg (List.map fun d : TokenData => (d.kind, d.span.length)) read
  rw [List.map_map, Piece.layout_sized] at sized
  rw [← sized]
  apply List.map_congr_left
  intro i _
  simp only [sizedToken, tokenKind, tokenSpan, token_eq_getD, Function.comp_apply]

variable (h : l.layout parent offset <+: t.tokens.toList.drop start)
include h

theorem leaf_token : t.token (start + l.leading.length) =
    ⟨l.kind, parent, ⟨offset + Piece.lengthOf l.leading, offset + Piece.lengthOf l.leading + l.length⟩,
      l.leading.length, l.trailing.length⟩ := by
  have own := (prefix_drop_append h).2
  rw [Piece.layout_length] at own
  rw [token_eq_getD, getD_of_prefix_drop _ own]

theorem leaf_leadingTrivia :
    (t.leadingTrivia (start + l.leading.length)).map t.sizedToken =
      l.leading.map Piece.sized := by
  rw [leadingTrivia, leaf_token h, Nat.add_sub_cancel]
  exact sized_stretch (prefix_drop_append h).1

theorem leaf_trailingTrivia :
    (t.trailingTrivia (start + l.leading.length)).map t.sizedToken =
      l.trailing.map Piece.sized := by
  have own := (prefix_drop_append h).2
  rw [Piece.layout_length] at own
  have behind := prefix_drop_tail own
  rw [trailingTrivia, leaf_token h]
  exact sized_stretch behind

end SyntaxTree

end LosslessTree
