import LosslessTree.Proofs.Tree.Embedding

set_option autoImplicit false

namespace LosslessTree

namespace Forest

def HasNode : Forest → Kind → Forest → Prop
  | nil, _, _ => False
  | leaf _ rest, k, inner => rest.HasNode k inner
  | node k' inner' rest, k, inner =>
      (k' = k ∧ inner' = inner) ∨ inner'.HasNode k inner ∨ rest.HasNode k inner

theorem HasNode.leaves_sublist {k : Kind} {inner f : Forest} (h : f.HasNode k inner) :
    inner.leaves.Sublist f.leaves := by
  induction f with
  | nil => exact h.elim
  | leaf l rest ih => exact (ih h).cons l
  | node k' inner' rest hi hr =>
      rcases h with ⟨rfl, rfl⟩ | h | h
      · exact List.sublist_append_left _ _
      · exact (hi h).trans (List.sublist_append_left _ _)
      · exact (hr h).trans (List.sublist_append_right _ _)

end Forest

-- A node of the tree is laid out at a place, around a forest that stands behind it.
structure SyntaxTree.Site (t : SyntaxTree) (parent : Option Nat) (p : Place) (k : Kind)
    (inner : Forest) : Prop where
  data : t.node p.node = .around parent p k inner (inner.layout p.node p.inside).children
  within : t.Embeds p.node p.inside inner

namespace SyntaxTree

variable {t : SyntaxTree} {parent : Nat} {p : Place}

theorem Embeds.site {k : Kind} {inner rest : Forest} (h : t.Embeds parent p (.node k inner rest)) :
    t.Site (some parent) p k inner := ⟨h.node.1, h.node.2.1⟩

theorem Embeds.exists_site {f : Forest} (h : t.Embeds parent p f) {n : Nat} (first : p.node ≤ n)
    (last : n < p.node + f.nodeCount) :
    ∃ around q k inner, q.node = n ∧ t.Site around q k inner ∧ f.HasNode k inner := by
  induction f generalizing parent p with
  | nil => exact absurd last (by simpa [Forest.nodeCount] using first)
  | leaf l rest ih => exact ih h.leaf.2 first last
  | node k inner rest hi hr =>
      obtain ⟨_, within, behind⟩ := h.node
      simp only [Forest.nodeCount] at last
      by_cases here : p.node = n
      · exact ⟨some parent, p, k, inner, here, h.site, .inl ⟨rfl, rfl⟩⟩
      by_cases below : n < p.node + 1 + inner.nodeCount
      · obtain ⟨around, q, k', inner', at_, site, has⟩ :=
          hi within (by change p.node + 1 ≤ n; omega) below
        exact ⟨around, q, k', inner', at_, site, .inr (.inl has)⟩
      · obtain ⟨around, q, k', inner', at_, site, has⟩ :=
          hr behind (by simp only [Place.after, Place.inside]; omega)
            (by simp only [Place.after, Place.inside]; omega)
        exact ⟨around, q, k', inner', at_, site, .inr (.inr has)⟩

theorem ofRoot_site (text : Text) (kind : Kind) (inner : Forest) :
    (ofRoot text kind inner).Site none ⟨0, 0, 0⟩ kind inner :=
  ⟨ofRoot_node_zero text kind inner, ofRoot_embeds text kind inner⟩

theorem ofRoot_exists_site {text : Text} {kind : Kind} {inner : Forest} {n : Nat}
    (h : n < (ofRoot text kind inner).nodes.size) :
    ∃ around q k within, q.node = n ∧ (ofRoot text kind inner).Site around q k within ∧
      (Forest.node kind inner .nil).HasNode k within := by
  rw [ofRoot_nodes_size] at h
  by_cases root : n = 0
  · subst root
    exact ⟨none, ⟨0, 0, 0⟩, kind, inner, rfl, ofRoot_site text kind inner, .inl ⟨rfl, rfl⟩⟩
  · obtain ⟨around, q, k, within, at_, site, has⟩ :=
      (ofRoot_embeds text kind inner).exists_site (n := n) (by simp only; omega) h
    exact ⟨around, q, k, within, at_, site, .inr (.inl has)⟩

theorem lt_size_of_kind {n : Nat} (h : t.kind n ≠ default) : n < t.nodes.size := by
  refine Nat.lt_of_not_le fun out => h ?_
  rw [kind, node, Array.getD_eq_getD_getElem?, Array.getElem?_eq_none out]
  rfl

section Reading

variable {around : Option Nat} {k : Kind} {inner : Forest} (h : t.Site around p k inner)
include h

theorem Site.kind : t.kind p.node = k := by
  rw [SyntaxTree.kind, h.data]
  rfl

theorem Site.children : t.children p.node = (inner.layout p.node p.inside).children := by
  rw [SyntaxTree.children, h.data]
  rfl

theorem Site.span : t.span p.node = ⟨p.offset, p.offset + inner.byteLength⟩ := by
  rw [SyntaxTree.span, h.data]
  rfl

theorem Site.tokensOf : t.tokensOf p.node = List.range' p.token inner.tokenCount := by
  rw [SyntaxTree.tokensOf, h.data]
  simp [NodeData.around]

end Reading

end SyntaxTree

theorem Piece.layout_within {parent offset : Nat} {pieces : List Piece} :
    ∀ d ∈ Piece.layout parent offset pieces,
      offset ≤ d.span.start ∧ d.span.stop ≤ offset + Piece.lengthOf pieces ∧
        d.span.start ≤ d.span.stop := by
  induction pieces generalizing offset with
  | nil => simp [layout]
  | cons piece pieces ih =>
      intro d mem
      simp only [lengthOf, total_cons]
      rcases List.mem_cons.mp mem with rfl | mem
      · simp only
        omega
      · have := ih d mem
        simp only [lengthOf] at this
        omega

theorem Leaf.layout_within {parent offset : Nat} {l : Leaf} :
    ∀ d ∈ l.layout parent offset,
      offset ≤ d.span.start ∧ d.span.stop ≤ offset + l.byteLength ∧ d.span.start ≤ d.span.stop := by
  intro d mem
  simp only [layout, List.mem_append, List.mem_cons] at mem
  simp only [byteLength]
  rcases mem with before | rfl | behind
  · have := Piece.layout_within d before
    omega
  · simp only
    omega
  · have := Piece.layout_within d behind
    omega

theorem Forest.layout_within {parent : Nat} {p : Place} {f : Forest} :
    ∀ d ∈ (f.layout parent p).tokens,
      p.offset ≤ d.span.start ∧ d.span.stop ≤ p.offset + f.byteLength ∧
        d.span.start ≤ d.span.stop := by
  induction f generalizing parent p with
  | nil => simp [layout]
  | leaf l rest ih =>
      intro d mem
      simp only [byteLength]
      rcases List.mem_append.mp mem with own | behind
      · have := Leaf.layout_within d own
        omega
      · have := ih d behind
        simp only [Place.afterLeaf] at this
        omega
  | node k inner rest hi hr =>
      intro d mem
      simp only [byteLength]
      rcases List.mem_append.mp mem with below | behind
      · have := hi d below
        simp only [Place.inside] at this
        omega
      · have := hr d behind
        simp only [Place.inside, Place.after] at this
        omega

namespace SyntaxTree

variable {t : SyntaxTree} {parent : Nat} {p : Place}

theorem Embeds.tokens_eq {f : Forest} (h : t.Embeds parent p f) :
    (List.range' p.token f.tokenCount).map t.token = (f.layout parent p).tokens := by
  have read := map_getD_of_prefix_drop default h.tokens
  rw [Forest.layout_tokens_length] at read
  rw [← read]
  exact List.map_congr_left fun i _ => token_eq_getD i

theorem Embeds.token_within {f : Forest} (h : t.Embeds parent p f) {i : Nat}
    (mem : i ∈ List.range' p.token f.tokenCount) :
    p.offset ≤ (t.tokenSpan i).start ∧ (t.tokenSpan i).stop ≤ p.offset + f.byteLength ∧
      (t.tokenSpan i).start ≤ (t.tokenSpan i).stop := by
  apply @Forest.layout_within parent
  rw [← h.tokens_eq]
  exact List.mem_map_of_mem mem

theorem Site.trimmedSpan_start {around : Option Nat} {k : Kind} {inner : Forest}
    (h : t.Site around p k inner) :
    p.offset ≤ (t.trimmedSpan p.node).start ∧
      (t.trimmedSpan p.node).start ≤ p.offset + inner.byteLength := by
  unfold trimmedSpan
  split
  · next first last isFirst _ =>
      have mem : first ∈ t.tokensOf p.node :=
        (List.mem_filter.mp (List.mem_of_mem_head? isFirst)).1
      rw [h.tokensOf] at mem
      have := h.within.token_within mem
      simp only [Place.inside] at this
      simp only
      omega
  · rw [h.span]
    simp [Span.empty]

end SyntaxTree

end LosslessTree
