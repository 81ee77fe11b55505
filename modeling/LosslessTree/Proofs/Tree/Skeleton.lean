import LosslessTree.Proofs.Tree.Site

set_option autoImplicit false

namespace LosslessTree

def Leaf.bare (l : Leaf) : Leaf := ⟨[], l.kind, 0, []⟩

def Forest.bare : Forest → Forest
  | nil => nil
  | leaf l rest => leaf l.bare (bare rest)
  | node k inner rest => node k (bare inner) (bare rest)

@[simp] theorem Forest.bare_append (f g : Forest) : (f ++ g).bare = f.bare ++ g.bare := by
  induction f with
  | nil => rfl
  | leaf l rest ih => simp [bare, ih]
  | node k inner rest _ ih => simp [bare, ih]

theorem Forest.nodeCount_bare (f : Forest) : f.bare.nodeCount = f.nodeCount := by
  induction f with
  | nil => rfl
  | leaf l rest ih => exact ih
  | node k inner rest hi hr => simp [bare, nodeCount, hi, hr]

theorem Forest.leaves_bare (f : Forest) : f.bare.leaves = f.leaves.map Leaf.bare := by
  induction f with
  | nil => rfl
  | leaf l rest ih => simp [bare, leaves, ih]
  | node k inner rest hi hr => simp [bare, leaves, hi, hr]

namespace SyntaxTree

def ordinal (t : SyntaxTree) (i : Nat) : Nat :=
  (List.range i).countP fun j => !(t.tokenKind j).isTrivia

def numbered (t : SyntaxTree) : Child → Child
  | .node n => .node n
  | .token i => .token (t.ordinal i)

def limb (t : SyntaxTree) (c : Child) : Kind × Child := (t.childKind c, t.numbered c)

def bone (t : SyntaxTree) (n : Nat) : Kind × Option Nat × List (Kind × Child) :=
  (t.kind n, t.parent? n, (t.children n).map t.limb)

def skeleton (t : SyntaxTree) : List (Kind × Option Nat × List (Kind × Child)) :=
  (List.range t.nodes.size).map t.bone

end SyntaxTree

namespace Forest

def limbs (node token : Nat) : Forest → List (Kind × Child)
  | nil => []
  | leaf l rest => (l.kind, .token token) :: rest.limbs node (token + 1)
  | .node k inner rest =>
      (k, .node node) :: rest.limbs (node + 1 + inner.nodeCount) (token + inner.leaves.length)

def bones (parent node token : Nat) : Forest → List (Kind × Option Nat × List (Kind × Child))
  | nil => []
  | leaf _ rest => rest.bones parent node (token + 1)
  | .node k inner rest =>
      (k, some parent, inner.limbs (node + 1) token) :: inner.bones node (node + 1) token ++
        rest.bones parent (node + 1 + inner.nodeCount) (token + inner.leaves.length)

theorem limbs_bare (node token : Nat) (f : Forest) : f.bare.limbs node token = f.limbs node token := by
  induction f generalizing node token with
  | nil => rfl
  | leaf l rest ih => simp [bare, limbs, ih, Leaf.bare]
  | node k inner rest _ hr => simp [bare, limbs, hr, nodeCount_bare, leaves_bare]

theorem bones_bare (parent node token : Nat) (f : Forest) :
    f.bare.bones parent node token = f.bones parent node token := by
  induction f generalizing parent node token with
  | nil => rfl
  | leaf l rest ih => simp [bare, bones, ih]
  | node k inner rest hi hr => simp [bare, bones, hi, hr, limbs_bare, nodeCount_bare, leaves_bare]

end Forest

namespace SyntaxTree

variable {t : SyntaxTree}

theorem ordinal_succ (i : Nat) :
    t.ordinal (i + 1) = t.ordinal i + if (t.tokenKind i).isTrivia then 0 else 1 := by
  simp only [ordinal, List.range_succ, List.countP_append, List.countP_singleton]
  cases (t.tokenKind i).isTrivia <;> rfl

theorem ordinal_trivia {start n : Nat}
    (trivia : ∀ i, start ≤ i → i < start + n → (t.tokenKind i).isTrivia = true) :
    t.ordinal (start + n) = t.ordinal start := by
  induction n with
  | zero => rfl
  | succ n ih =>
      have last := trivia (start + n) (by omega) (by omega)
      rw [← Nat.add_assoc, ordinal_succ, last, ih fun i above below => trivia i above (by omega)]
      rfl

theorem isTrivia_of_stretch {parent offset start : Nat} {pieces : List Piece}
    (h : Piece.layout parent offset pieces <+: t.tokens.toList.drop start) (i : Nat)
    (above : start ≤ i) (below : i < start + pieces.length) :
    (t.tokenKind i).isTrivia = true := by
  have mem : t.sizedToken i ∈ (List.range' start pieces.length).map t.sizedToken :=
    List.mem_map_of_mem (List.mem_range'_1.mpr ⟨above, below⟩)
  rw [sized_stretch h] at mem
  obtain ⟨piece, -, same⟩ := List.mem_map.mp mem
  have kind : piece.kind.kind = t.tokenKind i := congrArg Prod.fst same
  rw [← kind]
  exact piece.kind.kind_isTrivia

section Leaves

variable {l : Leaf} {parent offset start : Nat}
  (h : l.layout parent offset <+: t.tokens.toList.drop start)
include h

theorem ordinal_leaf : t.ordinal (start + l.leading.length) = t.ordinal start :=
  ordinal_trivia (isTrivia_of_stretch (prefix_drop_append h).1)

theorem tokenKind_leaf : t.tokenKind (start + l.leading.length) = l.kind := by
  rw [tokenKind, leaf_token h]

theorem ordinal_behind (own : l.kind.isTrivia = false) :
    t.ordinal (start + l.tokenCount) = t.ordinal start + 1 := by
  have behind := (prefix_drop_append h).2
  rw [Piece.layout_length] at behind
  have trailing := ordinal_trivia (isTrivia_of_stretch (prefix_drop_tail behind))
  rw [Leaf.tokenCount, ← Nat.add_assoc, ← Nat.add_assoc, trailing, ordinal_succ, ordinal_leaf h,
    tokenKind_leaf h, own]
  rfl

end Leaves

variable {parent : Nat} {p : Place}

theorem Embeds.ordinal_after {f : Forest} (h : t.Embeds parent p f)
    (own : ∀ l ∈ f.leaves, l.kind.isTrivia = false) :
    t.ordinal (p.token + f.tokenCount) = t.ordinal p.token + f.leaves.length := by
  induction f generalizing parent p with
  | nil => rfl
  | leaf l rest ih =>
      obtain ⟨here, behind⟩ := h.leaf
      have more := ih behind fun l mem => own l (List.mem_cons_of_mem _ mem)
      simp only [Place.afterLeaf, ordinal_behind here (own l List.mem_cons_self)] at more
      simp only [Forest.tokenCount, Forest.leaves, List.length_cons, ← Nat.add_assoc, more]
      omega
  | node k inner rest hi hr =>
      obtain ⟨_, within, behind⟩ := h.node
      have first := hi within fun l mem => own l (List.mem_append_left _ mem)
      have more := hr behind fun l mem => own l (List.mem_append_right _ mem)
      simp only [Place.after, Place.inside] at first more
      simp only [Forest.tokenCount, Forest.leaves, List.length_append, ← Nat.add_assoc, more, first]

theorem Embeds.limbs {f : Forest} (h : t.Embeds parent p f)
    (own : ∀ l ∈ f.leaves, l.kind.isTrivia = false) :
    (f.layout parent p).children.map t.limb = f.limbs p.node (t.ordinal p.token) := by
  induction f generalizing parent p with
  | nil => rfl
  | leaf l rest ih =>
      obtain ⟨here, behind⟩ := h.leaf
      have more := ih behind fun l mem => own l (List.mem_cons_of_mem _ mem)
      simp only [Place.afterLeaf, ordinal_behind here (own l List.mem_cons_self)] at more
      simp only [Forest.layout, List.map_cons, Forest.limbs, ← more, limb, childKind, numbered,
        tokenKind_leaf here, ordinal_leaf here, Place.afterLeaf]
  | node k inner rest _ hr =>
      obtain ⟨data, within, behind⟩ := h.node
      have first := within.ordinal_after fun l mem => own l (List.mem_append_left _ mem)
      have more := hr behind fun l mem => own l (List.mem_append_right _ mem)
      have kind : t.kind p.node = k := h.site.kind
      simp only [Place.after, Place.inside] at first more
      simp only [Forest.layout, List.map_cons, Forest.limbs, limb, childKind, numbered, kind]
      rw [← first]
      exact congrArg _ more

theorem Embeds.bones {f : Forest} (h : t.Embeds parent p f)
    (own : ∀ l ∈ f.leaves, l.kind.isTrivia = false) :
    (List.range' p.node f.nodeCount).map t.bone = f.bones parent p.node (t.ordinal p.token) := by
  induction f generalizing parent p with
  | nil => rfl
  | leaf l rest ih =>
      obtain ⟨here, behind⟩ := h.leaf
      have more := ih behind fun l mem => own l (List.mem_cons_of_mem _ mem)
      simp only [Place.afterLeaf, ordinal_behind here (own l List.mem_cons_self)] at more
      exact more
  | node k inner rest hi hr =>
      obtain ⟨data, within, behind⟩ := h.node
      have below : ∀ l ∈ inner.leaves, l.kind.isTrivia = false :=
        fun l mem => own l (List.mem_append_left _ mem)
      have first := within.ordinal_after below
      have inside := hi within below
      have more := hr behind fun l mem => own l (List.mem_append_right _ mem)
      have bone : t.bone p.node =
          (k, some parent, inner.limbs (p.node + 1) (t.ordinal p.token)) := by
        rw [SyntaxTree.bone, h.site.kind, h.site.children, within.limbs below, parent?, data]
        rfl
      simp only [Place.after, Place.inside] at first inside more
      rw [first] at more
      have split : List.range' p.node (1 + inner.nodeCount + rest.nodeCount) =
          p.node :: List.range' (p.node + 1) inner.nodeCount ++
            List.range' (p.node + 1 + inner.nodeCount) rest.nodeCount := by
        rw [Nat.add_assoc, Nat.add_comm, List.range'_succ, ← List.range'_append_1,
          List.cons_append]
      rw [Forest.nodeCount, split, List.map_append, List.map_cons, bone, inside, more, Forest.bones]

theorem skeleton_ofRoot (text : Text) (k : Kind) {f : Forest}
    (own : ∀ l ∈ f.leaves, l.kind.isTrivia = false) :
    (ofRoot text k f).skeleton = (k, none, f.limbs 1 0) :: f.bones 0 1 0 := by
  have within := ofRoot_embeds text k f
  have root := ofRoot_site text k f
  have limbs : (f.layout 0 ⟨1, 0, 0⟩).children.map (ofRoot text k f).limb = f.limbs 1 0 :=
    within.limbs own
  have bone : (ofRoot text k f).bone 0 = (k, none, f.limbs 1 0) := by
    have kind : (ofRoot text k f).kind 0 = k := root.kind
    rw [← limbs, SyntaxTree.bone, kind, parent?, SyntaxTree.children, ofRoot_node_zero]
    rfl
  have bones : (List.range' 1 f.nodeCount).map (ofRoot text k f).bone = f.bones 0 1 0 :=
    within.bones own
  rw [skeleton, ofRoot_nodes_size, List.range_eq_range', Nat.add_comm, List.range'_succ,
    List.map_cons, bone, bones]

theorem skeleton_congr {text text' : Text} {k : Kind} {f f' : Forest} (same : f.bare = f'.bare)
    (own : ∀ l ∈ f.leaves, l.kind.isTrivia = false)
    (own' : ∀ l ∈ f'.leaves, l.kind.isTrivia = false) :
    (ofRoot text k f).skeleton = (ofRoot text' k f').skeleton := by
  rw [skeleton_ofRoot text k own, skeleton_ofRoot text' k own', ← Forest.limbs_bare,
    ← Forest.bones_bare, same, Forest.limbs_bare, Forest.bones_bare]

end SyntaxTree

end LosslessTree
