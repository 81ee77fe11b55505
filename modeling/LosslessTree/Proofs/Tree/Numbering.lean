import LosslessTree.Proofs.Tree.Arenas
import LosslessTree.Proofs.Tree.Resolving

set_option autoImplicit false

namespace LosslessTree

def TreeEvent.opened? : TreeEvent → Option Kind
  | openNode kind => some kind
  | _ => none

/-- The nodes that are open at each token, those of trivia included, innermost first. The next node to
be opened has the number `next`. -/
def TreeEvent.enclosing : Nat → List Nat → List TreeEvent → List (List Nat)
  | _, _, [] => []
  | next, opened, .openNode _ :: events => enclosing (next + 1) (next :: opened) events
  | next, opened, .token l :: events =>
      List.replicate l.tokenCount opened ++ enclosing next opened events
  | next, opened, .closeNode :: events => enclosing next opened.tail events

/-- The second list goes through the nodes of the first one, below each of them before the next. -/
inductive SyntaxTree.Enumerates (t : SyntaxTree) : List Nat → List Nat → Prop where
  | nil : t.Enumerates [] []
  | cons {n : Nat} {nodes below behind : List Nat} (inside : t.Enumerates (t.childNodes n) below)
      (rest : t.Enumerates nodes behind) : t.Enumerates (n :: nodes) (n :: (below ++ behind))

theorem SyntaxTree.Enumerates.unique {t : SyntaxTree} {nodes below below' : List Nat}
    (h : t.Enumerates nodes below) (h' : t.Enumerates nodes below') : below = below' := by
  induction h generalizing below' with
  | nil =>
      cases h'
      rfl
  | cons _ _ hi hr =>
      cases h' with
      | cons inside rest => rw [hi inside, hr rest]

def Stretch.Apart (s s' : Stretch) : Prop := ∀ i, i ∈ s → i ∉ s'

theorem Stretch.Apart.of_stop_le {s s' : Stretch} (h : s.stop ≤ s'.start) : s.Apart s' := by
  intro i mem mem'
  rw [mem_iff] at mem mem'
  omega

theorem Stretch.Apart.of_le_start {s s' : Stretch} (h : s'.stop ≤ s.start) : s.Apart s' :=
  fun i mem mem' => of_stop_le h i mem' mem

namespace Forest

def heads : Nat → Forest → List Nat
  | _, nil => []
  | next, leaf _ rest => rest.heads next
  | next, node _ inner rest => next :: rest.heads (next + 1 + inner.nodeCount)

theorem heads_bounds {f : Forest} {next : Nat} :
    ∀ n ∈ f.heads next, next ≤ n ∧ n < next + f.nodeCount := by
  induction f generalizing next with
  | nil => simp [heads]
  | leaf l rest ih => exact ih
  | node k inner rest _ hr =>
      intro n mem
      simp only [nodeCount]
      rcases List.mem_cons.mp mem with rfl | mem
      · omega
      · have := hr n mem
        omega

theorem heads_ascending {f : Forest} {next : Nat} : (f.heads next).Pairwise (· < ·) := by
  induction f generalizing next with
  | nil => exact .nil
  | leaf l rest ih => exact ih
  | node k inner rest _ hr =>
      refine .cons (fun n mem => ?_) hr
      have := heads_bounds n mem
      omega

theorem layout_heads {f : Forest} {parent : Nat} {p : Place} :
    ((f.layout parent p).children.filterMap fun | .node m => some m | .token _ => none) =
      f.heads p.node := by
  induction f generalizing parent p with
  | nil => rfl
  | leaf l rest ih => exact ih
  | node k inner rest _ hr => exact congrArg (p.node :: ·) hr

theorem filling_kinds {f : Forest} {parent slot : Nat} {p : Place} :
    (f.filling parent p slot).nodes.map ArenaNode.kind = f.events.filterMap TreeEvent.opened? := by
  induction f generalizing parent p slot with
  | nil => rfl
  | leaf l rest ih => exact ih
  | node k inner rest hi hr =>
      simp only [filling, events, List.map_cons, List.map_append, List.cons_append, hi, hr,
        List.filterMap_append, List.filterMap_cons, TreeEvent.opened?]

theorem filling_children_within {f : Forest} {parent slot : Nat} {p : Place} :
    ∀ x ∈ (f.filling parent p slot).nodes, slot ≤ x.children.start ∧
      x.children.stop ≤ slot + (f.filling parent p slot).slots.length := by
  induction f generalizing parent p slot with
  | nil => simp [filling]
  | leaf l rest ih => exact ih
  | node k inner rest hi hr =>
      intro x mem
      simp only [filling, List.length_append]
      rcases List.mem_append.mp mem with mem | mem
      · rcases List.mem_cons.mp mem with rfl | mem
        · simp only
          omega
        · have := hi x mem
          omega
      · have := hr x mem
        omega

theorem filling_children_apart {f : Forest} {parent slot : Nat} {p : Place} :
    (f.filling parent p slot).nodes.Pairwise fun x y => x.children.Apart y.children := by
  induction f generalizing parent p slot with
  | nil => exact .nil
  | leaf l rest ih => exact ih
  | node k inner rest hi hr =>
      refine List.pairwise_append.mpr ⟨.cons (fun y below => ?_) hi, hr, fun x mem y behind => ?_⟩
      · exact .of_le_start (filling_children_within y below).2
      · have after := (filling_children_within y behind).1
        refine .of_stop_le (Nat.le_trans ?_ after)
        rcases List.mem_cons.mp mem with rfl | below
        · exact Nat.le_refl _
        · exact Nat.le_add_right_of_le (filling_children_within x below).2

end Forest

namespace SyntaxTree

variable {t : SyntaxTree} {parent : Nat} {p : Place} {f : Forest}

theorem Site.childNodes_heads {around : Option Nat} {k : Kind} (site : t.Site around p k f) :
    t.childNodes p.node = f.heads (p.node + 1) := by
  rw [SyntaxTree.childNodes, site.children]
  exact Forest.layout_heads

theorem Embeds.parent_of_heads (h : t.Embeds parent p f) :
    ∀ n ∈ f.heads p.node, t.parent? n = some parent := by
  induction f generalizing p with
  | nil => simp [Forest.heads]
  | leaf l rest ih => exact ih (p := p.afterLeaf l) h.leaf.2
  | node k inner rest _ hr =>
      obtain ⟨data, -, behind⟩ := h.node
      intro n mem
      rcases List.mem_cons.mp mem with rfl | mem
      · rw [parent?, data]
        rfl
      · exact hr behind n mem

theorem Embeds.enumerates (h : t.Embeds parent p f) :
    t.Enumerates (f.heads p.node) (List.range' p.node f.nodeCount) := by
  induction f generalizing parent p with
  | nil => exact .nil
  | leaf l rest ih => exact ih (p := p.afterLeaf l) h.leaf.2
  | node k inner rest hi hr =>
      obtain ⟨-, within, behind⟩ := h.node
      have below : t.Enumerates (t.childNodes p.node) _ := h.site.childNodes_heads ▸ hi within
      have row : List.range' p.node (Forest.node k inner rest).nodeCount =
          p.node :: (List.range' (p.node + 1) inner.nodeCount ++
            List.range' (p.node + 1 + inner.nodeCount) rest.nodeCount) := by
        rw [Forest.nodeCount, Nat.add_assoc, Nat.add_comm 1, List.range'_succ]
        simp
      rw [row]
      exact .cons below (hr behind)

theorem Embeds.exists_inside (h : t.Embeds parent p f) {n : Nat} (first : p.node ≤ n)
    (last : n < p.node + f.nodeCount) :
    ∃ around q k inner, q.node = n ∧ t.Site around q k inner ∧
      n + 1 + inner.nodeCount ≤ p.node + f.nodeCount ∧ p.token ≤ q.token ∧
        q.token + inner.tokenCount ≤ p.token + f.tokenCount := by
  induction f generalizing parent p with
  | nil => exact absurd last (by simpa [Forest.nodeCount] using first)
  | leaf l rest ih =>
      obtain ⟨around, q, k, inner, at_, site, nodes, low, high⟩ :=
        ih (p := p.afterLeaf l) h.leaf.2 first last
      simp only [Place.afterLeaf] at nodes low high
      exact ⟨around, q, k, inner, at_, site, nodes, by omega, by simp only [Forest.tokenCount]; omega⟩
  | node k inner rest hi hr =>
      obtain ⟨-, within, behind⟩ := h.node
      simp only [Forest.nodeCount, Forest.tokenCount] at last ⊢
      by_cases here : p.node = n
      · exact ⟨some parent, p, k, inner, here, h.site, by omega, by omega, by omega⟩
      by_cases below : n < p.node + 1 + inner.nodeCount
      · obtain ⟨around, q, k', inner', at_, site, nodes, low, high⟩ :=
          hi within (by change p.node + 1 ≤ n; omega) below
        simp only [Place.inside] at nodes low high
        exact ⟨around, q, k', inner', at_, site, by omega, by omega, by omega⟩
      · obtain ⟨around, q, k', inner', at_, site, nodes, low, high⟩ :=
          hr behind (by simp only [Place.after, Place.inside]; omega)
            (by simp only [Place.after, Place.inside]; omega)
        simp only [Place.after, Place.inside] at nodes low high
        exact ⟨around, q, k', inner', at_, site, by omega, by omega, by omega⟩

theorem Embeds.listed (h : t.Embeds parent p f) {n : Nat} (first : p.node ≤ n)
    (last : n < p.node + f.nodeCount) :
    n ∈ f.heads p.node ∨ ∃ q < n, t.parent? n = some q ∧ n ∈ t.childNodes q ∧
      n ∈ t.descendants q ∧ t.tokensOf n ⊆ t.tokensOf q := by
  induction f generalizing parent p with
  | nil => exact absurd last (by simpa [Forest.nodeCount] using first)
  | leaf l rest ih => exact ih (p := p.afterLeaf l) h.leaf.2 first last
  | node k inner rest hi hr =>
      obtain ⟨-, within, behind⟩ := h.node
      simp only [Forest.nodeCount] at last
      by_cases here : n = p.node
      · exact .inl (here ▸ List.mem_cons_self)
      by_cases below : n < p.node + 1 + inner.nodeCount
      · have next : p.inside.node ≤ n := by
          change p.node + 1 ≤ n
          omega
        right
        rcases hi within next below with head | deeper
        · refine ⟨p.node, by omega, within.parent_of_heads n head, ?_, ?_, ?_⟩
          · rw [h.site.childNodes_heads]
            exact head
          · exact h.site.mem_descendants.mpr ⟨next, below⟩
          · obtain ⟨around, q, k', inner', rfl, site, -, low, high⟩ := within.exists_inside next below
            simp only [Place.inside] at low high
            intro i mem
            rw [site.tokensOf, List.mem_range'_1] at mem
            rw [h.site.tokensOf, List.mem_range'_1]
            omega
        · exact deeper
      · rcases hr behind (by simp only [Place.after, Place.inside]; omega)
          (by simp only [Place.after, Place.inside]; omega) with head | deeper
        · exact .inl (List.mem_cons_of_mem _ head)
        · exact .inr deeper

theorem Embeds.leaf_parents {l : Leaf} {rest : Forest} (h : t.Embeds parent p (.leaf l rest)) :
    (List.range' p.token l.tokenCount).map (fun i => (t.token i).parent) =
      List.replicate l.tokenCount parent := by
  have read := map_getD_of_prefix_drop default h.leaf.1
  rw [Leaf.layout_length] at read
  have own : (List.range' p.token l.tokenCount).map (fun i => (t.token i).parent) =
      (l.layout parent p.offset).map TokenData.parent := by
    rw [← read, List.map_map]
    exact List.map_congr_left fun i _ => congrArg TokenData.parent (token_eq_getD i)
  rw [own, List.eq_replicate_iff]
  refine ⟨by rw [List.length_map, Leaf.layout_length], fun n mem => ?_⟩
  obtain ⟨d, there, rfl⟩ := List.mem_map.mp mem
  exact Leaf.layout_parent d there

theorem Embeds.token_listed (h : t.Embeds parent p f) {i : Nat} (first : p.token ≤ i)
    (last : i < p.token + f.tokenCount) :
    (t.token i).parent = parent ∨ i ∈ t.tokensOf (t.token i).parent := by
  induction f generalizing parent p with
  | nil => exact absurd last (by simpa [Forest.tokenCount] using first)
  | leaf l rest ih =>
      by_cases own : i < p.token + l.tokenCount
      · left
        have mem : (t.token i).parent ∈ List.replicate l.tokenCount parent :=
          h.leaf_parents ▸ List.mem_map_of_mem (List.mem_range'_1.mpr ⟨first, own⟩)
        exact List.eq_of_mem_replicate mem
      · simp only [Forest.tokenCount] at last
        exact ih (p := p.afterLeaf l) h.leaf.2 (by simp only [Place.afterLeaf]; omega)
          (by simp only [Place.afterLeaf]; omega)
  | node k inner rest hi hr =>
      obtain ⟨-, within, behind⟩ := h.node
      simp only [Forest.tokenCount] at last
      by_cases below : i < p.token + inner.tokenCount
      · right
        rcases hi within first below with own | deeper
        · rw [own, h.site.tokensOf, List.mem_range'_1]
          exact ⟨first, below⟩
        · exact deeper
      · exact hr behind (by simp only [Place.after, Place.inside]; omega)
          (by simp only [Place.after, Place.inside]; omega)

theorem Embeds.enclosing (h : t.Embeds parent p f) (outer : parent < p.node)
    (events : List TreeEvent) :
    TreeEvent.enclosing p.node (t.ancestors parent) (f.events ++ events) =
      (List.range' p.token f.tokenCount).map (fun i => t.ancestors (t.token i).parent) ++
        TreeEvent.enclosing (p.node + f.nodeCount) (t.ancestors parent) events := by
  induction f generalizing parent p events with
  | nil => rfl
  | leaf l rest ih =>
      have own : (List.range' p.token l.tokenCount).map (fun i => t.ancestors (t.token i).parent) =
          List.replicate l.tokenCount (t.ancestors parent) := by
        rw [← List.map_replicate, ← h.leaf_parents, List.map_map]
        rfl
      rw [Forest.events, Forest.tokenCount, ← List.range'_append_1, List.map_append, own,
        List.cons_append, TreeEvent.enclosing, List.append_assoc]
      exact congrArg _ (ih (p := p.afterLeaf l) h.leaf.2 outer events)
  | node k inner rest hi hr =>
      obtain ⟨data, within, behind⟩ := h.node
      have around : t.ancestors p.node = p.node :: t.ancestors parent :=
        ancestors_of_parent (congrArg NodeData.parent data) outer
      have inside := hi within (Nat.lt_succ_self p.node) (.closeNode :: rest.events ++ events)
      have after := hr behind (by simp only [Place.after, Place.inside]; omega) events
      rw [Forest.events, List.cons_append, List.cons_append, List.append_assoc, TreeEvent.enclosing,
        ← around]
      refine inside.trans ?_
      rw [List.cons_append, TreeEvent.enclosing, around, List.tail_cons]
      simp only [Place.after, Place.inside] at after ⊢
      rw [after, Forest.tokenCount, ← List.range'_append_1, List.map_append, List.append_assoc,
        Forest.nodeCount]
      simp only [Nat.add_assoc]

section Root

variable {k : Kind} (root : t.Rooted k f)
include root

theorem Rooted.exists_site {n : Nat} (lies : n < 1 + f.nodeCount) :
    ∃ around q k' inner, q.node = n ∧ t.Site around q k' inner ∧
      n + 1 + inner.nodeCount ≤ 1 + f.nodeCount := by
  by_cases top : n = 0
  · exact ⟨none, ⟨0, 0, 0⟩, k, f, top.symm, root.site, by omega⟩
  · obtain ⟨around, q, k', inner, at_, site, size, -, -⟩ :=
      root.site.within.exists_inside (n := n) (Nat.pos_of_ne_zero top) lies
    exact ⟨around, q, k', inner, at_, site, size⟩

theorem Rooted.listed {n : Nat} (lies : n < 1 + f.nodeCount) (below : n ≠ 0) :
    ∃ q < n, t.parent? n = some q ∧ n ∈ t.childNodes q ∧ n ∈ t.descendants q ∧
      t.tokensOf n ⊆ t.tokensOf q := by
  have first : 1 ≤ n := Nat.pos_of_ne_zero below
  rcases root.site.within.listed first lies with head | deeper
  · obtain ⟨around, q, k', inner, rfl, site, -⟩ := root.exists_site lies
    refine ⟨0, first, root.site.within.parent_of_heads _ head, ?_, ?_, root.tokensOf_subset site⟩
    · rw [root.site.childNodes_heads]
      exact head
    · exact root.site.mem_descendants.mpr ⟨first, lies⟩
  · exact deeper

theorem Rooted.parent_zero : t.parent? 0 = none := congrArg NodeData.parent root.site.data

theorem Rooted.mem_descendants {n m : Nat} (lies : n < 1 + f.nodeCount) (below : m < 1 + f.nodeCount) :
    m ∈ t.descendants n ↔ n ∈ (t.ancestors m).tail := by
  obtain ⟨around, q, k', inner, rfl, site, -⟩ := root.exists_site lies
  constructor
  · intro mem
    obtain ⟨inside, chain, -⟩ := site.ancestors_below (.inr mem)
    have apart := (site.mem_descendants.mp mem).1
    obtain ⟨outer, own⟩ := ancestors_cons t m
    obtain ⟨outer', around⟩ := ancestors_cons t q.node
    cases inside with
    | nil =>
        have same : m :: outer = q.node :: outer' := by rw [← own, ← around, chain, List.nil_append]
        have := (List.cons.inj same).1
        omega
    | cons m' inside =>
        rw [chain, List.cons_append, List.tail_cons, around]
        simp
  -- outwards from the node, whose parent has all that is below the node below it
  · intro mem
    induction m using Nat.strong_induction_on with
    | _ m ih =>
        by_cases top : m = 0
        · rw [top, root.ancestors_zero] at mem
          cases mem
        obtain ⟨o, less, own, -, under, -⟩ := root.listed below top
        rw [ancestors_of_parent own less, List.tail_cons] at mem
        obtain ⟨outer, chain⟩ := ancestors_cons t o
        rw [chain] at mem
        rcases List.mem_cons.mp mem with here | mem
        · rwa [here]
        have above := ih o less (by omega) (by rwa [chain])
        obtain ⟨first, last⟩ := site.mem_descendants.mp above
        obtain ⟨around', q', k'', inner', rfl, site', size, -, -⟩ :=
          site.within.exists_inside (n := o) first last
        have within := site'.mem_descendants.mp under
        rw [site.mem_descendants]
        simp only [Place.inside] at size
        omega

theorem Rooted.tokensOf_ancestors {n m : Nat} (lies : m < 1 + f.nodeCount) (mem : n ∈ t.ancestors m) :
    t.tokensOf m ⊆ t.tokensOf n := by
  induction m using Nat.strong_induction_on with
  | _ m ih =>
      by_cases top : m = 0
      · rw [top, root.ancestors_zero, List.mem_singleton] at mem
        rw [top, mem]
        exact fun _ => id
      obtain ⟨q, less, own, -, -, tokens⟩ := root.listed lies top
      rw [ancestors_of_parent own less] at mem
      rcases List.mem_cons.mp mem with rfl | mem
      · exact fun _ => id
      · exact fun i there => ih q less (by omega) mem (tokens there)

theorem Rooted.getLast_ancestors {n : Nat} (lies : n < 1 + f.nodeCount) :
    (t.ancestors n).getLast? = some 0 := by
  induction n using Nat.strong_induction_on with
  | _ n ih =>
      by_cases top : n = 0
      · rw [top, root.ancestors_zero]
        rfl
      · obtain ⟨q, less, around, -⟩ := root.listed lies top
        obtain ⟨outer, chain⟩ := ancestors_cons t q
        rw [ancestors_of_parent around less, chain, List.getLast?_cons_cons, ← chain]
        exact ih q less (by omega)

theorem Rooted.count_childNodes {n m : Nat} (lies : n < 1 + f.nodeCount) (below : m < 1 + f.nodeCount) :
    (t.childNodes n).count m = if t.parent? m = some n then 1 else 0 := by
  obtain ⟨around, q, k', inner, rfl, site, -⟩ := root.exists_site lies
  rw [site.childNodes_heads]
  have once : (inner.heads (q.node + 1)).Nodup :=
    Forest.heads_ascending.imp fun less => Nat.ne_of_lt less
  split
  · next own =>
      rw [List.count_eq_one_of_mem once]
      by_cases top : m = 0
      · rw [top, root.parent_zero] at own
        cases own
      · obtain ⟨q', -, own', listed, -⟩ := root.listed below top
        obtain rfl : q.node = q' := by simpa [own] using own'
        rwa [← site.childNodes_heads]
  · next other => exact List.count_eq_zero.mpr fun mem => other (site.within.parent_of_heads m mem)

theorem Rooted.enumerates : t.Enumerates [0] (List.range (1 + f.nodeCount)) := by
  have below : t.Enumerates (t.childNodes 0) (List.range' 1 f.nodeCount) :=
    root.site.childNodes_heads ▸ root.site.within.enumerates
  have row : List.range (1 + f.nodeCount) = 0 :: (List.range' 1 f.nodeCount ++ []) := by
    rw [List.append_nil, Nat.add_comm, List.range_eq_range', List.range'_succ]
  rw [row]
  exact .cons below .nil

theorem Rooted.enumerates_descendants {n : Nat} (lies : n < 1 + f.nodeCount) :
    t.Enumerates (t.childNodes n) (t.descendants n) := by
  obtain ⟨around, q, k', inner, rfl, site, -⟩ := root.exists_site lies
  rw [site.childNodes_heads, site.descendants]
  exact site.within.enumerates

theorem Rooted.lt_of_among {n m : Nat} (lies : n < 1 + f.nodeCount) (among : m = n ∨ m ∈ t.descendants n) :
    m < 1 + f.nodeCount := by
  obtain ⟨around, q, k', inner, rfl, site, fits⟩ := root.exists_site lies
  rcases among with rfl | below
  · exact lies
  · have last := (site.mem_descendants.mp below).2
    omega

theorem Rooted.parent_lt {i : Nat} (there : i ∈ t.tokensOf 0) : (t.token i).parent < 1 + f.nodeCount :=
  root.lt_of_among (Nat.lt_add_right _ Nat.one_pos) (root.site.token_parent there)

theorem Rooted.mem_tokensOf {n i : Nat} (lies : n < 1 + f.nodeCount) (there : i < f.tokenCount) :
    i ∈ t.tokensOf n ↔ n ∈ t.ancestors (t.token i).parent := by
  constructor
  · intro mem
    obtain ⟨around, q, k', inner, rfl, site, -⟩ := root.exists_site lies
    obtain ⟨inside, chain, -⟩ := site.ancestors_below (site.token_parent mem)
    rw [chain]
    exact List.mem_append_right _ (mem_ancestors_self t q.node)
  · intro mem
    have own : i ∈ t.tokensOf (t.token i).parent := by
      rcases root.site.within.token_listed (Nat.zero_le i)
          (there.trans_eq (Nat.zero_add _).symm) with top | own
      · rw [top]
        exact root.mem_tokensOf_zero.mpr there
      · exact own
    exact root.tokensOf_ancestors (root.parent_lt (root.mem_tokensOf_zero.mpr there)) mem own

theorem Rooted.enclosing :
    TreeEvent.enclosing 0 [] (.openNode k :: f.events ++ [.closeNode]) =
      (List.range f.tokenCount).map fun i => t.ancestors (t.token i).parent := by
  have inside := root.site.within.enclosing (Nat.lt_succ_self 0) [.closeNode]
  rw [root.ancestors_zero] at inside
  rw [List.cons_append, TreeEvent.enclosing, List.range_eq_range']
  exact inside.trans (List.append_nil _)

end Root

end SyntaxTree

/-- The lists of an arena agree on the tree that the events opened, added to and closed. -/
structure Arena.Consistent (a : Arena) (events : List TreeEvent) : Prop where
  -- Nodes have numbers in the order in which they were opened.
  opened : a.nodes.map ArenaNode.kind = events.filterMap TreeEvent.opened?
  preorder : a.tree.Enumerates [0] (List.range a.nodes.length)
  -- The first node is the only one without a parent.
  parents : ∀ n < a.nodes.length,
    if n = 0 then a.tree.parent? n = none else ∃ q < n, a.tree.parent? n = some q
  -- A node is a child once, of its parent.
  listed : ∀ n < a.nodes.length, ∀ m < a.nodes.length,
    (a.tree.childNodes n).count m = if a.tree.parent? m = some n then 1 else 0
  apart : a.nodes.Pairwise fun x y => x.children.Apart y.children
  descendants : ∀ n < a.nodes.length, a.tree.Enumerates (a.tree.childNodes n) (a.tree.descendants n)
  below : ∀ n < a.nodes.length, ∀ m < a.nodes.length,
    m ∈ a.tree.descendants n ↔ n ∈ (a.tree.ancestors m).tail
  rooted : ∀ n < a.nodes.length, (a.tree.ancestors n).getLast? = some 0
  tokens : a.tree.tokens.size = (TreeEvent.enclosing 0 [] events).length
  -- A token is one of the nodes that were open when it was added, and its parent was the innermost
  -- of them.
  enclosed : ∀ i opened, (TreeEvent.enclosing 0 [] events)[i]? = some opened →
    opened.head? = some (a.tree.token i).parent ∧
      ∀ n < a.nodes.length, i ∈ a.tree.tokensOf n ↔ n ∈ opened

theorem Arena.ofRoot_consistent (text : Text) (k : Kind) (f : Forest) :
    (ofRoot text k f).Consistent (.openNode k :: f.events ++ [.closeNode]) := by
  have root := SyntaxTree.ofRoot_rooted text k f
  have size : (ofRoot text k f).nodes.length = 1 + f.nodeCount := by
    rw [ofRoot, List.length_cons, Forest.filling_nodes_length, Nat.add_comm]
  constructor
  case opened =>
    simp only [ofRoot, List.map_cons, Forest.filling_kinds, List.cons_append, List.filterMap_cons,
      TreeEvent.opened?, List.filterMap_append, List.filterMap_nil, List.append_nil]
  case apart =>
    refine .cons (fun y below => .of_le_start ?_) Forest.filling_children_apart
    simpa using (Forest.filling_children_within y below).2
  all_goals simp only [ofRoot_tree, size]
  case preorder => exact root.enumerates
  case parents =>
    intro n lies
    split
    · next top => exact top ▸ root.parent_zero
    · next below =>
        obtain ⟨q, less, own, -⟩ := root.listed lies below
        exact ⟨q, less, own⟩
  case listed => exact fun n lies m below => root.count_childNodes lies below
  case descendants => exact fun n lies => root.enumerates_descendants lies
  case below => exact fun n lies m below => root.mem_descendants lies below
  case rooted => exact fun n lies => root.getLast_ancestors lies
  case tokens => rw [root.enclosing, List.length_map, List.length_range, root.size]
  case enclosed =>
    intro i opened there
    rw [root.enclosing, List.getElem?_map, Option.map_eq_some_iff] at there
    obtain ⟨j, at_, rfl⟩ := there
    obtain ⟨less, rfl⟩ := List.getElem?_eq_some_iff.mp at_
    rw [List.getElem_range] at *
    rw [List.length_range] at less
    obtain ⟨outer, chain⟩ := SyntaxTree.ancestors_cons (.ofRoot text k f)
      ((SyntaxTree.ofRoot text k f).token i).parent
    refine ⟨by rw [chain]; rfl, fun n lies => root.mem_tokensOf lies less⟩

/-- An arena is filled by the events that a tree is built from, keeps the tree, and its lists agree. -/
theorem ArenaBuilder.run_consistent {text : Text} {events : List TreeEvent} {t : SyntaxTree}
    (built : Assembly.run text events = .ok t) :
    ∃ a, run text events = .ok a ∧ a.tree = t ∧ a.Consistent events := by
  obtain ⟨k, f, rfl, rfl, isNode, sorted, fits, numbered⟩ := Assembly.root_of_run built
  exact ⟨.ofRoot text k f, run_root isNode sorted fits numbered, Arena.ofRoot_tree text k f,
    Arena.ofRoot_consistent text k f⟩

-- A node with trivia before its token, a node without tokens and a token behind them.
theorem ArenaBuilder.run_consistent_nested :
    let text := [' ', 'x', ';']
    let name : Leaf := ⟨[⟨.whitespace, 1⟩], .ident, 1, []⟩
    let semicolon : Leaf := ⟨[], .semicolon, 1, []⟩
    let events := [.openNode .exprStmt, .openNode .path, .openNode .nameRef, .token name, .closeNode,
      .closeNode, .openNode .error, .closeNode, .token semicolon, .closeNode]
    let t := SyntaxTree.ofRoot text .exprStmt
      (.node .path (.node .nameRef (.leaf name .nil) .nil) (.node .error .nil (.leaf semicolon .nil)))
    Assembly.run text events = .ok t ∧
      ∃ a, run text events = .ok a ∧ a.tree = t ∧ a.Consistent events := by
  intro text name semicolon events t
  have accepted : Assembly.run text events = .ok t := rfl
  exact ⟨accepted, run_consistent accepted⟩

end LosslessTree
