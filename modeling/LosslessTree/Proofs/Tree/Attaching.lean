import LosslessTree.Proofs.Tree.Abutting
import Mathlib.Data.List.Pairwise

set_option autoImplicit false

namespace LosslessTree

-- The tokens of a leaf in order: for a piece of trivia what it is a piece of, for the token itself
-- nothing.
def Leaf.roles (l : Leaf) : List (Option TriviaKind) :=
  l.leading.map (some ·.kind) ++ none :: l.trailing.map (some ·.kind)

def TreeEvent.roles : TreeEvent → List (Option TriviaKind)
  | token l => l.roles
  | _ => []

theorem Leaf.roles_length (l : Leaf) : l.roles.length = l.tokenCount := by
  simp only [roles, List.length_append, List.length_map, List.length_cons, tokenCount]
  omega

namespace Forest

def roles (f : Forest) : List (Option TriviaKind) := f.leaves.flatMap Leaf.roles

theorem roles_leaf (l : Leaf) (rest : Forest) : (leaf l rest).roles = l.roles ++ rest.roles := rfl

theorem roles_node (k : Kind) (inner rest : Forest) :
    (node k inner rest).roles = inner.roles ++ rest.roles := List.flatMap_append

theorem roles_length (f : Forest) : f.roles.length = f.tokenCount := by
  induction f with
  | nil => rfl
  | leaf l rest ih => rw [roles_leaf, List.length_append, Leaf.roles_length, ih, tokenCount]
  | node k inner rest hi hr => rw [roles_node, List.length_append, hi, hr, tokenCount]

theorem roles_events (f : Forest) : f.events.flatMap TreeEvent.roles = f.roles := by
  induction f with
  | nil => rfl
  | leaf l rest ih => rw [events, List.flatMap_cons, ih, TreeEvent.roles, roles_leaf]
  | node k inner rest hi hr =>
      rw [events, List.flatMap_append, List.flatMap_cons, List.flatMap_cons, hi, hr, roles_node]
      rfl

end Forest

namespace SyntaxTree

def triviaOn (t : SyntaxTree) : Side → Nat → List Nat
  | .leading, i => t.leadingTrivia i
  | .trailing, i => t.trailingTrivia i

def HangsOn (t : SyntaxTree) (i : Nat) (side : Side) (j : Nat) : Prop :=
  (∃ n, .token j ∈ t.children n) ∧ i ∈ t.triviaOn side j

def tokensUnder (t : SyntaxTree) : Child → List Nat
  | .node n => t.tokensOf n
  | .token i => t.leadingTrivia i ++ i :: t.trailingTrivia i

variable {t : SyntaxTree}

theorem mem_tokensUnder_self (i : Nat) : i ∈ t.tokensUnder (.token i) := by
  simp [tokensUnder]

theorem mem_tokensUnder_of_triviaOn {i j : Nat} {side : Side} (among : i ∈ t.triviaOn side j) :
    i ∈ t.tokensUnder (.token j) := by
  rw [tokensUnder, List.mem_append, List.mem_cons]
  cases side with
  | leading => exact .inl among
  | trailing => exact .inr (.inr among)

section Leaf

variable {parent offset start : Nat} {l : Leaf}

theorem kind_of_stretch {pieces : List Piece} {i : Nat} {piece : Piece}
    (h : Piece.layout parent offset pieces <+: t.tokens.toList.drop start)
    (there : pieces[i]? = some piece) : t.tokenKind (start + i) = piece.kind.kind := by
  have sized := congrArg (·[i]?) (sized_stretch h)
  have less := (List.getElem?_eq_some_iff.mp there).1
  simp only [List.getElem?_map, there, List.getElem?_range' less, Option.map_some, Option.some_inj,
    Nat.one_mul] at sized
  exact congrArg Prod.fst sized

variable (h : l.layout parent offset <+: t.tokens.toList.drop start)
include h

theorem leaf_tokensUnder :
    t.tokensUnder (.token (start + l.leading.length)) = List.range' start l.tokenCount := by
  have count : l.tokenCount = l.leading.length + (l.trailing.length + 1) := by
    rw [Leaf.tokenCount]
    omega
  rw [tokensUnder, leadingTrivia, trailingTrivia, leaf_token h, Nat.add_sub_cancel, count,
    ← List.range'_append_1, ← List.range'_succ]

theorem leaf_roles {i : Nat} {role : Option TriviaKind} (there : l.roles[i]? = some role) :
    match role with
    | none => start + i = start + l.leading.length
    | some kind => t.tokenKind (start + i) = kind.kind ∧
        ∃ side, start + i ∈ t.triviaOn side (start + l.leading.length) := by
  rw [Leaf.roles, List.getElem?_append, List.length_map] at there
  split at there
  · next front =>
      rw [List.getElem?_map, Option.map_eq_some_iff] at there
      obtain ⟨piece, found, rfl⟩ := there
      refine ⟨kind_of_stretch (prefix_drop_append h).1 found, .leading, ?_⟩
      rw [triviaOn, leadingTrivia, leaf_token h, Nat.add_sub_cancel, List.mem_range'_1]
      simp only
      omega
  · cases at_ : i - l.leading.length with
    | zero =>
        rw [at_, List.getElem?_cons_zero, Option.some_inj] at there
        subst there
        simp only
        omega
    | succ k =>
        rw [at_, List.getElem?_cons_succ, List.getElem?_map, Option.map_eq_some_iff] at there
        obtain ⟨piece, found, rfl⟩ := there
        have own := (prefix_drop_append h).2
        rw [Piece.layout_length] at own
        have less := (List.getElem?_eq_some_iff.mp found).1
        have index : start + i = start + l.leading.length + 1 + k := by omega
        rw [index]
        refine ⟨kind_of_stretch (prefix_drop_tail own) found, .trailing, ?_⟩
        rw [triviaOn, trailingTrivia, leaf_token h, List.mem_range'_1]
        simp only
        omega

end Leaf

/-- What a token of a node is, by what it was added as: a piece of trivia has that kind and is attached to
a child of its parent, and any other token is such a child. -/
def Plays (t : SyntaxTree) (i : Nat) : Option TriviaKind → Prop
  | none => .token i ∈ t.children (t.token i).parent
  | some kind => t.tokenKind i = kind.kind ∧
      ∃ side j, .token j ∈ t.children (t.token i).parent ∧ i ∈ t.triviaOn side j

section Forests

variable {parent : Nat} {p : Place} {f : Forest}

theorem Embeds.parent_of_leaf {l : Leaf} {rest : Forest} (h : t.Embeds parent p (.leaf l rest)) {i : Nat}
    (mem : i ∈ List.range' p.token l.tokenCount) : (t.token i).parent = parent := by
  have among : (t.token i).parent ∈ List.replicate l.tokenCount parent :=
    h.leaf_parents ▸ List.mem_map_of_mem mem
  exact List.eq_of_mem_replicate among

theorem Embeds.plays (h : t.Embeds parent p f)
    (listed : (f.layout parent p).children ⊆ t.children parent) {i : Nat} {role : Option TriviaKind}
    (there : f.roles[i]? = some role) : t.Plays (p.token + i) role := by
  induction f generalizing parent p i with
  | nil => cases there
  | leaf l rest ih =>
      obtain ⟨own, behind⟩ := h.leaf
      obtain ⟨child, listed⟩ := List.cons_subset.mp listed
      rw [Forest.roles_leaf, List.getElem?_append, Leaf.roles_length] at there
      split at there
      · next inside =>
          have around : (t.token (p.token + i)).parent = parent :=
            h.parent_of_leaf (List.mem_range'_1.mpr ⟨by omega, by omega⟩)
          have found := leaf_roles own there
          cases role with
          | none =>
              rw [Plays, around, found]
              exact child
          | some kind =>
              obtain ⟨isKind, side, among⟩ := found
              rw [Plays, around]
              exact ⟨isKind, side, _, child, among⟩
      · have later := ih behind listed there
        have index : (p.afterLeaf l).token + (i - l.tokenCount) = p.token + i := by
          simp only [Place.afterLeaf]
          omega
        rwa [index] at later
  | node k inner rest hi hr =>
      obtain ⟨-, within, behind⟩ := h.node
      rw [Forest.roles_node, List.getElem?_append, Forest.roles_length] at there
      split at there
      · exact hi within (fun _ mem => h.site.children ▸ mem) there
      · have later := hr behind (List.cons_subset.mp listed).2 there
        have index : (p.inside.after inner).token + (i - inner.tokenCount) = p.token + i := by
          simp only [Place.inside, Place.after]
          omega
        rwa [index] at later

theorem Embeds.flatMap_tokensUnder (h : t.Embeds parent p f) :
    (f.layout parent p).children.flatMap t.tokensUnder = List.range' p.token f.tokenCount := by
  induction f generalizing parent p with
  | nil => rfl
  | leaf l rest ih =>
      obtain ⟨own, behind⟩ := h.leaf
      rw [Forest.layout, List.flatMap_cons, leaf_tokensUnder own, ih behind, Forest.tokenCount,
        ← List.range'_append_1]
      rfl
  | node k inner rest _ hr =>
      rw [Forest.layout, List.flatMap_cons, tokensUnder, h.site.tokensOf, hr h.node.2.2,
        Forest.tokenCount, ← List.range'_append_1]
      rfl

theorem Embeds.parent_of_tokensUnder (h : t.Embeds parent p f) {i j : Nat}
    (child : .token j ∈ (f.layout parent p).children) (under : i ∈ t.tokensUnder (.token j)) :
    (t.token i).parent = parent := by
  induction f generalizing p with
  | nil => cases child
  | leaf l rest ih =>
      rcases List.mem_cons.mp child with own | child
      · cases own
        rw [leaf_tokensUnder h.leaf.1] at under
        exact h.parent_of_leaf under
      · exact ih h.leaf.2 child
  | node k inner rest _ hr =>
      rcases List.mem_cons.mp child with own | child
      · cases own
      · exact hr h.node.2.2 child

end Forests

section Sites

variable {around : Option Nat} {p : Place} {k : Kind} {inner : Forest} (site : t.Site around p k inner)
include site

theorem Site.flatMap_tokensUnder : (t.children p.node).flatMap t.tokensUnder = t.tokensOf p.node := by
  rw [site.children, site.tokensOf]
  exact site.within.flatMap_tokensUnder

theorem Site.nodup_tokensUnder :
    (∀ c ∈ t.children p.node, (t.tokensUnder c).Nodup) ∧
      (t.children p.node).Pairwise (Function.onFun List.Disjoint t.tokensUnder) := by
  have nodup : ((t.children p.node).flatMap t.tokensUnder).Nodup := by
    rw [site.flatMap_tokensUnder, site.tokensOf]
    exact List.nodup_range'
  exact List.nodup_flatMap.mp nodup

theorem Site.child_unique {c c' : Child} {i : Nat} (mem : c ∈ t.children p.node)
    (mem' : c' ∈ t.children p.node) (under : i ∈ t.tokensUnder c) (under' : i ∈ t.tokensUnder c') :
    c = c' := by
  -- The tokens under two children would stand twice in the list of those of the node.
  by_contra differ
  have : Std.Symm (Function.onFun List.Disjoint t.tokensUnder) :=
    ⟨fun _ _ apart _ mem mem' => apart mem' mem⟩
  exact site.nodup_tokensUnder.2.forall mem mem' differ under under'

theorem Site.side_unique {i j : Nat} {side side' : Side} (child : .token j ∈ t.children p.node)
    (among : i ∈ t.triviaOn side j) (among' : i ∈ t.triviaOn side' j) : side = side' ∧ i ≠ j := by
  have nodup := site.nodup_tokensUnder.1 _ child
  rw [tokensUnder, List.nodup_append, List.nodup_cons] at nodup
  obtain ⟨-, ⟨own, -⟩, apart⟩ := nodup
  cases side with
  | leading =>
      refine ⟨?_, apart i among j List.mem_cons_self⟩
      cases side' with
      | leading => rfl
      | trailing => exact absurd rfl (apart i among i (List.mem_cons_of_mem _ among'))
  | trailing =>
      refine ⟨?_, fun same => own (same ▸ among)⟩
      cases side' with
      | leading => exact absurd rfl (apart i among' i (List.mem_cons_of_mem _ among))
      | trailing => rfl

end Sites

/-- A token that was added as a piece of trivia is no child, and is attached to one child, on one side.
Any other token is a child of its parent, and is attached to none. -/
def Placed (t : SyntaxTree) (i : Nat) : Option TriviaKind → Prop
  | none => .token i ∈ t.children (t.token i).parent ∧ ∀ side j, ¬ t.HangsOn i side j
  | some kind => t.tokenKind i = kind.kind ∧ (∀ n, .token i ∉ t.children n) ∧
      ∃ side j, t.HangsOn i side j ∧ .token j ∈ t.children (t.token i).parent ∧
        ∀ side' j', t.HangsOn i side' j' → side' = side ∧ j' = j

theorem lt_size_of_mem_children {n : Nat} {c : Child} (child : c ∈ t.children n) : n < t.nodes.size := by
  by_contra past
  rw [children, node_of_size_le (Nat.le_of_not_lt past)] at child
  cases child

section Root

variable {k : Kind} {f : Forest} (root : t.Rooted k f) (size : t.nodes.size = 1 + f.nodeCount)
include root size

theorem Rooted.under_unique {i j j' n n' : Nat} (child : .token j ∈ t.children n)
    (child' : .token j' ∈ t.children n') (under : i ∈ t.tokensUnder (.token j))
    (under' : i ∈ t.tokensUnder (.token j')) : n = n' ∧ j = j' := by
  obtain ⟨around, p, k', inner, rfl, site, -⟩ := root.exists_site (size ▸ lt_size_of_mem_children child)
  obtain ⟨around', p', k'', inner', rfl, site', -⟩ :=
    root.exists_site (size ▸ lt_size_of_mem_children child')
  have own : (t.token i).parent = p.node :=
    site.within.parent_of_tokensUnder (site.children ▸ child) under
  have own' : (t.token i).parent = p'.node :=
    site'.within.parent_of_tokensUnder (site'.children ▸ child') under'
  -- The parent of the token tells the node, and in it no two children share a token.
  have same := own.symm.trans own'
  refine ⟨same, ?_⟩
  have equal := site.child_unique child (same ▸ child') under under'
  cases equal
  rfl

theorem Rooted.apart_of_triviaOn {i j n : Nat} {side side' : Side} (child : .token j ∈ t.children n)
    (among : i ∈ t.triviaOn side j) (among' : i ∈ t.triviaOn side' j) : side = side' ∧ i ≠ j := by
  obtain ⟨around, p, k', inner, rfl, site, -⟩ := root.exists_site (size ▸ lt_size_of_mem_children child)
  exact site.side_unique child among among'

theorem Rooted.placed {i : Nat} {role : Option TriviaKind} (there : f.roles[i]? = some role) :
    t.Placed i role := by
  have plays := root.site.within.plays (fun _ mem => root.site.children ▸ mem) there
  rw [Place.inside, Nat.zero_add] at plays
  cases role with
  | none =>
      refine ⟨plays, fun side j => ?_⟩
      rintro ⟨⟨n, child⟩, among⟩
      obtain ⟨-, same⟩ := root.under_unique size plays child (mem_tokensUnder_self i)
        (mem_tokensUnder_of_triviaOn among)
      exact (root.apart_of_triviaOn size child among among).2 same
  | some kind =>
      obtain ⟨isKind, side, j, child, among⟩ := plays
      have under := mem_tokensUnder_of_triviaOn among
      refine ⟨isKind, fun n own => ?_, side, j, ⟨⟨_, child⟩, among⟩, child, ?_⟩
      · obtain ⟨-, same⟩ := root.under_unique size own child (mem_tokensUnder_self i) under
        exact (root.apart_of_triviaOn size child among among).2 same
      · rintro side' j' ⟨⟨n', child'⟩, among'⟩
        obtain ⟨-, rfl⟩ := root.under_unique size child' child (mem_tokensUnder_of_triviaOn among') under
        exact ⟨(root.apart_of_triviaOn size child' among' among).1, rfl⟩

end Root

/-- In a built tree the children of a node, tokens with the trivia attached to them, lie end to end where
the node does. Each token that was added as a piece of trivia is attached to one of them, on one side, and
no other token is. -/
theorem children_abut {text : Text} {events : List TreeEvent}
    (built : Assembly.run text events = .ok t) :
    (∀ n < t.nodes.size, t.Abuts n) ∧
      t.tokens.size = (events.flatMap TreeEvent.roles).length ∧
      (∀ i role, (events.flatMap TreeEvent.roles)[i]? = some role → t.Placed i role) ∧
      ∃ a, ArenaBuilder.run text events = .ok a ∧ a.tree = t := by
  obtain ⟨a, filled, kept, -⟩ := ArenaBuilder.run_consistent built
  obtain ⟨k, f, rfl, rfl, -, -, fits, -⟩ := Assembly.root_of_run built
  have roles : (TreeEvent.openNode k :: f.events ++ [TreeEvent.closeNode]).flatMap TreeEvent.roles =
      f.roles := by
    change (Forest.node k f .nil).events.flatMap TreeEvent.roles = f.roles
    rw [Forest.roles_events, Forest.roles_node]
    exact List.append_nil _
  rw [roles]
  have start : text.isBoundary 0 = true := (Text.isBoundary_iff _ _).mpr ⟨[], text, rfl, rfl⟩
  refine ⟨fun n lies => ofRoot_abuts ⟨start, _, fits⟩ lies, ?_, fun i role there => ?_, a, filled, kept⟩
  · rw [ofRoot_tokens_size, Forest.roles_length]
  · exact (ofRoot_rooted text k f).placed (ofRoot_nodes_size text k f) there

-- Trivia on both sides of a token, an empty token with trivia before it and a node without tokens.
theorem children_abut_mixed :
    let text := [' ', 'a', ' ', '\n', ';', ' ']
    let name : Leaf := ⟨[⟨.whitespace, 1⟩], .ident, 1, [⟨.whitespace, 1⟩]⟩
    let empty : Leaf := ⟨[⟨.newline, 1⟩], .unknown, 0, []⟩
    let semicolon : Leaf := ⟨[], .semicolon, 1, [⟨.whitespace, 1⟩]⟩
    let events := [.openNode .exprStmt, .openNode .path, .token name, .closeNode, .openNode .error,
      .closeNode, .token empty, .token semicolon, .closeNode]
    let t := SyntaxTree.ofRoot text .exprStmt
      (.node .path (.leaf name .nil) (.node .error .nil (.leaf empty (.leaf semicolon .nil))))
    Assembly.run text events = .ok t ∧ t.children 0 = [.node 1, .node 2, .token 4, .token 5] ∧
      (t.children 0).map t.childSpan = [⟨0, 3⟩, ⟨3, 3⟩, ⟨3, 4⟩, ⟨4, 6⟩] ∧
      (∀ n < t.nodes.size, t.Abuts n) ∧
      events.flatMap TreeEvent.roles =
        [some .whitespace, none, some .whitespace, some .newline, none, none, some .whitespace] ∧
      t.Placed 3 (some .newline) ∧ t.Placed 4 none ∧
      ∃ a, ArenaBuilder.run text events = .ok a ∧ a.tree = t := by
  intro text name empty semicolon events t
  have built : Assembly.run text events = .ok t := rfl
  obtain ⟨abuts, -, placed, kept⟩ := children_abut built
  exact ⟨built, rfl, rfl, abuts, rfl, placed 3 _ rfl, placed 4 _ rfl, kept⟩

end SyntaxTree

end LosslessTree
