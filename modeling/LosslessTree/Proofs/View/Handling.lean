import LosslessTree.Proofs.View.Queries
import LosslessTree.View.Handlers

set_option autoImplicit false

namespace LosslessTree

namespace Kind

theorem handled_contains (k : Kind) : handled.contains k = View.isWrapped k := by
  cases k <;> decide

theorem fallback?_eq_some_iff {k : Kind} {c : Category} :
    k.fallback? = some c ↔ c.members.contains k = true := by
  constructor
  · exact contains_of_fallback?
  · cases c <;> cases k <;> decide

theorem not_member_error (c : Category) : c.members.contains .error = false := by
  cases c <;> decide

end Kind

theorem Forest.Sorted.isNode {f inner : Forest} {k : Kind} (sorted : f.Sorted) (has : f.HasNode k inner) :
    k.isNode = true := by
  induction f with
  | nil => cases has
  | leaf l rest ih => exact ih sorted.2 has
  | node k' inner' rest hi hr =>
      rcases has with ⟨rfl, -⟩ | within | behind
      · exact sorted.1
      · exact hi sorted.2.1 within
      · exact hr sorted.2.2 behind

theorem SyntaxTree.ofRoot_kind_isNode {text : Text} {k : Kind} {f : Forest} (isNode : k.isNode = true)
    (sorted : f.Sorted) {n : Nat} (lies : n < (ofRoot text k f).nodes.size) :
    ((ofRoot text k f).kind n).isNode = true := by
  have all : (Forest.node k f .nil).Sorted := ⟨isNode, sorted, trivial⟩
  obtain ⟨around, q, k', within, rfl, site, has⟩ := ofRoot_exists_site lies
  rw [site.kind]
  exact all.isNode has

namespace Handlers

inductive Call (t : SyntaxTree) where
  | node (n : Nat)
  | category (c : Category) (x : Typed t (.category c))
  | production (k : Kind) (x : Typed t (.production k))
  deriving DecidableEq

variable {t : SyntaxTree} {σ : Type}

def Call.handed : Call t → Nat
  | node n => n
  | category _ x | production _ x => x.node

def perform (hs : Handlers t σ) : Call t → σ → σ
  | .node n => hs.onNode n
  | .category c x => ((hs.onCategory c).map fun handle => handle x).getD id
  | .production k x => ((hs.onProduction k).map fun handle => handle x).getD id

/-- The call that is to be made for a node: that of its production if there is one, else that of its
category if there is one, else that of every node. The handler of every node is also the only one of the
nodes around problems. -/
inductive Due (hs : Handlers t σ) : Call t → Prop where
  | production {k : Kind} {x : Typed t (.production k)} (sound : k ≠ .error)
      (given : (hs.onProduction k).isSome = true) : hs.Due (.production k x)
  | category {c : Category} {x : Typed t (.category c)}
      (lacks : hs.onProduction (t.kind x.node) = none) (given : (hs.onCategory c).isSome = true) :
      hs.Due (.category c x)
  | node {n : Nat} (lacks : hs.onProduction (t.kind n) = none)
      (lacks' : ∀ c, c.members.contains (t.kind n) = true → hs.onCategory c = none) : hs.Due (.node n)
  | problem {n : Nat} (around : t.kind n = .error) : hs.Due (.node n)

variable {hs : Handlers t σ}

theorem kind_of_production {k : Kind} (x : Typed t (.production k)) : t.kind x.node = k := by
  have own : k = t.kind x.node := by simpa [View.accepts] using x.accepted
  exact own.symm

theorem category_eq {c c' : Category} (x : Typed t (.category c))
    (member : c'.members.contains (t.kind x.node) = true) : c' = c := by
  have own := (Category.ofKind?_eq_some_iff _ _).mpr x.accepted
  have other := (Category.ofKind?_eq_some_iff _ _).mpr member
  exact Option.some.inj (other.symm.trans own)

theorem onProduction_ne_none {k : Kind} (x : Typed t (.production k))
    (given : (hs.onProduction k).isSome = true) {n : Nat} (same : n = x.node) :
    hs.onProduction (t.kind n) ≠ none := by
  rw [same, kind_of_production]
  exact Option.isSome_iff_ne_none.mp given

theorem Due.eq_node {n : Nat} {call : Call t} (due : hs.Due (.node n)) (due' : hs.Due call)
    (same : call.handed = n) : call = .node n := by
  subst same
  cases due' with
  | @production k x sound given =>
      cases due with
      | node lacks => exact absurd lacks (onProduction_ne_none x given rfl)
      | problem around => exact absurd ((kind_of_production x).symm.trans around) sound
  | @category c x lacks given =>
      have member : c.members.contains (t.kind x.node) = true := x.accepted
      cases due with
      | node _ lacks' =>
          have none := lacks' c member
          simp [none] at given
      | problem around =>
          rw [show t.kind x.node = .error from around, Kind.not_member_error] at member
          cases member
  | node | problem => rfl

theorem Due.unique {call other : Call t} (due : hs.Due call) (due' : hs.Due other)
    (same : other.handed = call.handed) : other = call := by
  have own := due
  have own' := due'
  -- Calls of the handler of every node are settled. Of the rest a production goes before a category.
  cases due with
  | node | problem => exact own.eq_node due' same
  | @production k x sound given =>
      cases due' with
      | node | problem => exact (own'.eq_node own same.symm).symm
      | @production k' x' =>
          have kinds : k' = k := by
            rw [← kind_of_production x, ← kind_of_production x']
            exact congrArg t.kind same
          subst kinds
          rw [Typed.eq_of_node same]
      | @category c x' lacks => exact absurd lacks (onProduction_ne_none x given same)
  | @category c x lacks given =>
      cases due' with
      | node | problem => exact (own'.eq_node own same.symm).symm
      | @production k x' sound given' => exact absurd lacks (onProduction_ne_none x' given' same.symm)
      | @category c' x' =>
          have kinds : t.kind x'.node = t.kind x.node := congrArg t.kind same
          obtain rfl := category_eq x (kinds ▸ x'.accepted)
          rw [Typed.eq_of_node same]

theorem handleCategory_due {c : Category} (x : Typed t (.category c))
    (lacks : hs.onProduction (t.kind x.node) = none) :
    ∃ call : Call t, call.handed = x.node ∧ hs.Due call ∧
      hs.handleCategory c x = hs.perform call := by
  cases given : hs.onCategory c with
  | some handle =>
      refine ⟨.category c x, rfl, .category lacks (by simp [given]), ?_⟩
      simp [handleCategory, perform, given]
  | none =>
      have lacks' : ∀ c', c'.members.contains (t.kind x.node) = true → hs.onCategory c' = none := by
        intro c' member
        rw [category_eq x member, given]
      refine ⟨.node x.node, rfl, .node lacks lacks', ?_⟩
      simp [handleCategory, perform, given]

theorem handleProduction_due {k : Kind} (x : Typed t (.production k)) (sound : k ≠ .error) :
    ∃ call : Call t, call.handed = x.node ∧ hs.Due call ∧
      hs.handleProduction k x = hs.perform call := by
  cases given : hs.onProduction k with
  | some handle =>
      refine ⟨.production k x, rfl, .production sound (by simp [given]), ?_⟩
      simp [handleProduction, perform, given]
  | none =>
      have lacks : hs.onProduction (t.kind x.node) = none := by rw [kind_of_production, given]
      -- A production is left to the only category that has it, or to none if there is none.
      simp only [handleProduction, given]
      split
      · next c left => exact handleCategory_due (x.toCategory left) lacks
      · next none =>
          refine ⟨.node x.node, rfl, .node lacks fun c member => ?_, rfl⟩
          rw [kind_of_production, ← Kind.fallback?_eq_some_iff, none] at member
          cases member

theorem exists_due (hs : Handlers t σ) {n : Nat} (isNode : (t.kind n).isNode = true) :
    ∃ call : Call t, call.handed = n ∧ hs.Due call ∧ hs.dispatch n = hs.perform call := by
  unfold dispatch
  by_cases problem : t.kind n = .error
  · have apart : ¬ Kind.handled.contains (t.kind n) = true := by
      simp [Kind.handled_contains, View.isWrapped, problem]
    rw [if_neg apart]
    exact ⟨.node n, rfl, .problem problem, rfl⟩
  · have handled : Kind.handled.contains (t.kind n) = true := by
      simp [Kind.handled_contains, View.isWrapped, isNode, problem]
    rw [if_pos handled]
    exact handleProduction_due ⟨n, by simp [View.accepts]⟩ problem

theorem exists_calls (hs : Handlers t σ) {nodes : List Nat}
    (isNode : ∀ n ∈ nodes, (t.kind n).isNode = true) :
    ∃ calls : List (Call t), calls.map Call.handed = nodes ∧ (∀ call ∈ calls, hs.Due call) ∧
      ∀ s, nodes.foldl (fun s n => hs.dispatch n s) s =
        calls.foldl (fun s call => hs.perform call s) s := by
  induction nodes with
  | nil => exact ⟨[], rfl, by simp, fun s => rfl⟩
  | cons n nodes ih =>
      obtain ⟨call, handed, due, made⟩ := exists_due hs (isNode n List.mem_cons_self)
      obtain ⟨calls, handed', due', made'⟩ := ih fun m mem => isNode m (List.mem_cons_of_mem _ mem)
      refine ⟨call :: calls, by simp [handed, handed'], ?_, fun s => ?_⟩
      · simpa [due] using due'
      · rw [List.foldl_cons, List.foldl_cons, made, made']

theorem walk_eq_foldl (n : Nat) (s : σ) :
    hs.walk n s =
      ((t.walk .nodes n).filterMap WalkEvent.entered?).foldl (fun s m => hs.dispatch m s) s := by
  rw [walk]
  generalize t.walk .nodes n = events
  induction events generalizing s with
  | nil => rfl
  | cons event events ih => cases event <;> exact ih _

/-- A walk through a node of a built tree makes one call for each node of the subtree, in pre-order. The
call is handed the node, and it is the only one that is due for the node. -/
theorem walk_calls {text : Text} {events : List TreeEvent} (built : Assembly.run text events = .ok t)
    (hs : Handlers t σ) {n : Nat} (lies : n < t.nodes.size) :
    t.Enumerates [n] (n :: t.descendants n) ∧ (n :: t.descendants n).Nodup ∧
      ∃ calls : List (Call t), calls.map Call.handed = n :: t.descendants n ∧
        (∀ call ∈ calls, hs.Due call ∧
          ∀ other : Call t, hs.Due other → other.handed = call.handed → other = call) ∧
        ∀ s, hs.walk n s = calls.foldl (fun s call => hs.perform call s) s := by
  obtain ⟨k, f, rfl, rfl, isNode, sorted, -, -⟩ := Assembly.root_of_run built
  have root := SyntaxTree.ofRoot_rooted text k f
  rw [SyntaxTree.ofRoot_nodes_size] at lies
  have entered := SyntaxTree.ofRoot_entered text k f lies (Nat.le_refl _)
  obtain ⟨around, p, k', inner, rfl, site, fits⟩ := root.exists_site lies
  -- The subtree is a stretch of the nodes, so it has each once, and only kinds of nodes.
  have ascending : (p.node :: (SyntaxTree.ofRoot text k f).descendants p.node) =
      List.range' p.node (1 + inner.nodeCount) := by
    rw [site.descendants, Nat.add_comm 1, List.range'_succ]
  have inside : ∀ m ∈ p.node :: (SyntaxTree.ofRoot text k f).descendants p.node,
      ((SyntaxTree.ofRoot text k f).kind m).isNode = true := by
    intro m mem
    apply SyntaxTree.ofRoot_kind_isNode isNode sorted
    rw [ascending, List.mem_range'_1] at mem
    rw [SyntaxTree.ofRoot_nodes_size]
    omega
  have order := (root.enumerates_descendants lies).cons .nil
  rw [List.append_nil] at order
  have once : (p.node :: (SyntaxTree.ofRoot text k f).descendants p.node).Nodup := by
    rw [ascending]
    exact List.nodup_range'
  obtain ⟨calls, handed, due, made⟩ := exists_calls hs inside
  refine ⟨order, once, calls, handed, fun call mem => ?_, fun s => ?_⟩
  · exact ⟨due call mem, fun other => (due call mem).unique⟩
  · rw [walk_eq_foldl, SyntaxTree.walk, entered, made]

-- A pattern inside another one, with its name and a node around a problem. The handler of
-- identifiers goes before that of patterns, and a handler of problems is not called.
theorem walk_calls_pattern :
    let text := ['(', 'a', ')']
    let events := [.openNode .tuplePat, .token ⟨[], .leftParen, 1, []⟩, .openNode .identPat, .openNode .name,
      .token ⟨[], .ident, 1, []⟩, .closeNode, .closeNode, .openNode .error, .closeNode,
      .token ⟨[], .rightParen, 1, []⟩, .closeNode]
    let t := SyntaxTree.ofRoot text .tuplePat
      (.leaf ⟨[], .leftParen, 1, []⟩
        (.node .identPat (.node .name (.leaf ⟨[], .ident, 1, []⟩ .nil) .nil)
          (.node .error .nil (.leaf ⟨[], .rightParen, 1, []⟩ .nil))))
    let hs : Handlers t (List (String × Nat)) :=
      { onNode := fun n log => log ++ [("node", n)]
        onCategory := fun c => if c = .pat then some fun x log => log ++ [("pattern", x.node)] else none
        onProduction := fun k =>
          if k = .identPat then some fun x log => log ++ [("identifier", x.node)]
          else if k = .error then some fun x log => log ++ [("problem", x.node)] else none }
    Assembly.run text events = .ok t ∧
      (∃ calls : List (Call t), calls.map Call.handed = [0, 1, 2, 3] ∧ (∀ call ∈ calls, hs.Due call) ∧
        hs.walk 0 [] = calls.foldl (fun s call => hs.perform call s) []) ∧
      hs.walk 0 [] = [("pattern", 0), ("identifier", 1), ("node", 2), ("node", 3)] := by
  intro text events t hs
  have built : Assembly.run text events = .ok t := rfl
  obtain ⟨-, -, calls, handed, due, made⟩ := walk_calls built hs (n := 0) (by decide)
  have subtree : 0 :: t.descendants 0 = [0, 1, 2, 3] := by decide
  refine ⟨built, ⟨calls, handed.trans subtree, fun call mem => (due call mem).1, made []⟩, ?_⟩
  decide +kernel

end Handlers

end LosslessTree
