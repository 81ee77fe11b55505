import LosslessTree.Proofs.Tree.Numbering
import LosslessTree.Proofs.Tree.RoundTrip

set_option autoImplicit false

namespace LosslessTree

def WalkEvent.isNode : WalkEvent → Bool
  | token _ => false
  | _ => true

theorem WalkEvent.filter_around (n : Nat) (inner rest : List WalkEvent) :
    (enter n :: inner ++ leave n :: rest).filter isNode =
      enter n :: inner.filter isNode ++ leave n :: rest.filter isNode := by
  rw [List.filter_append, List.filter_cons_of_pos rfl, List.filter_cons_of_pos rfl]

-- Each node that is entered is left, and what is entered in between is left in between.
inductive WalkEvent.Nested : List WalkEvent → Prop where
  | nil : Nested []
  | token {events : List WalkEvent} (i : Nat) (rest : Nested events) : Nested (.token i :: events)
  | node {inner events : List WalkEvent} (n : Nat) (within : Nested inner) (rest : Nested events) :
      Nested (.enter n :: inner ++ .leave n :: events)

-- The events of a walk through a row of children. A node is not left twice.
inductive SyntaxTree.Tours (t : SyntaxTree) (scope : WalkScope) : List Child → List WalkEvent → Prop where
  | nil : t.Tours scope [] []
  | token {i : Nat} {children : List Child} {events : List WalkEvent}
      (rest : t.Tours scope children events) : t.Tours scope (.token i :: children) (.token i :: events)
  | node {n : Nat} {children : List Child} {inner events : List WalkEvent}
      (within : t.Tours scope (Walk.childrenIn t scope n) inner) (once : .leave n ∉ inner)
      (rest : t.Tours scope children events) :
      t.Tours scope (.node n :: children) (.enter n :: inner ++ .leave n :: events)

namespace SyntaxTree

variable {t : SyntaxTree} {children : List Child} {events : List WalkEvent}

theorem Tours.nested {scope : WalkScope} (tour : t.Tours scope children events) :
    WalkEvent.Nested events := by
  induction tour with
  | nil => exact .nil
  | token _ ih => exact .token _ ih
  | node _ _ _ within rest => exact .node _ within rest

theorem Tours.nodes (tour : t.Tours .nodesAndTokens children events) :
    t.Tours .nodes ((children.filterMap fun | .node m => some m | .token _ => none).map Child.node)
      (events.filter WalkEvent.isNode) := by
  induction tour with
  | nil => exact .nil
  | token _ ih => exact ih
  | @node n children inner events _ once _ within rest =>
      rw [WalkEvent.filter_around]
      exact .node within (fun mem => once (List.mem_filter.mp mem).1) rest

end SyntaxTree

theorem Forest.count_walk {m : Nat} {e : WalkEvent} (own : e = .enter m ∨ e = .leave m) (p : Place)
    (f : Forest) :
    (f.walk p).count e = if p.node ≤ m ∧ m < p.node + f.nodeCount then 1 else 0 := by
  induction f generalizing p with
  | nil =>
      rw [walk, List.count_nil, nodeCount, if_neg (by omega)]
  | leaf l rest ih =>
      have token : WalkEvent.token (p.token + l.leading.length) ≠ e := by
        rcases own with rfl | rfl <;> simp
      rw [walk, List.count_cons_of_ne token, ih, nodeCount]
      rfl
  | node k inner rest hi hr =>
      have here : (walk p (.node k inner rest)).count e =
          (inner.walk p.inside).count e + (rest.walk (p.inside.after inner)).count e +
            if p.node = m then 1 else 0 := by
        rcases own with rfl | rfl <;> simp [walk, List.count_cons, Nat.add_assoc]
      -- The numbers from the node on are its own, those inside it and those behind it.
      have parts (start below behind : Nat) :
          ((if start + 1 ≤ m ∧ m < start + 1 + below then 1 else 0) +
              (if start + 1 + below ≤ m ∧ m < start + 1 + below + behind then 1 else 0) +
              if start = m then 1 else 0) =
            if start ≤ m ∧ m < start + (1 + below + behind) then 1 else 0 := by
        repeat' split
        all_goals omega
      rw [here, hi, hr]
      exact parts p.node inner.nodeCount rest.nodeCount

theorem Forest.leave_notMem (p : Place) (f : Forest) : .leave p.node ∉ f.walk p.inside := by
  rw [← List.count_eq_zero, count_walk (.inr rfl), if_neg]
  simp only [Place.inside]
  omega

namespace SyntaxTree

variable {t : SyntaxTree} {parent : Nat} {p : Place}

theorem Embeds.tours {f : Forest} (h : t.Embeds parent p f) :
    t.Tours .nodesAndTokens (f.layout parent p).children (f.walk p) := by
  induction f generalizing parent p with
  | nil => exact .nil
  | leaf l rest ih => exact .token (ih h.leaf.2)
  | node k inner rest hi hr =>
      obtain ⟨-, within, behind⟩ := h.node
      have below : Walk.childrenIn t .nodesAndTokens p.node = _ := h.site.children
      exact .node (below ▸ hi within) (inner.leave_notMem p) (hr behind)

theorem Site.tours {around : Option Nat} {k : Kind} {inner : Forest} (site : t.Site around p k inner) :
    t.Tours .nodesAndTokens (Walk.childrenIn t .nodesAndTokens p.node) (inner.walk p.inside) := by
  have below : Walk.childrenIn t .nodesAndTokens p.node = _ := site.children
  rw [below]
  exact site.within.tours

end SyntaxTree

end LosslessTree
