import LosslessTree.Proofs.Tree.History
import LosslessTree.Proofs.Tree.Site
import LosslessTree.Tree.Walk

set_option autoImplicit false

namespace LosslessTree

-- What an event shows: kinds of nodes, and tokens and trivia as kinds with lengths.
inductive Sight where
  | enter (kind : Kind)
  | leave (kind : Kind)
  | token (leading : List (Kind × Nat)) (own : Kind × Nat) (trailing : List (Kind × Nat))
  deriving DecidableEq, Repr

def Leaf.sight (l : Leaf) : Sight :=
  .token (l.leading.map Piece.sized) (l.kind, l.length) (l.trailing.map Piece.sized)

/-- What a list of events shows inside nodes of the given kinds, innermost first. Closing shows the
kind of the node that it closes. -/
def Sight.ofEvents : List Kind → List TreeEvent → List Sight
  | _, [] => []
  | around, .openNode k :: events => .enter k :: ofEvents (k :: around) events
  | around, .token l :: events => l.sight :: ofEvents around events
  | k :: around, .closeNode :: events => .leave k :: ofEvents around events
  | [], .closeNode :: _ => []

def SyntaxTree.sight (t : SyntaxTree) : WalkEvent → Sight
  | .enter n => .enter (t.kind n)
  | .leave n => .leave (t.kind n)
  | .token i =>
      .token ((t.leadingTrivia i).map t.sizedToken) (t.sizedToken i)
        ((t.trailingTrivia i).map t.sizedToken)

namespace Forest

def sights : Forest → List Sight
  | nil => []
  | leaf l rest => l.sight :: sights rest
  | node k inner rest => .enter k :: sights inner ++ .leave k :: sights rest

def walk (p : Place) : Forest → List WalkEvent
  | nil => []
  | leaf l rest => .token (p.token + l.leading.length) :: rest.walk (p.afterLeaf l)
  | node _ inner rest =>
      .enter p.node :: inner.walk p.inside ++ .leave p.node :: rest.walk (p.inside.after inner)

theorem ofEvents_events (around : List Kind) (f : Forest) (more : List TreeEvent) :
    Sight.ofEvents around (f.events ++ more) = f.sights ++ Sight.ofEvents around more := by
  induction f generalizing around more with
  | nil => rfl
  | leaf l rest ih => simp [events, sights, Sight.ofEvents, ih]
  | node k inner rest hi hr => simp [events, sights, Sight.ofEvents, hi, hr]

theorem length_walk (p : Place) (f : Forest) : (f.walk p).length = f.events.length := by
  induction f generalizing p with
  | nil => rfl
  | leaf l rest ih => simp [walk, events, ih]
  | node k inner rest hi hr => simp [walk, events, hi, hr]

theorem length_events_le (f : Forest) : f.events.length ≤ 2 * f.nodeCount + f.tokenCount := by
  induction f with
  | nil => simp [events]
  | leaf l rest ih =>
      simp only [events, List.length_cons, nodeCount, tokenCount, Leaf.tokenCount]
      omega
  | node k inner rest hi hr =>
      simp only [events, List.length_append, List.length_cons, nodeCount, tokenCount]
      omega

end Forest

namespace SyntaxTree

variable {t : SyntaxTree}

theorem Embeds.sight_walk {parent : Nat} {p : Place} {f : Forest} (h : t.Embeds parent p f) :
    (f.walk p).map t.sight = f.sights := by
  induction f generalizing parent p with
  | nil => rfl
  | leaf l rest ih =>
      obtain ⟨own, behind⟩ := h.leaf
      have token : t.sight (.token (p.token + l.leading.length)) = l.sight := by
        rw [sight, leaf_leadingTrivia own, leaf_trailingTrivia own]
        simp [sizedToken, tokenKind, tokenSpan, leaf_token own, Leaf.sight, Span.length]
      rw [Forest.walk, List.map_cons, token, ih behind, Forest.sights]
  | node k inner rest hi hr =>
      obtain ⟨own, within, behind⟩ := h.node
      have kind : t.kind p.node = k := by rw [kind, own]; rfl
      simp only [Forest.walk, List.map_append, List.map_cons, hi within, hr behind,
        Forest.sights, sight, kind]

theorem Embeds.take_walk {parent : Nat} {p : Place} {f : Forest} (h : t.Embeds parent p f)
    (k n : Nat) (later : List Child) (outer : List (Nat × List Child)) :
    Walk.take t .nodesAndTokens ((f.walk p).length + k)
        ⟨none, (n, (f.layout parent p).children ++ later) :: outer⟩ =
      f.walk p ++ Walk.take t .nodesAndTokens k ⟨none, (n, later) :: outer⟩ := by
  induction f generalizing parent p k n later outer with
  | nil => simp [Forest.walk, Forest.layout]
  | leaf l rest ih =>
      have more := ih h.leaf.2 k n later outer
      simp only [Forest.walk, Forest.layout, List.length_cons, List.cons_append]
      rw [Nat.add_right_comm, Walk.take]
      simp only [Walk.next, more]
  | node kind inner rest hi hr =>
      obtain ⟨own, within, behind⟩ := h.node
      have below : Walk.childrenIn t .nodesAndTokens p.node =
          (inner.layout p.node p.inside).children := by
        simp only [Walk.childrenIn, children, own]
        rfl
      have later' := hr behind k n later outer
      have inside := hi within ((rest.walk (p.inside.after inner)).length + k + 1) p.node []
        ((n, (rest.layout parent (p.inside.after inner)).children ++ later) :: outer)
      have steps : (Forest.walk p (.node kind inner rest)).length + k =
          (inner.walk p.inside).length + ((rest.walk (p.inside.after inner)).length + k + 1) + 1 := by
        simp only [Forest.walk, List.length_append, List.length_cons]
        omega
      rw [steps, Walk.take]
      simp only [Forest.layout, List.cons_append, Walk.next, below]
      rw [List.append_nil] at inside
      rw [inside, Walk.take]
      simp only [Walk.next, later', Forest.walk, List.append_assoc, List.cons_append]

theorem Site.take_walk {around : Option Nat} {p : Place} {k : Kind} {inner : Forest}
    (h : t.Site around p k inner) (more : Nat) :
    Walk.take t .nodesAndTokens (inner.events.length + 2 + more) (Walk.start p.node) =
      .enter p.node :: inner.walk p.inside ++ [.leave p.node] := by
  have through := h.within.take_walk (more + 1) p.node [] []
  have children : Walk.childrenIn t .nodesAndTokens p.node =
      (inner.layout p.node p.inside).children := h.children
  have steps : inner.events.length + 2 + more = (inner.walk p.inside).length + (more + 1) + 1 := by
    rw [Forest.length_walk]
    omega
  rw [List.append_nil] at through
  rw [steps, Walk.take]
  simp only [Walk.start, Walk.next, Option.map_some, children, through]
  cases more <;> simp [Walk.take, Walk.next]

end SyntaxTree

/-- The walk through an assembled tree shows what the events showed that it was assembled from, and
then ends. -/
theorem sight_walk_of_run {text : Text} {events : List TreeEvent} {t : SyntaxTree}
    (accepted : Assembly.run text events = .ok t) :
    (t.walk .nodesAndTokens 0).map t.sight = Sight.ofEvents [] events ∧
      ∀ bound, events.length ≤ bound →
        Walk.take t .nodesAndTokens bound (Walk.start 0) = t.walk .nodesAndTokens 0 := by
  obtain ⟨kind, inner, rfl, -, rfl⟩ := Assembly.run_eq_ok accepted
  have whole (bound : Nat) (enough : inner.events.length + 2 ≤ bound) :
      Walk.take (SyntaxTree.ofRoot text kind inner) .nodesAndTokens bound (Walk.start 0) =
        .enter 0 :: inner.walk ⟨1, 0, 0⟩ ++ [.leave 0] := by
    obtain ⟨k, rfl⟩ := Nat.exists_eq_add_of_le enough
    exact (SyntaxTree.ofRoot_site text kind inner).take_walk k
  have walked := whole (SyntaxTree.ofRoot text kind inner).walkBound (by
    have := inner.length_events_le
    rw [SyntaxTree.walkBound, SyntaxTree.ofRoot_nodes_size, SyntaxTree.ofRoot_tokens_size]
    omega)
  constructor
  · have root : (SyntaxTree.ofRoot text kind inner).kind 0 = kind := by
      rw [SyntaxTree.kind, SyntaxTree.ofRoot_node_zero]
      rfl
    rw [SyntaxTree.walk, walked]
    simp [Sight.ofEvents, Forest.ofEvents_events, SyntaxTree.sight, root,
      (SyntaxTree.ofRoot_embeds text kind inner).sight_walk]
  · intro bound enough
    have room : inner.events.length + 2 ≤ bound := by
      simp only [List.cons_append, List.length_cons, List.length_append, List.length_nil] at enough
      omega
    rw [whole bound room, SyntaxTree.walk, walked]

-- A name with trivia on both sides inside a path.
theorem sight_walk_of_name :
    let text := [' ', 'x', ' ', '/', '/', 'y']
    let leaf : Leaf := ⟨[⟨.whitespace, 1⟩], .ident, 1, [⟨.whitespace, 1⟩, ⟨.comment, 3⟩]⟩
    let events := [.openNode .path, .openNode .nameRef, .token leaf, .closeNode, .closeNode]
    let t := SyntaxTree.ofRoot text .path (.node .nameRef (.leaf leaf .nil) .nil)
    Assembly.run text events = .ok t ∧
      (t.walk .nodesAndTokens 0).map t.sight = Sight.ofEvents [] events ∧
        ∀ bound, events.length ≤ bound →
          Walk.take t .nodesAndTokens bound (Walk.start 0) = t.walk .nodesAndTokens 0 := by
  intro text leaf events t
  have accepted : Assembly.run text events = .ok t := rfl
  exact ⟨accepted, sight_walk_of_run accepted⟩

end LosslessTree
