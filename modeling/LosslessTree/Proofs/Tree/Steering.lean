import LosslessTree.Proofs.Tree.Skipping

set_option autoImplicit false

namespace LosslessTree

namespace Walk

-- A walk ends when it has begun and nothing that it entered is left.
structure Paced (step : Walk → Option (WalkEvent × Walk)) : Prop where
  ends : ∀ w, step w = none ↔ w.pending = none ∧ w.entered = []
  begins : ∀ w event more, step w = some (event, more) → w.pending = none ∨ w.entered = [] →
    more.pending = none

section Pace

variable {t : SyntaxTree} {w more : Walk} {event : WalkEvent}

theorem next_paced (t : SyntaxTree) (scope : WalkScope) : Paced (Walk.next t scope) where
  ends := by
    rintro ⟨pending, _ | ⟨⟨n, _ | ⟨child, children⟩⟩, outer⟩⟩
    · cases pending <;> simp [Walk.next]
    · simp [Walk.next]
    · cases child <;> simp [Walk.next]
  begins := by
    rintro ⟨pending, _ | ⟨⟨n, _ | ⟨child, children⟩⟩, outer⟩⟩ event more found begun
    · cases pending with
      | none => cases found
      | some n =>
          cases found
          rfl
    · cases found
      simpa using begun
    · cases child
      all_goals
        cases found
        simpa using begun

theorem entered_of_token {scope : WalkScope} {i : Nat}
    (found : w.next t scope = some (.token i, more)) : more.entered ≠ [] := by
  obtain ⟨pending, _ | ⟨⟨n, _ | ⟨child, children⟩⟩, outer⟩⟩ := w
  · cases pending <;> cases found
  · cases found
  · cases child with
    | node m => cases found
    | token j =>
        cases found
        simp

theorem nextNode_paced (t : SyntaxTree) : Paced (nextNode t) where
  ends w := by
    fun_induction nextNode t w with
    | case1 w i more found ih =>
        rw [ih, ← (next_paced t .nodesAndTokens).ends w, found]
        simp [entered_of_token found]
    | case2 w => exact (next_paced t .nodesAndTokens).ends w
  begins w event more found begun := by
    fun_induction nextNode t w with
    | case1 w i further found' ih =>
        exact ih found (.inl ((next_paced t .nodesAndTokens).begins w _ further found' begun))
    | case2 w => exact (next_paced t .nodesAndTokens).begins w event more found begun

variable {step : Walk → Option (WalkEvent × Walk)} (paced : Paced step)

theorem skip_eq_error : w.skip = .error .nothingEntered ↔ w.entered = [] := by
  obtain ⟨pending, entered⟩ := w
  cases entered <;> simp [Walk.skip]

include paced

theorem Paced.pending_turn (begun : w.pending = none) (request : Request) :
    (w.turn step request).2.pending = none := by
  cases request with
  | next =>
      rw [turn]
      split
      · exact begun
      · next event more found => exact paced.begins w event more found (.inl begun)
  | skip =>
      obtain ⟨pending, entered⟩ := w
      cases entered <;> exact begun

theorem Paced.pending_reach (begun : w.pending = none) (requests : List Request) :
    (w.reach step requests).pending = none := by
  induction requests generalizing w with
  | nil => exact begun
  | cons request requests ih => exact ih (paced.pending_turn begun request)

theorem Paced.reach_start (n : Nat) (requests : List Request) :
    if .next ∈ requests then ((start n).reach step requests).pending = none
    else (start n).reach step requests = start n := by
  -- Only the first event that is asked for takes the node out of `pending`, where none is put back.
  induction requests with
  | nil => rfl
  | cons request requests ih =>
      cases request with
      | next =>
          rw [if_pos List.mem_cons_self]
          refine paced.pending_reach (w := ((start n).turn step .next).2) ?_ requests
          rw [turn]
          split
          · next ended =>
              have none := ((paced.ends (start n)).mp ended).1
              cases none
          · next event more found => exact paced.begins (start n) event more found (.inr rfl)
      | skip =>
          have same : (.next ∈ Request.skip :: requests) = (.next ∈ requests) := by simp
          simp only [same]
          exact ih

theorem Paced.refused (n : Nat) (requests : List Request) :
    ((start n).reach step requests).skip = .error .nothingEntered ↔
      .next ∉ requests ∨ step ((start n).reach step requests) = none := by
  have reached := paced.reach_start n requests
  rw [skip_eq_error, paced.ends]
  split at reached
  · next asked => simp [asked, reached]
  · next unasked =>
      rw [reached]
      simp [unasked, start]

theorem Paced.ended (ended : step w = none) (requests : List Request) :
    step (w.reach step requests) = none := by
  -- Neither request changes a walk that has no event and no entered node.
  have stays (request : Request) : (w.turn step request).2 = w := by
    cases request with
    | next => rw [turn, ended]
    | skip => rw [turn, skip_eq_error.mpr ((paced.ends w).mp ended).2]
  have same : w.reach step requests = w := by
    induction requests with
    | nil => rfl
    | cons request requests ih =>
        rw [reach, List.foldl_cons, stays]
        exact ih
  rw [same, ended]

end Pace

end Walk

-- The node and each node below it is entered once and left once, and no other node is.
def SyntaxTree.EachOnce (t : SyntaxTree) (n : Nat) (events : List WalkEvent) : Prop :=
  ∀ m e, e = .enter m ∨ e = .leave m →
    events.count e = if m = n ∨ m ∈ t.descendants n then 1 else 0

namespace Walk

/-- A walk from a node answers what it is asked as the events that it shows without skips tell. Nothing
can be dropped before the first event and when there is none left. -/
structure Steered (step : Walk → Option (WalkEvent × Walk)) (t : SyntaxTree) (n : Nat)
    (events : List WalkEvent) : Prop where
  answers : ∀ requests, (start n).answers step requests = Plan.answers ⟨[], events⟩ requests
  refused : ∀ requests, ((start n).reach step requests).skip = .error .nothingEntered ↔
    .next ∉ requests ∨ step ((start n).reach step requests) = none
  ended : ∀ requests more, step ((start n).reach step requests) = none →
    step ((start n).reach step (requests ++ more)) = none
  nested : WalkEvent.Nested events
  once : t.EachOnce n events

theorem Steered.of_keeps {step : Walk → Option (WalkEvent × Walk)} {R : Walk → Plan → Prop}
    {t : SyntaxTree} {n : Nat} {events : List WalkEvent} (paced : Paced step) (keeps : Keeps step R)
    (shows_ : R (start n) ⟨[], events⟩) (nested : WalkEvent.Nested events)
    (once : t.EachOnce n events) : Steered step t n events where
  answers := keeps.answers shows_
  refused := paced.refused n
  ended requests more stopped := by
    rw [reach, List.foldl_append]
    exact paced.ended stopped more
  nested := nested
  once := once

end Walk

namespace SyntaxTree

variable {t : SyntaxTree}

theorem EachOnce.filter {n : Nat} {events : List WalkEvent} (once : t.EachOnce n events) :
    t.EachOnce n (events.filter WalkEvent.isNode) := by
  intro m e own
  have isNode : e.isNode = true := by rcases own with rfl | rfl <;> rfl
  rw [List.count_filter isNode, once m e own]

section Sites

variable {around : Option Nat} {p : Place} {k : Kind} {inner : Forest} (site : t.Site around p k inner)
include site

theorem Site.eachOnce :
    t.EachOnce p.node (.enter p.node :: inner.walk p.inside ++ [.leave p.node]) := by
  intro m e own
  refine (Forest.count_walk own p (.node k inner .nil)).trans (if_congr ?_ rfl rfl)
  rw [site.mem_descendants]
  simp only [Forest.nodeCount]
  omega

theorem Site.shows : Walk.Shows t .nodesAndTokens (.start p.node)
    ⟨[], .enter p.node :: inner.walk p.inside ++ [.leave p.node]⟩ :=
  .pending site.tours (inner.leave_notMem p)

theorem Site.shows_nodes : Walk.Shows t .nodes (.start p.node)
    ⟨[], .enter p.node :: (inner.walk p.inside).filter WalkEvent.isNode ++ [.leave p.node]⟩ :=
  .pending site.tours.nodes fun mem => inner.leave_notMem p (List.mem_filter.mp mem).1

variable (room : (inner.walk p.inside).length + 2 ≤ t.walkBound)
include room

theorem Site.walk_eq :
    t.walk .nodesAndTokens p.node = .enter p.node :: inner.walk p.inside ++ [.leave p.node] := by
  rw [walk, site.shows.take, List.take_of_length_le]
  simp only [List.cons_append, List.length_cons, List.length_append, List.length_nil]
  omega

theorem Site.filter_walk : (t.walk .nodesAndTokens p.node).filter WalkEvent.isNode =
    .enter p.node :: (inner.walk p.inside).filter WalkEvent.isNode ++ [.leave p.node] := by
  rw [site.walk_eq room]
  exact WalkEvent.filter_around p.node (inner.walk p.inside) []

theorem Site.walk_nodes :
    t.walk .nodes p.node = (t.walk .nodesAndTokens p.node).filter WalkEvent.isNode := by
  have fewer := List.length_filter_le WalkEvent.isNode (inner.walk p.inside)
  rw [site.filter_walk room, walk, site.shows_nodes.take, List.take_of_length_le]
  simp only [List.cons_append, List.length_cons, List.length_append, List.length_nil]
  omega

theorem Site.nested_nodes :
    WalkEvent.Nested ((t.walk .nodesAndTokens p.node).filter WalkEvent.isNode) := by
  rw [site.filter_walk room]
  exact .node p.node site.tours.nodes.nested .nil

theorem Site.once_nodes :
    t.EachOnce p.node ((t.walk .nodesAndTokens p.node).filter WalkEvent.isNode) := by
  rw [site.walk_eq room]
  exact site.eachOnce.filter

theorem Site.steered :
    Walk.Steered (Walk.next t .nodesAndTokens) t p.node (t.walk .nodesAndTokens p.node) := by
  rw [site.walk_eq room]
  exact .of_keeps (Walk.next_paced _ _) Walk.shows_keeps site.shows
    (.node p.node site.tours.nested .nil) site.eachOnce

theorem Site.steered_passing : Walk.Steered (Walk.nextNode t) t p.node
    ((t.walk .nodesAndTokens p.node).filter WalkEvent.isNode) :=
  .of_keeps (Walk.nextNode_paced _) Walk.showsNodes_keeps
    ⟨_, site.shows, congrArg _ (site.walk_eq room)⟩ (site.nested_nodes room) (site.once_nodes room)

theorem Site.steered_nodes : Walk.Steered (Walk.next t .nodes) t p.node
    ((t.walk .nodesAndTokens p.node).filter WalkEvent.isNode) :=
  .of_keeps (Walk.next_paced _ _) Walk.shows_keeps (site.filter_walk room ▸ site.shows_nodes)
    (site.nested_nodes room) (site.once_nodes room)

end Sites

theorem ofRoot_exists_room {text : Text} {k : Kind} {f : Forest} {n : Nat}
    (lies : n < (ofRoot text k f).nodes.size) :
    ∃ around p k' inner, p.node = n ∧ (ofRoot text k f).Site around p k' inner ∧
      (inner.walk p.inside).length + 2 ≤ (ofRoot text k f).walkBound := by
  have size := ofRoot_nodes_size text k f
  obtain ⟨around, p, k', inner, at_, site, below⟩ := (ofRoot_rooted text k f).exists_site (size ▸ lies)
  have tokens := site.within.tokens.length_le
  have few := inner.length_events_le
  rw [Forest.layout_tokens_length, List.length_drop, Array.length_toList] at tokens
  refine ⟨around, p, k', inner, at_, site, ?_⟩
  rw [Forest.length_walk, walkBound, size]
  omega

/-- In a built tree a walk through nodes and tokens answers any requests as its events tell. So does a
walk through nodes alone, of which the events are those without the tokens, whether it passes over the
tokens or does not have them among the children. -/
theorem walk_steered {text : Text} {events : List TreeEvent} (built : Assembly.run text events = .ok t)
    {n : Nat} (lies : n < t.nodes.size) :
    Walk.Steered (Walk.next t .nodesAndTokens) t n (t.walk .nodesAndTokens n) ∧
      Walk.Steered (Walk.nextNode t) t n ((t.walk .nodesAndTokens n).filter WalkEvent.isNode) ∧
      Walk.Steered (Walk.next t .nodes) t n ((t.walk .nodesAndTokens n).filter WalkEvent.isNode) ∧
      t.walk .nodes n = (t.walk .nodesAndTokens n).filter WalkEvent.isNode := by
  obtain ⟨k, f, rfl, rfl, -, -, -, -⟩ := Assembly.root_of_run built
  obtain ⟨around, p, k', inner, rfl, site, room⟩ := ofRoot_exists_room lies
  exact ⟨site.steered room, site.steered_passing room, site.steered_nodes room, site.walk_nodes room⟩

-- Requests before the first event, behind a token, behind the end of a node and behind the last
-- event.
theorem walk_steered_dropping :
    let text := ['x', ';']
    let name : Leaf := ⟨[], .ident, 1, []⟩
    let semicolon : Leaf := ⟨[], .semicolon, 1, []⟩
    let events := [.openNode .exprStmt, .openNode .path, .openNode .nameRef, .token name, .closeNode,
      .closeNode, .openNode .error, .closeNode, .token semicolon, .closeNode]
    let t := SyntaxTree.ofRoot text .exprStmt
      (.node .path (.node .nameRef (.leaf name .nil) .nil) (.node .error .nil (.leaf semicolon .nil)))
    let requests := [.skip, .next, .next, .next, .next, .skip, .skip, .next, .next, .skip, .next, .skip,
      .next]
    Assembly.run text events = .ok t ∧ 0 < t.nodes.size ∧
      (Walk.start 0).answers (Walk.next t .nodesAndTokens) requests =
        [.refused .nothingEntered, .event (some (.enter 0)), .event (some (.enter 1)),
          .event (some (.enter 2)), .event (some (.token 0)), .skipped, .skipped,
          .event (some (.enter 3)), .event (some (.leave 3)), .skipped, .event none,
          .refused .nothingEntered, .event none] ∧
      (Walk.start 0).answers (Walk.nextNode t) requests =
        Walk.Plan.answers ⟨[], [.enter 0, .enter 1, .enter 2, .leave 2, .leave 1, .enter 3, .leave 3,
          .leave 0]⟩ requests ∧
      (Walk.start 0).answers (Walk.next t .nodes) requests =
        (Walk.start 0).answers (Walk.nextNode t) requests := by
  intro text name semicolon events t requests
  have built : Assembly.run text events = .ok t := rfl
  obtain ⟨both, passing, nodes, -⟩ := walk_steered built (n := 0) (by decide)
  refine ⟨built, by decide, (both.answers requests).trans (by decide +kernel), ?_, ?_⟩
  · rw [passing.answers]
    exact congrArg (Walk.Plan.answers ⟨[], ·⟩ requests) (by decide +kernel)
  · exact (nodes.answers requests).trans (passing.answers requests).symm

end SyntaxTree

end LosslessTree
