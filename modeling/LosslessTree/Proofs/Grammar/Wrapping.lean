import LosslessTree.Proofs.Grammar.Tracing
import LosslessTree.Proofs.Tree.Balance

/-!
# Nested markers

Markers that are completed or given up as they nest, and markers around what was just completed, leave
marks that replay to the tree which the nesting describes, as long as there are no more marks than the
positions that can be kept. Behind these a marker is taken for another one.
-/

set_option autoImplicit false

namespace LosslessTree

mutual

inductive Markup where
  | nothing
  | token (t : Token)
  -- A marker is given up behind what was done since its start.
  | abandoned (body : Markup)
  | seq (first second : Markup)
  | completed (node : Completion)

/-- Operations that end when a marker is completed. A start of the kind of a tombstone counts as given
up, so no marker is completed with that kind. -/
inductive Completion where
  | around (body : Markup) (kind : Kind) (named : kind ≠ .tombstone)
  -- The marker precedes the node that was just completed.
  | preceding (inner : Completion) (body : Markup) (kind : Kind) (named : kind ≠ .tombstone)

end

mutual

def Markup.perform : Markup → Marking → Except Panic Marking
  | .nothing, m => .ok m
  | .token t, m => .ok (m.push t)
  | .abandoned body, m => do
      let (position, m) := m.start Marking.narrow
      let inside ← body.perform m
      inside.abandon position
  | .seq first second, m => do
      let between ← first.perform m
      second.perform between
  | .completed node, m => node.perform m

def Completion.perform : Completion → Marking → Except Panic Marking
  | .around body kind _, m => do
      let (position, m) := m.start Marking.narrow
      let inside ← body.perform m
      inside.complete position kind
  | .preceding inner body kind _, m => do
      let before ← inner.perform m
      let (position, m) ← before.precede Marking.narrow
      let inside ← body.perform m
      inside.complete position kind

end

mutual

/-- How many marks the operations set, those that are taken back included. -/
def Markup.recorded : Markup → Nat
  | .nothing => 0
  | .token _ => 1
  | .abandoned body => body.recorded + 1
  | .seq first second => first.recorded + second.recorded
  | .completed node => node.recorded

def Completion.recorded : Completion → Nat
  | .around body _ _ => body.recorded + 2
  | .preceding inner body _ _ => inner.recorded + body.recorded + 2

end

def Completion.kind : Completion → Kind
  | .around _ kind _ | .preceding _ _ kind _ => kind

mutual

def Markup.forest : Markup → Forest
  | .nothing => .nil
  | .token t => .leaf t.leaf .nil
  | .abandoned body => body.forest
  | .seq first second => first.forest ++ second.forest
  | .completed node => .node node.kind node.inner .nil

-- The elements of the node. A node that was preceded is the first of them.
def Completion.inner : Completion → Forest
  | .around body _ _ => body.forest
  | .preceding inner body _ _ => .node inner.kind inner.inner .nil ++ body.forest

end

mutual

def Markup.tokens : Markup → List Token
  | .nothing => []
  | .token t => [t]
  | .abandoned body => body.tokens
  | .seq first second => first.tokens ++ second.tokens
  | .completed node => node.tokens

def Completion.tokens : Completion → List Token
  | .around body _ _ => body.tokens
  | .preceding inner body _ _ => inner.tokens ++ body.tokens

end

structure Extent where
  kind : Kind
  start : Nat
  stop : Nat
  deriving DecidableEq, Repr

mutual

/-- The markers in the order in which they are completed, behind so many tokens. One that precedes a node
counts from where that node starts. -/
def Markup.extents : Markup → Nat → List Extent
  | .nothing, _ | .token _, _ => []
  | .abandoned body, n => body.extents n
  | .seq first second, n => first.extents n ++ second.extents (n + first.tokens.length)
  | .completed node, n => node.extents n

def Completion.extents : Completion → Nat → List Extent
  | .around body kind _, n => body.extents n ++ [⟨kind, n, n + body.tokens.length⟩]
  | .preceding inner body kind _, n =>
      let between := n + inner.tokens.length
      inner.extents n ++ body.extents between ++ [⟨kind, n, between + body.tokens.length⟩]

end

def Completion.chain : Completion → List Kind
  | .around _ kind _ => [kind]
  | .preceding inner _ kind _ => kind :: inner.chain

namespace Forest

def extents : Forest → Nat → List Extent
  | nil, _ => []
  | leaf _ rest, n => extents rest (n + 1)
  | node k inner rest, n =>
      let stop := n + inner.leaves.length
      extents inner n ++ ⟨k, n, stop⟩ :: extents rest stop

theorem extents_append (f g : Forest) (n : Nat) :
    (f ++ g).extents n = f.extents n ++ g.extents (n + f.leaves.length) := by
  induction f generalizing n with
  | nil => rfl
  | leaf l rest ih =>
      have counted : n + (leaf l rest).leaves.length = n + 1 + rest.leaves.length := by
        simp only [leaves, List.length_cons]
        omega
      rw [leaf_append, extents, ih, counted]
      rfl
  | node k inner rest _ ih =>
      have counted : n + (node k inner rest).leaves.length =
          n + inner.leaves.length + rest.leaves.length := by
        simp only [leaves, List.length_append]
        omega
      rw [node_append, extents, ih, counted]
      simp [extents]

end Forest

namespace TreeEvent

/-- All nodes that are opened are closed, none of them before. -/
structure Balanced (events : List TreeEvent) : Prop where
  nonnegative : ∀ front, front <+: events → 0 ≤ depth front
  closed : depth events = 0

variable {events more : List TreeEvent}

theorem balanced_nil : Balanced [] where
  nonnegative := by
    intro front starts
    rw [List.prefix_nil.mp starts]
    exact Int.le_refl _
  closed := depth_nil

theorem balanced_token (l : Leaf) : Balanced [.token l] where
  nonnegative := by
    intro front starts
    rcases List.prefix_cons_iff.mp starts with rfl | ⟨behind, rfl, further⟩
    · exact Int.le_refl _
    · rw [List.prefix_nil.mp further]
      exact Int.le_refl _
  closed := rfl

theorem Balanced.append (h : Balanced events) (h' : Balanced more) : Balanced (events ++ more) where
  nonnegative := by
    intro front starts
    rcases List.prefix_or_prefix_of_prefix starts (List.prefix_append _ _) with within | ⟨behind, rfl⟩
    · exact h.nonnegative front within
    · rw [depth_append, h.closed, Int.zero_add]
      exact h'.nonnegative behind ((List.prefix_append_right_inj _).mp starts)
  closed := by rw [depth_append, h.closed, h'.closed, Int.zero_add]

theorem Balanced.node (h : Balanced events) (k : Kind) :
    Balanced (.openNode k :: events ++ [.closeNode]) where
  nonnegative := by
    intro front starts
    rcases List.prefix_cons_iff.mp starts with rfl | ⟨front, rfl, further⟩
    · exact Int.le_refl _
    rw [depth_cons, rise]
    rcases List.prefix_or_prefix_of_prefix further (List.prefix_append _ _) with within | ⟨behind, rfl⟩
    · have above := h.nonnegative front within
      omega
    · rw [depth_append, h.closed]
      have last := (List.prefix_append_right_inj _).mp further
      rcases List.prefix_cons_iff.mp last with rfl | ⟨none, rfl, past⟩
      · decide
      · rw [List.prefix_nil.mp past]
        decide
  closed := by simp [rise, h.closed]

end TreeEvent

theorem Forest.balanced (f : Forest) : TreeEvent.Balanced f.events := by
  induction f with
  | nil => exact TreeEvent.balanced_nil
  | leaf l rest ih => exact (TreeEvent.balanced_token l).append ih
  | node k inner rest hi hr =>
      have split : (Forest.node k inner rest).events =
          .openNode k :: inner.events ++ [.closeNode] ++ rest.events := by simp [events]
      rw [split]
      exact (hi.node k).append hr

mutual

theorem Markup.leaves_forest : (p : Markup) → p.forest.leaves = p.tokens.map Token.leaf
  | .nothing | .token _ => rfl
  | .abandoned body => body.leaves_forest
  | .seq first second => by
      rw [Markup.forest, Forest.leaves_append, first.leaves_forest, second.leaves_forest, Markup.tokens,
        List.map_append]
  | .completed node => by
      rw [Markup.forest, Forest.leaves, Forest.leaves, List.append_nil, node.leaves_inner, Markup.tokens]

theorem Completion.leaves_inner : (node : Completion) → node.inner.leaves = node.tokens.map Token.leaf
  | .around body _ _ => by rw [Completion.inner, body.leaves_forest, Completion.tokens]
  | .preceding inner body _ _ => by
      have within := inner.leaves_inner
      simp [Completion.inner, Completion.tokens, Forest.leaves, within, body.leaves_forest]

end

theorem Markup.length_leaves (p : Markup) : p.forest.leaves.length = p.tokens.length := by
  rw [p.leaves_forest, List.length_map]

theorem Completion.length_leaves (node : Completion) : node.inner.leaves.length = node.tokens.length := by
  rw [node.leaves_inner, List.length_map]

mutual

theorem Markup.extents_forest : (p : Markup) → (n : Nat) → p.forest.extents n = p.extents n
  | .nothing, _ | .token _, _ => rfl
  | .abandoned body, n => body.extents_forest n
  | .seq first second, n => by
      rw [Markup.forest, Forest.extents_append, first.extents_forest, second.extents_forest,
        first.length_leaves, Markup.extents]
  | .completed node, n => node.extents_inner n

theorem Completion.extents_inner : (node : Completion) → (n : Nat) →
    (Forest.node node.kind node.inner .nil).extents n = node.extents n
  | .around body kind _, n => by
      rw [Forest.extents, Completion.inner, body.extents_forest, body.length_leaves, Completion.extents]
      rfl
  | .preceding inner body kind _, n => by
      have within := inner.extents_inner n
      have size : (Forest.node inner.kind inner.inner .nil).leaves.length = inner.tokens.length := by
        rw [Forest.leaves, Forest.leaves, List.append_nil, inner.length_leaves]
      rw [Forest.extents, Completion.inner, Forest.extents_append, within, size, body.extents_forest,
        Forest.leaves_append, List.length_append, size, body.length_leaves, Completion.extents,
        Nat.add_assoc]
      rfl

end

theorem Completion.events_chain : (node : Completion) →
    ∃ behind, (Forest.node node.kind node.inner .nil).events =
      node.chain.map TreeEvent.openNode ++ behind
  | .around body kind _ => ⟨body.forest.events ++ [.closeNode], by
      simp [Completion.kind, Completion.inner, Completion.chain, Forest.events]⟩
  | .preceding inner body kind _ => by
      obtain ⟨behind, opened⟩ := inner.events_chain
      refine ⟨behind ++ (body.forest.events ++ [.closeNode]), ?_⟩
      have split : (Forest.node kind (.node inner.kind inner.inner .nil ++ body.forest) .nil).events =
          .openNode kind :: (Forest.node inner.kind inner.inner .nil).events ++
            (body.forest.events ++ [.closeNode]) := by
        simp [Forest.events]
      rw [opened] at split
      exact split.trans (by simp [Completion.chain])

theorem Marking.narrow_eq {position : Nat} (within : position < Assembly.offsetLimit) :
    narrow position = position := Nat.mod_eq_of_lt within

theorem Marking.abandon_open (marks inside : List Mark) (completed : Option Nat)
    (reports : List Diagnostic) (rest : List Token) {f : Forest} (plays : Mark.Plays inside f) :
    ∃ kept, abandon ⟨marks ++ .open :: inside, completed, reports, rest⟩ marks.length =
        .ok ⟨marks ++ kept, completed, reports, rest⟩ ∧ kept.length ≤ inside.length + 1 ∧
      Mark.Plays kept f := by
  cases inside with
  | nil => exact ⟨[], by simp [abandon_eq_ok], by simp, plays⟩
  | cons mark inside =>
      -- The start stays among the marks, but it is not opened.
      refine ⟨.open :: mark :: inside, by simp [abandon], by simp, fun more => ?_⟩
      rw [List.cons_append, Mark.replay_open]
      exact plays more

mutual

theorem Markup.perform_eq_ok : (p : Markup) → (m : Marking) →
    m.marks.length + p.recorded ≤ Assembly.offsetLimit → ∃ new completed,
      p.perform m = .ok ⟨m.marks ++ new, completed, m.reports, m.rest⟩ ∧
        new.length ≤ p.recorded ∧ Mark.Plays new p.forest
  | .nothing, m, _ => ⟨[], m.completed, by simp [Markup.perform], by simp, Mark.plays_nil⟩
  | .token t, m, _ => ⟨[.token t], m.completed, rfl, by simp [Markup.recorded], Mark.plays_token t⟩
  | .abandoned body, ⟨marks, completed, reports, rest⟩, room => by
      simp only [Markup.recorded] at room
      have here : Marking.narrow marks.length = _ := Marking.narrow_eq (by omega)
      obtain ⟨new, after, ran, short, plays⟩ := body.perform_eq_ok ⟨marks ++ [.open], completed, reports, rest⟩
        (by rw [List.length_append, List.length_singleton]; omega)
      obtain ⟨kept, ended, few, plays'⟩ := Marking.abandon_open marks new after reports rest plays
      refine ⟨kept, after, ?_, by simp only [Markup.recorded]; omega, plays'⟩
      simp only [Markup.perform, Marking.start_eq _ _ _ here, ran, bind, Except.bind]
      simpa using ended
  | .seq first second, m, room => by
      simp only [Markup.recorded] at room
      obtain ⟨new, between, ran, short, plays⟩ := first.perform_eq_ok m (by omega)
      obtain ⟨more, after, ran', short', plays'⟩ :=
        second.perform_eq_ok ⟨m.marks ++ new, between, m.reports, m.rest⟩
          (by rw [List.length_append]; omega)
      refine ⟨new ++ more, after, ?_, ?_, plays.append plays'⟩
      · simp only [Markup.perform, ran, ran', bind, Except.bind, List.append_assoc]
      · rw [List.length_append, Markup.recorded]
        omega
  | .completed node, m, room => by
      obtain ⟨new, position, ran, short, chain⟩ := node.perform_eq_ok m room
      exact ⟨new, _, ran, short, chain.plays⟩

theorem Completion.perform_eq_ok : (node : Completion) → (m : Marking) →
    m.marks.length + node.recorded ≤ Assembly.offsetLimit → ∃ new position,
      node.perform m = .ok ⟨m.marks ++ new, some (m.marks.length + position), m.reports, m.rest⟩ ∧
        new.length ≤ node.recorded ∧ Mark.Chain new position node.kind node.inner
  | .around body kind named, ⟨marks, completed, reports, rest⟩, room => by
      simp only [Completion.recorded] at room
      have here : Marking.narrow marks.length = _ := Marking.narrow_eq (by omega)
      obtain ⟨new, after, ran, short, plays⟩ := body.perform_eq_ok ⟨marks ++ [.open], completed, reports, rest⟩
        (by rw [List.length_append, List.length_singleton]; omega)
      refine ⟨.start kind none :: new ++ [.finish], 0, ?_, ?_, .single named plays⟩
      · simp only [Completion.perform, Marking.start_eq _ _ _ here, ran, bind, Except.bind]
        simp only [List.append_assoc, List.singleton_append, Marking.complete_open]
        rfl
      · simp only [List.length_append, List.length_cons, List.length_nil, Completion.recorded]
        omega
  | .preceding inner body kind named, ⟨marks, completed, reports, rest⟩, room => by
      simp only [Completion.recorded] at room
      obtain ⟨new, position, ran, short, chain⟩ := inner.perform_eq_ok ⟨marks, completed, reports, rest⟩
        (by simp only; omega)
      have here : Marking.narrow (marks.length + new.length) = _ := Marking.narrow_eq (by omega)
      -- The outermost start in front of the inner node now leads to the one behind it.
      let opened := marks ++ new.set position (.start inner.kind (some (new.length - position)))
      have size : marks.length + new.length = opened.length := by simp [opened]
      obtain ⟨more, after, ran', short', plays⟩ := body.perform_eq_ok
        ⟨opened ++ [.open], some (marks.length + position), reports, rest⟩
        (by rw [List.length_append, ← size, List.length_singleton]; omega)
      refine ⟨new.set position (.start inner.kind (some (new.length - position))) ++
        .start kind none :: more ++ [.finish], new.length, ?_, ?_, .around named chain plays⟩
      · simp only [Completion.perform, ran, bind, Except.bind, Marking.precede_chain _ _ chain here]
        rw [ran', size]
        simp only [List.append_assoc, List.singleton_append, Marking.complete_open]
        simp [opened]
      · simp only [List.length_append, List.length_cons, List.length_set, List.length_nil,
          Completion.recorded]
        omega

end

-- A marker completed with the kind of a tombstone is not opened, so its end is one too many.
theorem Markup.replay_unnamed (p : Markup) (room : p.recorded < Assembly.offsetLimit)
    (reports : List Diagnostic) (rest : List Token) :
    ∃ inside m, p.perform ⟨[.open], none, reports, rest⟩ = .ok inside ∧
      inside.complete 0 .tombstone = .ok m ∧
      Mark.replay m.marks = .ok (p.forest.events ++ [.closeNode]) ∧
      TreeEvent.depth (p.forest.events ++ [.closeNode]) = -1 := by
  obtain ⟨new, after, ran, -, plays⟩ := p.perform_eq_ok ⟨[.open], none, reports, rest⟩ (by
    rw [List.length_singleton]
    omega)
  refine ⟨_, _, ran, Marking.complete_open after reports rest [] new .tombstone, ?_, ?_⟩
  · have replayed := plays [.finish]
    rw [Mark.replay_finish, Mark.replay] at replayed
    exact (Mark.replay_open _).trans replayed
  · rw [TreeEvent.depth_append, p.forest.balanced.closed]
    rfl

/-- Nested markers with no more marks than positions can be used in a parse whatever its tokens are, and
the replay gives the events of the forest that they describe. Each marker that is completed becomes one
node from its start, or from that of the node it precedes, to its end, and a marker that is given up at
once none. The events are balanced, with the markers that precede a node opened in front of it. They make
a tree if the forest is one over the whole text that can be numbered. -/
theorem Markup.replay_perform (p : Markup) (room : p.recorded ≤ Assembly.offsetLimit)
    (completed : Option Nat) (reports : List Diagnostic) (rest : List Token) (text : Text) :
    (∃ m, p.perform ⟨[], completed, reports, rest⟩ = .ok m ∧
        Mark.replay m.marks = .ok p.forest.events) ∧
      p.forest.leaves = p.tokens.map Token.leaf ∧ p.forest.extents 0 = p.extents 0 ∧
      (∀ m : Marking, m.marks.length < Assembly.offsetLimit →
        (Markup.abandoned .nothing).perform m = .ok m) ∧
      TreeEvent.Balanced p.forest.events ∧
      (∀ node : Completion, ∃ behind,
        (Markup.completed node).forest.events = node.chain.map TreeEvent.openNode ++ behind) ∧
      ∀ t, Assembly.run text p.forest.events = .ok t ↔
        ∃ k f, p.forest = .node k f .nil ∧ k.isNode = true ∧ f.Sorted ∧
          Assembly.cover text 0 f.pieceLengths = .ok text.byteLength ∧ (Counts.ofRoot f).Numbered ∧
            t = .ofRoot text k f := by
  have played : ∃ m, p.perform ⟨[], completed, reports, rest⟩ = .ok m ∧
      Mark.replay m.marks = .ok p.forest.events := by
    obtain ⟨new, after, ran, -, plays⟩ := p.perform_eq_ok ⟨[], completed, reports, rest⟩ (by simpa)
    have replayed := plays []
    rw [List.append_nil, Mark.replay] at replayed
    refine ⟨_, ran, ?_⟩
    rw [List.nil_append, replayed]
    simp [Except.map]
  have taken_back (m : Marking) (within : m.marks.length < Assembly.offsetLimit) :
      (Markup.abandoned .nothing).perform m = .ok m := by
    have started := Marking.start_eq m.completed m.reports m.rest (Marking.narrow_eq within)
    simp only [Markup.perform, started]
    exact Marking.abandon_eq_ok m.completed m.reports m.rest
  exact ⟨played, p.leaves_forest, p.extents_forest 0, taken_back, p.forest.balanced,
    Completion.events_chain, fun t => Assembly.run_events_iff⟩

-- A literal in front of an operator and another one.
theorem Markup.replay_preceded :
    let one : Token := ⟨[], .intNumber, 0, ['1'], []⟩
    let plus : Token := ⟨[], .binaryOperator, 1, ['+'], []⟩
    let left : Completion := .around (.token one) .literal (by decide)
    let p : Markup := .completed (.preceding left
      (.seq (.token plus) (.completed (.around (.token one) .literal (by decide)))) .binaryExpr (by decide))
    p.recorded ≤ Assembly.offsetLimit ∧
      ∃ m, p.perform ⟨[], none, [], []⟩ = .ok m ∧ Mark.replay m.marks = .ok
        [.openNode .binaryExpr, .openNode .literal, .token one.leaf, .closeNode, .token plus.leaf,
          .openNode .literal, .token one.leaf, .closeNode, .closeNode] := by
  intro one plus left p
  have room : p.recorded ≤ Assembly.offsetLimit := by decide
  exact ⟨room, (replay_perform p room none [] [] []).1⟩

def Markup.strays : Nat → Markup
  | 0 => .nothing
  | n + 1 =>
      let semicolon : Token := ⟨[], .semicolon, n, [';'], []⟩
      .seq (strays n) (.completed (.around (.token semicolon) .error (by decide)))

theorem Markup.perform_strays (n : Nat) (m : Marking) (room : m.marks.length + 3 * n ≤ Assembly.offsetLimit) :
    ∃ new completed, (strays n).perform m = .ok ⟨m.marks ++ new, completed, m.reports, m.rest⟩ ∧
      new.length = 3 * n ∧ Mark.Plays new (strays n).forest := by
  induction n with
  | zero => exact ⟨[], m.completed, by simp [strays, perform], rfl, Mark.plays_nil⟩
  | succ n ih =>
      obtain ⟨new, between, ran, size, plays⟩ := ih (by omega)
      let semicolon : Token := ⟨[], .semicolon, n, [';'], []⟩
      have chain : Mark.Chain [.start .error none, .token semicolon, .finish] 0 .error _ :=
        .single (by decide) (Mark.plays_token semicolon)
      have here : Marking.narrow (m.marks ++ new).length = _ := Marking.narrow_eq (by
        rw [List.length_append]
        omega)
      refine ⟨new ++ [.start .error none, .token semicolon, .finish], some (m.marks ++ new).length, ?_, ?_,
        plays.append chain.plays⟩
      · simp only [strays, perform, Completion.perform, ran, bind, Except.bind,
          Marking.start_eq _ _ _ here, Marking.push, List.append_assoc, List.singleton_append]
        rw [← List.append_assoc, Marking.complete_open]
        simp [semicolon]
      · simp [size]
        omega

-- Behind the last position a marker is taken for the first one, which then has two ends.
theorem Markup.replay_strays {n : Nat} (full : 3 * n + 1 = Assembly.offsetLimit) (eof : Token) :
    ∃ m events, (Markup.completed (.around (.seq (strays (n + 1)) (.token eof)) .sourceFile
        (by decide))).perform ⟨[], none, [], []⟩ = .ok m ∧
      Mark.replay m.marks = .ok events ∧ TreeEvent.depth events = -1 := by
  obtain ⟨new, completed, ran, size, plays⟩ := perform_strays n ⟨[.open], none, [], []⟩ (by
    rw [List.length_singleton]
    omega)
  let semicolon : Token := ⟨[], .semicolon, n, [';'], []⟩
  let behind : List Mark := [.open, .token semicolon, .finish, .token eof, .finish]
  -- The position behind all that are kept is the one of the root.
  have taken : Marking.narrow ([.open] ++ new : List Mark).length = 0 := by
    have last : ([.open] ++ new : List Mark).length = Assembly.offsetLimit := by
      rw [List.length_append, List.length_singleton, size]
      omega
    rw [last]
    exact Nat.mod_self _
  have replayed : Mark.replay (.start .sourceFile none :: (new ++ behind)) =
      .ok (.openNode .sourceFile :: ((strays n).forest.events ++
        [.token semicolon.leaf, .closeNode, .token eof.leaf, .closeNode])) := by
    have tail : Mark.replay behind =
        .ok [.token semicolon.leaf, .closeNode, .token eof.leaf, .closeNode] := by
      simp only [behind, Mark.replay_open, Mark.replay_token, Mark.replay_finish]
      rw [Mark.replay]
      rfl
    have alone : Mark.climbFrom none (new ++ behind) = .ok ([], new ++ behind) := rfl
    rw [Mark.replay_start (by decide) (by simp) alone, plays, tail]
    rfl
  refine ⟨⟨.start .sourceFile none :: (new ++ behind), some 0, [], []⟩, _, ?_, replayed, ?_⟩
  · have begun : Marking.start Marking.narrow ⟨[], none, [], []⟩ = (0, ⟨[.open], none, [], []⟩) := rfl
    have again : Marking.start Marking.narrow ⟨[.open] ++ new, completed, [], []⟩ =
        (0, ⟨[.open] ++ new ++ [.open], completed, [], []⟩) := by
      rw [Marking.start, taken]
    simp only [perform, Completion.perform, strays, begun, ran, again, bind, Except.bind, Marking.push]
    simp [Marking.complete, Mark.open, behind, semicolon]
  · simp [TreeEvent.rise, (strays n).forest.balanced.closed]

-- The marks of as many semicolons as do not fit replay to events that are not balanced.
theorem Markup.replay_unbalanced :
    let eof : Token := ⟨[], .eof, 1431655766, [], []⟩
    let p : Markup := .completed (.around (.seq (strays 1431655766) (.token eof)) .sourceFile (by decide))
    ∃ m events, p.perform ⟨[], none, [], []⟩ = .ok m ∧ Mark.replay m.marks = .ok events ∧
      TreeEvent.depth events = -1 ∧ events ≠ p.forest.events := by
  intro eof p
  have full : 3 * 1431655765 + 1 = Assembly.offsetLimit := by decide
  obtain ⟨m, events, ran, replayed, below⟩ := replay_strays full eof
  refine ⟨m, events, ran, replayed, below, ?_⟩
  rintro rfl
  have balanced := p.forest.balanced.closed
  rw [below] at balanced
  cases balanced

end LosslessTree
