import Mathlib
import LosslessTree.Proofs.Tree.Arenas

/-!
# Which events make a tree

Events are refused by what came before them: by how many nodes are open, and by how far the tokens reach.
Both are read off the events alone, so whether a tree is built is too.
-/

set_option autoImplicit false

namespace LosslessTree

namespace TreeEvent

def isSorted : TreeEvent → Bool
  | openNode k => k.isNode
  | token l => !l.kind.isNode
  | closeNode => true

def rise : TreeEvent → Int
  | openNode _ => 1
  | token _ => 0
  | closeNode => -1

-- How many nodes are open, negative if more have been closed than opened.
def depth (events : List TreeEvent) : Int := (events.map rise).sum

def lengths : TreeEvent → List Nat
  | token l => Assembly.pieceLengths l
  | openNode _ | closeNode => []

def lengthsOf (events : List TreeEvent) : List Nat := events.flatMap lengths

/-- The events of one root over a text: nodes are balanced and closed with the last event, tokens stand in
nodes, and each piece ends in the text where a character does, the last one with the text. -/
structure Admissible (text : Text) (events : List TreeEvent) : Prop where
  sorted : ∀ e ∈ events, e.isSorted = true
  first : ∃ k, events.head? = some (.openNode k)
  nonnegative : ∀ front, front <+: events → 0 ≤ depth front
  inside : ∀ front l behind, events = front ++ .token l :: behind → 1 ≤ depth front
  once : ∀ front, front <+: events → front ≠ [] → depth front = 0 → front = events
  closed : depth events = 0
  pieces : ∀ front n, front ++ [n] <+: lengthsOf events →
    front.sum + n ≤ text.byteLength ∧ text.isBoundary (front.sum + n) = true
  whole : (lengthsOf events).sum = text.byteLength

def isOpening : TreeEvent → Bool
  | openNode _ => true
  | token _ | closeNode => false

/-- There is a number for each node, for each token behind the first one, and for each element that is
not the root. -/
structure Countable (events : List TreeEvent) : Prop where
  nodes : events.countP isOpening < Assembly.offsetLimit
  tokens : (lengthsOf events).length + 1 < Assembly.offsetLimit
  elements : events.countP (· != .closeNode) ≤ Assembly.offsetLimit

-- The event may come behind others: a node is open, or it opens the root.
def Follows (front : List TreeEvent) (e : TreeEvent) : Prop :=
  e.isSorted = true ∧ (1 ≤ depth front ∨ front = [] ∧ ∃ k, e = .openNode k)

variable {events front : List TreeEvent} {e : TreeEvent}

@[simp] theorem depth_nil : depth [] = 0 := rfl

@[simp] theorem depth_cons (e : TreeEvent) (events : List TreeEvent) :
    depth (e :: events) = e.rise + depth events := by
  simp [depth]

@[simp] theorem depth_append (front behind : List TreeEvent) :
    depth (front ++ behind) = depth front + depth behind := by
  simp [depth]

def Follow (front : List TreeEvent) : List TreeEvent → Prop
  | [] => True
  | e :: events => Follows front e ∧ Follow (front ++ [e]) events

theorem follow_append {front events more : List TreeEvent} :
    Follow front (events ++ more) ↔ Follow front events ∧ Follow (front ++ events) more := by
  induction events generalizing front with
  | nil => simp [Follow]
  | cons e events ih => simp [Follow, ih, and_assoc]

theorem follow_iff {front events : List TreeEvent} :
    Follow front events ↔ ∀ part e behind, events = part ++ e :: behind → Follows (front ++ part) e := by
  induction events generalizing front with
  | nil => simp [Follow]
  | cons e events ih =>
      rw [Follow, ih]
      constructor
      · rintro ⟨here, later⟩ part e' behind split
        cases part with
        | nil =>
            obtain ⟨rfl, rfl⟩ := List.cons.inj split
            simpa using here
        | cons first part =>
            obtain ⟨rfl, rfl⟩ := List.cons.inj split
            simpa using later part e' behind rfl
      · intro each
        refine ⟨by simpa using each [] e events rfl, fun part e' behind split => ?_⟩
        simpa using each (e :: part) e' behind (congrArg _ split)

theorem lengthsOf_append (front behind : List TreeEvent) :
    lengthsOf (front ++ behind) = lengthsOf front ++ lengthsOf behind := List.flatMap_append

end TreeEvent

namespace Assembly

open TreeEvent

variable {text : Text} {covered : Nat} {sizes : List Nat}

theorem total_id (sizes : List Nat) : total id sizes = sizes.sum := by
  induction sizes with
  | nil => rfl
  | cons n sizes ih => rw [total_cons, List.sum_cons, ih, id]

theorem cover_isOk_iff (short : text.byteLength < offsetLimit) :
    (∃ more, cover text covered sizes = .ok more) ↔
      ∀ front n, front ++ [n] <+: sizes → text.isBoundary (covered + (front.sum + n)) = true := by
  induction sizes generalizing covered with
  | nil => simp [cover]
  | cons m sizes ih =>
      constructor
      · rintro ⟨more, ok⟩ front n starts
        rw [cover] at ok
        split at ok
        · cases ok
        split at ok
        · next boundary =>
            cases front with
            | nil =>
                obtain rfl := (List.cons_prefix_cons.mp starts).1
                simpa using boundary
            | cons first front =>
                obtain ⟨rfl, further⟩ := List.cons_prefix_cons.mp starts
                have later := ih.mp ⟨more, ok⟩ front n further
                simpa [Nat.add_assoc] using later
        · cases ok
      · intro each
        have boundary : text.isBoundary (covered + m) = true := by
          simpa using each [] m (by simp)
        have within := le_byteLength_of_isBoundary boundary
        rw [cover, if_neg (by omega), if_pos boundary]
        refine ih.mpr fun front n starts => ?_
        have later := each (m :: front) n (List.cons_prefix_cons.mpr ⟨rfl, starts⟩)
        simpa [Nat.add_assoc] using later

end Assembly

namespace TreeEvent

variable {text : Text} {events front : List TreeEvent} {e : TreeEvent}

theorem Follows.nonnegative (h : Follows front e) : 0 ≤ depth (front ++ [e]) := by
  rw [depth_append, depth_cons, depth_nil]
  obtain ⟨-, open_ | ⟨rfl, k, rfl⟩⟩ := h
  · cases e <;> simp only [rise] <;> omega
  · simp [rise]

theorem admissible_iff (short : text.byteLength < Assembly.offsetLimit) :
    Admissible text events ↔ Follow [] events ∧
      (∃ more, Assembly.cover text 0 (lengthsOf events) = .ok more) ∧
        events ≠ [] ∧ depth events = 0 ∧ (lengthsOf events).sum = text.byteLength := by
  rw [Assembly.cover_isOk_iff short, follow_iff]
  simp only [List.nil_append]
  constructor
  · intro h
    obtain ⟨k, first⟩ := h.first
    obtain ⟨more, rfl⟩ := List.head?_eq_some_iff.mp first
    refine ⟨fun front e behind split => ⟨h.sorted e (by simp [split]), ?_⟩, fun front n starts => ?_,
      List.cons_ne_nil _ _, h.closed, h.whole⟩
    · cases front with
      | nil => exact .inr ⟨rfl, k, (List.cons.inj split).1.symm⟩
      | cons e' front =>
          left
          have starts : e' :: front <+: .openNode k :: more := ⟨_, split.symm⟩
          have least := h.nonnegative _ starts
          -- Nothing stands behind the event that closes the root.
          have apart : depth (e' :: front) ≠ 0 := by
            intro closed
            have all := h.once _ starts (List.cons_ne_nil _ _) closed
            rw [← all] at split
            simpa using congrArg List.length split
          omega
    · rw [Nat.zero_add]
      exact (h.pieces front n starts).2
  · rintro ⟨follows, pieces, some_, closed, whole⟩
    refine ⟨fun e mem => ?_, ?_, fun front starts => ?_, fun front l behind split => ?_,
      fun front starts more none => ?_, closed, fun front n starts => ?_, whole⟩
    · obtain ⟨front, behind, split⟩ := List.append_of_mem mem
      exact (follows front e behind split).1
    · obtain ⟨e, behind, rfl⟩ := List.exists_cons_of_ne_nil some_
      obtain ⟨-, open_ | ⟨-, k, rfl⟩⟩ := follows [] e behind rfl
      · cases open_
      · exact ⟨k, rfl⟩
    · rcases List.eq_nil_or_concat front with rfl | ⟨front, e, rfl⟩
      · exact Int.le_refl 0
      · obtain ⟨behind, split⟩ := starts
        rw [List.concat_eq_append, List.append_assoc] at split
        rw [List.concat_eq_append]
        exact (follows front e behind split.symm).nonnegative
    · obtain ⟨-, open_ | ⟨-, k, other⟩⟩ := follows front _ behind split
      · exact open_
      · cases other
    · obtain ⟨behind, rfl⟩ := starts
      cases behind with
      | nil => simp
      | cons e behind =>
          obtain ⟨-, open_ | ⟨rfl, -⟩⟩ := follows front e behind rfl
          · omega
          · exact absurd rfl more
    · have boundary := pieces front n starts
      rw [Nat.zero_add] at boundary
      exact ⟨Assembly.le_byteLength_of_isBoundary boundary, boundary⟩

open Assembly

theorem depth_events (f : Forest) : depth f.events = 0 := by
  induction f with
  | nil => rfl
  | leaf l rest ih => simp [Forest.events, rise, ih]
  | node k inner rest hi hr => simp [Forest.events, rise, hi, hr]

theorem lengthsOf_events (f : Forest) : lengthsOf f.events = f.pieceLengths := by
  induction f with
  | nil => rfl
  | leaf l rest ih => exact congrArg _ ih
  | node k inner rest hi hr =>
      rw [Forest.events, lengthsOf_append]
      change lengthsOf inner.events ++ lengthsOf rest.events = _
      rw [hi, hr]
      exact List.flatMap_append.symm

theorem depth_openedEvents (opened : List OpenNode) : depth (openedEvents opened) = opened.length := by
  induction opened with
  | nil => rfl
  | cons o opened ih => simp [openedEvents_cons, ih, rise, depth_events]

theorem depth_rootEvents (root : OpenNode) : depth (rootEvents root) = 0 := by
  simp [rootEvents, rise, depth_events]

theorem lengthsOf_rootEvents (root : OpenNode) : lengthsOf (rootEvents root) = root.inner.pieceLengths := by
  have around : lengthsOf (rootEvents root) = [] ++ lengthsOf root.inner.events ++ [] :=
    lengthsOf_append _ _
  simp [around, lengthsOf_events]

theorem countP_isOpening_events (f : Forest) : f.events.countP isOpening = f.nodeCount := by
  induction f with
  | nil => rfl
  | leaf l rest ih => simp [Forest.events, Forest.nodeCount, isOpening, ih]
  | node k inner rest hi hr =>
      simp only [Forest.events, Forest.nodeCount, List.countP_append, List.countP_cons, isOpening, hi, hr]
      simp only [Bool.false_eq_true, if_true, if_false]
      omega

theorem countP_elements_events (f : Forest) :
    f.events.countP (· != .closeNode) = f.nodeCount + f.leaves.length := by
  induction f with
  | nil => rfl
  | leaf l rest ih =>
      simp [Forest.events, Forest.nodeCount, Forest.leaves, ih]
      omega
  | node k inner rest hi hr =>
      simp [Forest.events, Forest.nodeCount, Forest.leaves, hi, hr]
      omega

theorem length_pieceLengths (f : Forest) : f.pieceLengths.length = f.tokenCount := by
  induction f with
  | nil => rfl
  | leaf l rest ih =>
      change (pieceLengths l ++ rest.pieceLengths).length = _
      simp [Forest.tokenCount, pieceLengths, Leaf.tokenCount, ih]
      omega
  | node k inner rest hi hr =>
      have split : (Forest.node k inner rest).pieceLengths =
          inner.pieceLengths ++ rest.pieceLengths := List.flatMap_append
      rw [split, List.length_append, hi, hr, Forest.tokenCount]

theorem countable_rootEvents_iff {root : OpenNode} :
    Countable (rootEvents root) ↔ (Counts.ofRoot root.inner).Numbered := by
  have nodes : (rootEvents root).countP isOpening = root.inner.nodeCount + 1 := by
    simp [rootEvents, List.countP_cons, List.countP_append, countP_isOpening_events, isOpening]
  have elements : (rootEvents root).countP (· != .closeNode) =
      root.inner.nodeCount + root.inner.leaves.length + 1 := by
    simp [rootEvents, countP_elements_events]
  have tokens : (lengthsOf (rootEvents root)).length = root.inner.tokenCount := by
    rw [lengthsOf_rootEvents, length_pieceLengths]
  constructor
  · rintro ⟨few, short, narrow⟩
    rw [nodes] at few
    rw [tokens] at short
    rw [elements] at narrow
    exact ⟨few, short, narrow⟩
  · rintro ⟨few, short, narrow⟩
    exact ⟨nodes ▸ few, tokens ▸ short, elements ▸ narrow⟩

theorem follow_events {f : Forest} (sorted : f.Sorted) (within : 1 ≤ depth front) : Follow front f.events := by
  induction f generalizing front with
  | nil => trivial
  | leaf l rest ih =>
      refine ⟨⟨by simp [isSorted, sorted.1], .inl within⟩, ih sorted.2 ?_⟩
      simpa [rise] using within
  | node k inner rest hi hr =>
      obtain ⟨isNode, below, behind⟩ := sorted
      refine ⟨⟨isNode, .inl within⟩, follow_append.mpr ⟨hi below ?_, ⟨rfl, .inl ?_⟩, hr behind ?_⟩⟩
      all_goals simp [rise, depth_events]; omega

def IsSorted (o : OpenNode) : Prop := o.kind.isNode = true ∧ o.inner.Sorted

-- Events that follow one another leave nodes open, or have closed the root.
theorem opened_or_root (follow : Follow [] events) :
    (∃ opened, (∀ o ∈ opened, IsSorted o) ∧ events = openedEvents opened) ∨
      ∃ root, IsSorted root ∧ events = rootEvents root := by
  induction events using List.reverseRecOn with
  | nil => exact .inl ⟨[], by simp, rfl⟩
  | append_singleton front e ih =>
      obtain ⟨before, ⟨sort, place⟩, -⟩ := follow_append.mp follow
      rw [List.nil_append] at place
      obtain ⟨opened, sorted, rfl⟩ | ⟨root, sorted, rfl⟩ := ih before
      · cases opened with
        | nil =>
            obtain ⟨-, k, rfl⟩ := place.resolve_left (by simp [openedEvents])
            exact .inl ⟨[⟨k, .nil⟩], List.forall_mem_singleton.mpr ⟨sort, trivial⟩, rfl⟩
        | cons o outer =>
            obtain ⟨⟨isNode, below⟩, others⟩ := List.forall_mem_cons.mp sorted
            cases e with
            | openNode k =>
                refine .inl ⟨⟨k, .nil⟩ :: o :: outer, ?_, (openedEvents_cons ⟨k, .nil⟩ _).symm⟩
                exact List.forall_mem_cons.mpr ⟨⟨sort, trivial⟩, sorted⟩
            | token l =>
                have isToken : l.kind.isNode = false := by simpa [isSorted] using sort
                refine .inl ⟨⟨o.kind, o.inner ++ .leaf l .nil⟩ :: outer, ?_, ?_⟩
                · have more := below.append (g := .leaf l .nil) ⟨isToken, trivial⟩
                  exact List.forall_mem_cons.mpr ⟨⟨isNode, more⟩, others⟩
                · simp [openedEvents_cons, Forest.events]
            | closeNode =>
                cases outer with
                | nil => exact .inr ⟨o, ⟨isNode, below⟩, by simp [openedEvents, rootEvents]⟩
                | cons around outer =>
                    obtain ⟨⟨isNode', before⟩, others⟩ := List.forall_mem_cons.mp others
                    refine .inl ⟨⟨around.kind, around.inner ++ .node o.kind o.inner .nil⟩ :: outer, ?_, ?_⟩
                    · have more := before.append (g := .node o.kind o.inner .nil) ⟨isNode, below, trivial⟩
                      exact List.forall_mem_cons.mpr ⟨⟨isNode', more⟩, others⟩
                    · simp [openedEvents_cons, Forest.events]
      · rw [depth_rootEvents] at place
        simp [rootEvents] at place

theorem follow_root_iff : Follow [] events ∧ events ≠ [] ∧ depth events = 0 ↔
    ∃ root, IsSorted root ∧ events = rootEvents root := by
  constructor
  · rintro ⟨follow, some, closed⟩
    obtain ⟨opened, -, rfl⟩ | root := opened_or_root follow
    · rw [depth_openedEvents] at closed
      obtain rfl : opened = [] := List.length_eq_zero_iff.mp (by omega)
      cases some rfl
    · exact root
  · rintro ⟨root, ⟨isNode, sorted⟩, rfl⟩
    refine ⟨⟨⟨isNode, .inr ⟨rfl, _, rfl⟩⟩, follow_append.mpr ⟨?_, ⟨rfl, .inl ?_⟩, trivial⟩⟩, ?_,
      depth_rootEvents root⟩
    · exact follow_events sorted (by simp [rise])
    · simp [rise, depth_events]
    · simp [rootEvents]

theorem admissible_iff_root (short : text.byteLength < offsetLimit) : Admissible text events ↔
    ∃ root, IsSorted root ∧ cover text 0 root.inner.pieceLengths = .ok text.byteLength ∧
      events = rootEvents root := by
  rw [admissible_iff short]
  constructor
  · rintro ⟨follow, ⟨more, fits⟩, some, closed, whole⟩
    obtain ⟨root, sorted, rfl⟩ := follow_root_iff.mp ⟨follow, some, closed⟩
    refine ⟨root, sorted, ?_, rfl⟩
    have reached := cover_eq_ok fits
    rw [total_id, whole, Nat.zero_add] at reached
    rw [← lengthsOf_rootEvents, fits, reached]
  · rintro ⟨root, sorted, fits, rfl⟩
    obtain ⟨follow, some, closed⟩ := follow_root_iff.mpr ⟨root, sorted, rfl⟩
    have reached := cover_eq_ok fits
    rw [total_id, Nat.zero_add] at reached
    rw [lengthsOf_rootEvents]
    exact ⟨follow, ⟨_, fits⟩, some, closed, reached.symm⟩

end TreeEvent

section

open TreeEvent

variable {text : Text} {events : List TreeEvent}

-- A tree is built over a text from the admissible events, if there are not too many.
theorem Assembly.run_isOk_iff (short : text.byteLength < offsetLimit) :
    (∃ t, run text events = .ok t) ↔ Admissible text events ∧ Countable events := by
  rw [admissible_iff_root short]
  constructor
  · rintro ⟨t, ok⟩
    obtain ⟨k, f, rfl, -, isNode, sorted, fits, numbered⟩ := root_of_run ok
    let root : OpenNode := ⟨k, f⟩
    have countable : Countable (rootEvents root) := countable_rootEvents_iff.mpr numbered
    exact ⟨⟨root, ⟨isNode, sorted⟩, fits, rfl⟩, countable⟩
  · rintro ⟨⟨root, ⟨isNode, sorted⟩, fits, rfl⟩, countable⟩
    exact ⟨_, run_root isNode sorted fits (countable_rootEvents_iff.mp countable)⟩

theorem ArenaBuilder.run_isOk_iff :
    (∃ a, run text events = .ok a) ↔ ∃ t, Assembly.run text events = .ok t := by
  have both := run_both text events
  revert both
  cases run text events <;> cases Assembly.run text events <;> intro both
  · simp
  · cases both
  · cases both
  · simp

/-- A tree is built, and an arena filled, from exactly the admissible events that can all be counted. -/
theorem ArenaBuilder.run_accepts_iff (short : text.byteLength < Assembly.offsetLimit) :
    ((∃ t, Assembly.run text events = .ok t) ↔ Admissible text events ∧ Countable events) ∧
      ((∃ a, ArenaBuilder.run text events = .ok a) ↔ Admissible text events ∧ Countable events) :=
  ⟨Assembly.run_isOk_iff short, run_isOk_iff.trans (Assembly.run_isOk_iff short)⟩

-- A character of two bytes, with an empty token behind it. A token that ends inside the character
-- is refused.
theorem ArenaBuilder.run_accepts_iff_wide :
    let text : Text := ['é']
    let events (n : Nat) : List TreeEvent :=
      [.openNode .path, .token ⟨[], .ident, n, [⟨.comment, 2 - n⟩]⟩, .token ⟨[], .eof, 0, []⟩, .closeNode]
    text.byteLength < Assembly.offsetLimit ∧ Admissible text (events 2) ∧ ¬Admissible text (events 1) := by
  intro text events
  have short : text.byteLength < Assembly.offsetLimit := by decide
  have countable (n : Nat) : Countable (events n) := by
    exact ⟨by simp [events, List.countP_cons, isOpening, Assembly.offsetLimit],
      by simp [events, lengthsOf, lengths, Assembly.pieceLengths, Assembly.offsetLimit],
      by simp [events, Assembly.offsetLimit]⟩
  exact ⟨short, ((run_accepts_iff short).1.mp ⟨_, rfl⟩).1, fun admissible => by
    obtain ⟨t, ok⟩ := (run_accepts_iff short).1.mpr ⟨admissible, countable 1⟩
    cases ok⟩

def Forest.blanks : Nat → Forest
  | 0 => .nil
  | n + 1 => .leaf ⟨[], .eof, 0, []⟩ (blanks n)

theorem Forest.blanks_events (n : Nat) :
    (blanks n).events = List.replicate n (.token ⟨[], .eof, 0, []⟩) := by
  induction n with
  | zero => rfl
  | succ n ih => rw [blanks, events, ih, List.replicate_succ]

theorem Forest.blanks_sorted (n : Nat) : (blanks n).Sorted := by
  induction n with
  | zero => trivial
  | succ n ih => exact ⟨rfl, ih⟩

theorem Forest.cover_blanks (n : Nat) : Assembly.cover [] 0 (blanks n).pieceLengths = .ok 0 := by
  induction n with
  | zero => rfl
  | succ n ih => exact ih

theorem Forest.tokenCount_blanks (n : Nat) : (blanks n).tokenCount = n := by
  induction n with
  | zero => rfl
  | succ n ih =>
      rw [blanks, tokenCount, ih]
      exact Nat.add_comm 1 n

theorem Forest.nodeCount_blanks (n : Nat) : (blanks n).nodeCount = 0 := by
  induction n with
  | zero => rfl
  | succ n ih => exact ih

-- A root of so many empty tokens is admissible over the empty text. There is no number for the
-- last one from one less than there are numbers.
theorem ArenaBuilder.run_blanks {n : Nat} (many : Assembly.offsetLimit ≤ n + 1) :
    Admissible [] (Assembly.rootEvents ⟨.sourceFile, .blanks n⟩) ∧
      run [] (Assembly.rootEvents ⟨.sourceFile, .blanks n⟩) = .error .tooLarge := by
  refine ⟨(admissible_iff_root (by decide)).mpr
    ⟨_, ⟨rfl, Forest.blanks_sorted n⟩, Forest.cover_blanks n, rfl⟩, ?_⟩
  rcases Assembly.run_root_cases (k := .sourceFile) rfl (Forest.blanks_sorted n) (Forest.cover_blanks n) with
    ⟨-, numbered⟩ | ⟨e, refused, why⟩
  · have room : (Forest.blanks n).tokenCount + 1 < Assembly.offsetLimit := numbered.tokens
    rw [Forest.tokenCount_blanks] at room
    omega
  · have few : (Forest.blanks n).nodeCount + 1 < Assembly.offsetLimit := by
      rw [Forest.nodeCount_blanks]
      decide
    obtain rfl := why.tooLarge few
    have both := run_both [] (Assembly.rootEvents ⟨.sourceFile, .blanks n⟩)
    rw [Assembly.rootEvents, refused] at both
    rw [Assembly.rootEvents]
    revert both
    cases run [] _ with
    | ok a => exact False.elim
    | error e => exact congrArg Except.error

-- An empty token for each number but one, over the empty text.
theorem ArenaBuilder.run_refuses_admissible :
    let events : List TreeEvent := .openNode .sourceFile ::
      List.replicate (Assembly.offsetLimit - 1) (.token ⟨[], .eof, 0, []⟩) ++ [.closeNode]
    Admissible [] events ∧ run [] events = .error .tooLarge ∧
      ¬((∃ a, run [] events = .ok a) ↔ Admissible [] events) := by
  intro events
  have many : Assembly.offsetLimit ≤ Assembly.offsetLimit - 1 + 1 := by decide
  have same : events = Assembly.rootEvents ⟨.sourceFile, .blanks (Assembly.offsetLimit - 1)⟩ := by
    rw [Assembly.rootEvents, Forest.blanks_events]
  obtain ⟨admissible, refused⟩ := run_blanks many
  rw [← same] at admissible refused
  refine ⟨admissible, refused, fun claimed => ?_⟩
  obtain ⟨a, ok⟩ := claimed.mpr admissible
  rw [refused] at ok
  cases ok

end

end LosslessTree
