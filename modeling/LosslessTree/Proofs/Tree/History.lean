import LosslessTree.Tree.Assembly

/-!
# The events behind an assembly

The state of an assembly determines the events that led to it. A finished one was given the events
of a forest between those of its root.
-/

set_option autoImplicit false

namespace LosslessTree

theorem bind_eq_ok_iff {ε α β : Type} {x : Except ε α} {f : α → Except ε β} {b : β} :
    x >>= f = .ok b ↔ ∃ a, x = .ok a ∧ f a = .ok b := by
  cases x <;> simp [bind, Except.bind]

theorem map_eq_ok_iff {ε α β : Type} {x : Except ε α} {f : α → β} {b : β} :
    x.map f = .ok b ↔ ∃ a, x = .ok a ∧ f a = b := by
  cases x <;> simp [Except.map]

@[simp] theorem Forest.events_append (f g : Forest) : (f ++ g).events = f.events ++ g.events := by
  induction f with
  | nil => rfl
  | leaf l rest ih => simp [events, ih]
  | node k inner rest _ ih => simp [events, ih]

theorem Forest.events_closed_inj {f g : Forest} {rest rest' : List TreeEvent}
    (same : f.events ++ .closeNode :: rest = g.events ++ .closeNode :: rest') : f = g ∧ rest = rest' := by
  induction f generalizing g rest rest' with
  | nil => cases g <;> simp_all [events]
  | leaf l f ih =>
      cases g with
      | leaf l' g =>
          simp only [events, List.cons_append, List.cons.injEq, TreeEvent.token.injEq] at same
          obtain ⟨rfl, behind⟩ := same
          obtain ⟨rfl, rfl⟩ := ih behind
          exact ⟨rfl, rfl⟩
      | nil | node => simp [events] at same
  | node k inner f hi hr =>
      cases g with
      | node k' inner' g =>
          simp only [events, List.cons_append, List.append_assoc, List.cons.injEq,
            TreeEvent.openNode.injEq] at same
          obtain ⟨rfl, inside⟩ := same
          obtain ⟨rfl, behind⟩ := hi inside
          obtain ⟨rfl, rfl⟩ := hr behind
          exact ⟨rfl, rfl⟩
      | nil | leaf => simp [events] at same

theorem Forest.events_injective {f g : Forest} (same : f.events = g.events) : f = g := by
  have closed : f.events ++ [.closeNode] = g.events ++ [.closeNode] := by rw [same]
  exact (events_closed_inj closed).1

namespace Assembly

def openedEvents (opened : List OpenNode) : List TreeEvent :=
  opened.reverse.flatMap fun o => .openNode o.kind :: o.inner.events

theorem openedEvents_cons (o : OpenNode) (opened : List OpenNode) :
    openedEvents (o :: opened) = openedEvents opened ++ .openNode o.kind :: o.inner.events := by
  simp [openedEvents]

def openedBytes (opened : List OpenNode) : Nat := total (fun o => o.inner.byteLength) opened

def rootEvents (root : OpenNode) : List TreeEvent :=
  .openNode root.kind :: root.inner.events ++ [.closeNode]

theorem le_byteLength_of_isBoundary {text : Text} {n : Nat} (h : text.isBoundary n = true) :
    n ≤ text.byteLength := by
  obtain ⟨a, b, rfl, rfl⟩ := (Text.isBoundary_iff _ _).mp h
  simp

theorem cover_eq_ok {text : Text} {covered more : Nat} {lengths : List Nat}
    (ok : cover text covered lengths = .ok more) : more = covered + total id lengths := by
  induction lengths generalizing covered with
  | nil =>
      cases ok
      rfl
  | cons n lengths ih =>
      simp only [cover] at ok
      split at ok
      · contradiction
      · split at ok
        · rw [ih ok, total_cons, Nat.add_assoc]
          rfl
        · contradiction

theorem cover_append (text : Text) (covered : Nat) (lengths more : List Nat) :
    cover text covered (lengths ++ more) =
      cover text covered lengths >>= fun covered => cover text covered more := by
  induction lengths generalizing covered with
  | nil => rfl
  | cons n lengths ih =>
      rw [List.cons_append, cover, cover]
      split
      · rfl
      · split
        · exact ih _
        · rfl

theorem total_pieceLengths (l : Leaf) : total id (pieceLengths l) = l.byteLength := by
  simp [pieceLengths, Leaf.byteLength, Piece.lengthOf, total_map, Nat.add_assoc]

@[simp] theorem index_eq_ok {n : Nat} {u : Unit} : index n = .ok u ↔ n < offsetLimit := by
  unfold index
  split <;> simp [*]

theorem index_eq_error {α : Type} {n : Nat} {f : Unit → Except AssemblyError α} {e : AssemblyError}
    (refused : index n >>= f = .error e) : e = .tooLarge ∨ f () = .error e := by
  unfold index at refused
  split at refused
  · exact .inr refused
  · cases refused
    exact .inl rfl

end Assembly

namespace Counts

open Assembly

-- All that is counted has a number.
structure Numbered (c : Counts) : Prop where
  nodes : c.nodes < offsetLimit
  tokens : c.tokens < offsetLimit
  children : c.children < offsetLimit

variable {c c' : Counts}

theorem openNode_eq_ok {isSecond : Bool} : c.openNode isSecond = .ok c' ↔
    isSecond = false ∧ c.tokens < offsetLimit ∧ c.nodes + 1 < offsetLimit ∧
      { c with nodes := c.nodes + 1 } = c' := by
  simp only [openNode, bind_eq_ok_iff, index_eq_ok, exists_const]
  cases isSecond with
  | true => simp
  | false =>
      simp only [Bool.false_eq_true, if_false, bind_eq_ok_iff, index_eq_ok, exists_const, true_and]
      split
      · next room =>
          simp only [pure, Except.pure, Except.ok.injEq, room, true_and]
          refine ⟨And.right, fun h => ⟨by omega, h⟩⟩
      · next full => simp [full]

theorem closeNode_eq_ok {width : Nat} : c.closeNode width = .ok c' ↔
    Numbered { c with children := c.children + width } ∧
      { c with children := c.children + width } = c' := by
  simp only [closeNode, bind_eq_ok_iff, index_eq_ok, exists_const, pure, Except.pure, Except.ok.injEq]
  constructor
  · rintro ⟨-, tokens, nodes, children, same⟩
    exact ⟨⟨nodes, tokens, children⟩, same⟩
  · rintro ⟨⟨nodes, tokens, children⟩, same⟩
    exact ⟨Nat.lt_of_le_of_lt (Nat.le_add_right _ _) children, tokens, nodes, children, same⟩

theorem token_eq_ok {text : Text} {covered more : Nat} {l : Leaf} :
    c.token text covered l = .ok (more, c') ↔
      cover text covered (pieceLengths l) = .ok more ∧ c.tokens + l.leading.length < offsetLimit ∧
        l.trailing.length < offsetLimit ∧ { c with tokens := c.tokens + l.tokenCount } = c' := by
  have split : pieceLengths l =
      l.leading.map Piece.length ++ ([l.length] ++ l.trailing.map Piece.length) := rfl
  simp only [token, split, cover_append, bind_eq_ok_iff, index_eq_ok, exists_const, pure, Except.pure,
    Except.ok.injEq, Prod.mk.injEq]
  constructor
  · rintro ⟨before, front, leading, -, within, own, trailing, behind, back, rfl, same⟩
    exact ⟨⟨before, front, within, own, back⟩, leading, trailing, same⟩
  · rintro ⟨⟨before, front, within, own, back⟩, leading, trailing, same⟩
    exact ⟨before, front, leading, Nat.lt_of_le_of_lt (Nat.le_add_left _ _) leading, within, own,
      trailing, more, back, rfl, same⟩

end Counts

namespace Assembly

theorem openNode_eq_ok {a b : Assembly} {k : Kind} (ok : a.openNode k = .ok b) :
    k.isNode = true ∧ (a.opened = [] → a.root = none) ∧
      b = { a with
        opened := ⟨k, .nil⟩ :: a.opened
        counts := { a.counts with nodes := a.counts.nodes + 1 } } := by
  unfold Assembly.openNode at ok
  split at ok
  · cases ok
  · next isNode =>
      obtain ⟨counts, numbered, rfl⟩ := map_eq_ok_iff.mp ok
      obtain ⟨first, -, -, rfl⟩ := Counts.openNode_eq_ok.mp numbered
      exact ⟨by simpa using isNode, by simpa using first, rfl⟩

theorem token_eq_ok {a b : Assembly} {l : Leaf} (ok : a.token l = .ok b) :
    ∃ current outer, a.opened = current :: outer ∧
      b = { a with
        opened := { current with inner := current.inner ++ .leaf l .nil } :: outer
        covered := a.covered + l.byteLength
        counts := { a.counts with tokens := a.counts.tokens + l.tokenCount } } := by
  unfold Assembly.token at ok
  split at ok
  · contradiction
  · split at ok
    · contradiction
    · next current outer isOpen =>
        obtain ⟨⟨more, counts⟩, numbered, rfl⟩ := map_eq_ok_iff.mp ok
        obtain ⟨fits, -, -, rfl⟩ := Counts.token_eq_ok.mp numbered
        rw [cover_eq_ok fits, total_pieceLengths]
        exact ⟨current, outer, isOpen, rfl⟩

theorem closeNode_eq_ok {a b : Assembly} (ok : a.closeNode = .ok b) :
    ∃ closed outer, a.opened = closed :: outer ∧
      b = { a with
        opened := match outer with
          | [] => []
          | around :: more => ⟨around.kind, around.inner ++ .node closed.kind closed.inner .nil⟩ :: more
        root := if outer = [] then some closed else a.root
        counts := { a.counts with children := a.counts.children + closed.inner.width } } := by
  unfold Assembly.closeNode at ok
  split at ok
  · contradiction
  · next closed outer isOpen =>
      obtain ⟨counts, numbered, rfl⟩ := map_eq_ok_iff.mp ok
      obtain ⟨-, rfl⟩ := Counts.closeNode_eq_ok.mp numbered
      refine ⟨closed, outer, isOpen, ?_⟩
      cases outer <;> rfl

/-- The assembly has been given the events, and no node is open beside a closed root. -/
inductive Given (text : Text) : Assembly → List TreeEvent → Prop where
  | opened {opened : List OpenNode} {covered : Nat} {counts : Counts}
      (bytes : covered = openedBytes opened) :
      Given text ⟨text, opened, none, covered, counts⟩ (openedEvents opened)
  | closed {root : OpenNode} {covered : Nat} {counts : Counts}
      (bytes : covered = root.inner.byteLength) :
      Given text ⟨text, [], some root, covered, counts⟩ (rootEvents root)

variable {text : Text} {a b : Assembly} {events : List TreeEvent}

theorem Given.openNode {kind : Kind} (given : Given text a events) (ok : a.openNode kind = .ok b) :
    Given text b (events ++ [.openNode kind]) := by
  obtain ⟨-, first, rfl⟩ := openNode_eq_ok ok
  cases given with
  | closed => cases first rfl
  | @opened opened covered _ bytes =>
      have more : covered = openedBytes (⟨kind, .nil⟩ :: opened) := by
        simp [openedBytes, Forest.byteLength, bytes]
      have after (counts : Counts) : Given text ⟨_, _, none, covered, counts⟩ _ := .opened more
      simpa only [openedEvents_cons, Forest.events] using after _

theorem Given.closeNode (given : Given text a events) (ok : a.closeNode = .ok b) :
    Given text b (events ++ [.closeNode]) := by
  obtain ⟨closed, outer, isOpen, rfl⟩ := closeNode_eq_ok ok
  cases given with
  | closed => cases isOpen
  | @opened opened covered _ bytes =>
      obtain rfl : opened = closed :: outer := isOpen
      cases outer with
      | nil =>
          have events : openedEvents [closed] ++ [.closeNode] = rootEvents closed := by
            simp [openedEvents, rootEvents]
          rw [events]
          exact .closed (by simpa [openedBytes] using bytes)
      | cons outer more =>
          have same : covered = openedBytes
              (⟨outer.kind, outer.inner ++ .node closed.kind closed.inner .nil⟩ :: more) := by
            simp only [openedBytes, total_cons, Forest.byteLength_append,
              Forest.byteLength] at bytes ⊢
            omega
          have after (counts : Counts) : Given text ⟨_, _, none, covered, counts⟩ _ := .opened same
          simp only [openedEvents_cons, Forest.events_append, Forest.events] at after ⊢
          simpa using after _

theorem Given.token {l : Leaf} (given : Given text a events) (ok : a.token l = .ok b) :
    Given text b (events ++ [.token l]) := by
  obtain ⟨current, outer, isOpen, rfl⟩ := token_eq_ok ok
  cases given with
  | closed => contradiction
  | opened bytes =>
      subst isOpen
      have more : openedBytes (current :: outer) + l.byteLength =
          openedBytes ({ current with inner := current.inner ++ .leaf l .nil } :: outer) := by
        simp only [openedBytes, total_cons, Forest.byteLength_append,
          Forest.byteLength]
        omega
      have after (counts : Counts) : Given text ⟨_, _, none, _, counts⟩ _ :=
        .opened (bytes ▸ more)
      simp only [openedEvents_cons, Forest.events_append, Forest.events] at after ⊢
      simpa using after _

theorem Given.step {event : TreeEvent} (given : Given text a events) (ok : a.step event = .ok b) :
    Given text b (events ++ [event]) := by
  cases event with
  | openNode kind => exact given.openNode ok
  | token l => exact given.token ok
  | closeNode => exact given.closeNode ok

theorem Given.run {more : List TreeEvent} (given : Given text a events)
    (ok : more.foldlM Assembly.step a = .ok b) : Given text b (events ++ more) := by
  induction more generalizing a events with
  | nil =>
      cases ok
      simpa using given
  | cons event more ih =>
      rw [List.foldlM_cons] at ok
      obtain ⟨next, stepped, ok⟩ := bind_eq_ok_iff.mp ok
      have rest := ih (given.step stepped) ok
      rwa [List.append_assoc] at rest

-- An accepted list of events walks through one root with a forest inside, which covers the text,
-- and the tree is that of the root.
theorem run_eq_ok {t : SyntaxTree} (ok : run text events = .ok t) :
    ∃ kind inner, events = .openNode kind :: inner.events ++ [.closeNode] ∧
      inner.byteLength = text.byteLength ∧ t = .ofRoot text kind inner := by
  rw [run] at ok
  obtain ⟨last, folded, done⟩ := bind_eq_ok_iff.mp ok
  have begun : Given text (start text) (openedEvents []) := .opened rfl
  have given := begun.run folded
  rw [show openedEvents [] = [] from rfl, List.nil_append] at given
  cases given with
  | @opened opened covered _ _ => cases opened <;> simp [finish] at done
  | @closed root covered _ bytes =>
      simp only [finish] at done
      split at done
      · next whole =>
          cases done
          exact ⟨root.kind, root.inner, rfl, bytes ▸ whole, rfl⟩
      · contradiction

end Assembly

end LosslessTree
