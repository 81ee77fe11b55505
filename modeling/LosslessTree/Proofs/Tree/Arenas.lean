import LosslessTree.Proofs.Tree.Acceptance
import LosslessTree.Proofs.Tree.Embedding
import LosslessTree.Tree.Arena

set_option autoImplicit false

namespace LosslessTree

theorem Piece.entries_length {parent offset : Nat} {pieces : List Piece} :
    (Piece.entries parent offset pieces).length = pieces.length := by
  induction pieces generalizing offset with
  | nil => rfl
  | cons p pieces ih => simp [entries, ih]

theorem Piece.trailingEntries_length {parent offset : Nat} {pieces : List Piece} :
    (Piece.trailingEntries parent offset pieces).length = pieces.length := by
  cases pieces with
  | nil => rfl
  | cons p pieces => simp [trailingEntries, entries_length]

theorem Leaf.entries_length {parent offset : Nat} {l : Leaf} :
    (l.entries parent offset).length = l.tokenCount := by
  simp only [entries, List.length_append, List.length_cons, Piece.entries_length,
    Piece.trailingEntries_length, tokenCount]
  omega

def SameOutcome {ε α β : Type} (R : α → β → Prop) : Except ε α → Except ε β → Prop
  | .ok a, .ok b => R a b
  | .error e, .error e' => e = e'
  | _, _ => False

namespace ArenaBuilder

-- How many elements the open nodes have, with the open node that is the last one of each.
def pendingWidths : List OpenNode → List Nat
  | [] => []
  | current :: outer => current.inner.width :: outer.map fun o => o.inner.width + 1

-- As far as acceptance goes the two are in the same state.
structure Alike (b : ArenaBuilder) (a : Assembly) : Prop where
  text : b.arena.text = a.text
  covered : b.covered = a.covered
  counts : b.counts = a.counts
  widths : b.opened.map (fun o => o.2.length) = pendingWidths a.opened
  empty : b.arena.nodes = [] ↔ a.opened = [] ∧ a.root = none

theorem widths_eq_nil {opened : List OpenNode} (h : pendingWidths opened = []) : opened = [] := by
  cases opened with
  | nil => rfl
  | cons => cases h

theorem widths_eq_cons {opened : List OpenNode} {n : Nat} {more : List Nat} (h : pendingWidths opened = n :: more) :
    ∃ top outer, opened = top :: outer ∧ top.inner.width = n ∧
      outer.map (fun o => o.inner.width + 1) = more := by
  cases opened with
  | nil => cases h
  | cons top outer => exact ⟨top, outer, rfl, List.cons.inj h⟩

variable {b : ArenaBuilder} {a : Assembly}

theorem SameOutcome.map {ε α β γ : Type} {R : α → β → Prop} {x : Except ε γ} {f : γ → α} {g : γ → β}
    (same : ∀ c, x = .ok c → R (f c) (g c)) : SameOutcome R (x.map f) (x.map g) := by
  cases x with
  | error e => rfl
  | ok c => exact same c rfl

theorem SameOutcome.bind {ε α β α' β' : Type} {R : α → β → Prop} {S : α' → β' → Prop}
    {x : Except ε α} {y : Except ε β} {f : α → Except ε α'} {g : β → Except ε β'}
    (h : SameOutcome R x y) (next : ∀ a b, R a b → SameOutcome S (f a) (g b)) :
    SameOutcome S (x >>= f) (y >>= g) := by
  cases x with
  | error e =>
      cases y with
      | error e' => exact h
      | ok b => exact h.elim
  | ok a =>
      cases y with
      | error e' => exact h.elim
      | ok b => exact next a b h

theorem Alike.openNode (h : b.Alike a) (kind : Kind) :
    SameOutcome Alike (b.openNode kind) (a.openNode kind) := by
  obtain ⟨arena, opened, covered⟩ := b
  obtain ⟨text, opened', root, covered', counts⟩ := a
  obtain ⟨text_, covered_, rfl, widths, empty⟩ := h
  simp only at text_ covered_ widths empty
  simp only [ArenaBuilder.openNode, Assembly.openNode]
  split
  · rfl
  cases opened with
  | nil =>
      obtain rfl := widths_eq_nil widths.symm
      have second : (!arena.nodes.isEmpty) = root.isSome := by
        cases root <;> simp_all
      simp only [second, List.isEmpty_nil, Bool.true_and]
      apply SameOutcome.map
      intro c ok
      obtain ⟨-, -, -, rfl⟩ := Counts.openNode_eq_ok.mp ok
      exact ⟨text_, covered_, by simp [push, ArenaBuilder.counts], by simp [push, pendingWidths, Forest.width],
        by simp [push]⟩
  | cons top outer =>
      obtain ⟨top', outer', rfl, first, others⟩ := widths_eq_cons widths.symm
      simp only [List.isEmpty_cons, Bool.false_and]
      apply SameOutcome.map
      intro c ok
      obtain ⟨-, -, -, rfl⟩ := Counts.openNode_eq_ok.mp ok
      exact ⟨text_, covered_, by simp [push, ArenaBuilder.counts],
        by simp [push, pendingWidths, first, others, Forest.width], by simp [push]⟩

theorem Alike.closeNode (h : b.Alike a) : SameOutcome Alike b.closeNode a.closeNode := by
  obtain ⟨arena, opened, covered⟩ := b
  obtain ⟨text, opened', root, covered', counts⟩ := a
  obtain ⟨text_, covered_, rfl, widths, empty⟩ := h
  simp only at text_ covered_ widths empty
  cases opened with
  | nil =>
      obtain rfl := widths_eq_nil widths.symm
      rfl
  | cons top outer =>
      obtain ⟨top', outer', rfl, first, others⟩ := widths_eq_cons widths.symm
      have filled : arena.nodes ≠ [] := by simp [empty]
      simp only [ArenaBuilder.closeNode, Assembly.closeNode, first]
      apply SameOutcome.map
      intro c ok
      obtain ⟨-, rfl⟩ := Counts.closeNode_eq_ok.mp ok
      cases outer' with
      | nil =>
          exact ⟨text_, covered_, by simp [ArenaBuilder.counts], others.symm,
            by simp [filled]⟩
      | cons o more =>
          exact ⟨text_, covered_, by simp [ArenaBuilder.counts],
            by simpa [pendingWidths, Forest.width] using others.symm, by simp [filled]⟩

theorem Alike.token (h : b.Alike a) (l : Leaf) : SameOutcome Alike (b.token l) (a.token l) := by
  obtain ⟨arena, opened, covered⟩ := b
  obtain ⟨text, opened', root, covered', counts⟩ := a
  obtain ⟨text_, covered_, rfl, widths, empty⟩ := h
  simp only at text_ covered_ widths empty
  subst text_ covered_
  simp only [ArenaBuilder.token, Assembly.token]
  split
  · rfl
  cases opened with
  | nil =>
      obtain rfl := widths_eq_nil widths.symm
      rfl
  | cons top outer =>
      obtain ⟨top', outer', rfl, first, others⟩ := widths_eq_cons widths.symm
      apply SameOutcome.map
      rintro ⟨more, c⟩ ok
      obtain ⟨-, -, -, rfl⟩ := Counts.token_eq_ok.mp ok
      exact ⟨rfl, rfl, by simp [ArenaBuilder.counts, Leaf.entries_length],
        by simp [pendingWidths, first, others, Forest.width], by simpa using empty⟩

theorem Alike.step (h : b.Alike a) (event : TreeEvent) :
    SameOutcome Alike (b.step event) (a.step event) := by
  cases event with
  | openNode kind => exact h.openNode kind
  | token l => exact h.token l
  | closeNode => exact h.closeNode

theorem Alike.run (h : b.Alike a) (events : List TreeEvent) :
    SameOutcome Alike (events.foldlM ArenaBuilder.step b) (events.foldlM Assembly.step a) := by
  induction events generalizing b a with
  | nil => exact h
  | cons event events ih =>
      rw [List.foldlM_cons, List.foldlM_cons]
      exact SameOutcome.bind (h.step event) fun _ _ next => ih next

theorem Alike.finish (h : b.Alike a) : SameOutcome (fun _ _ => True) b.finish a.finish := by
  obtain ⟨arena, opened, covered⟩ := b
  obtain ⟨text, opened', root, covered', counts⟩ := a
  obtain ⟨text_, covered_, -, widths, empty⟩ := h
  simp only at text_ covered_ widths empty
  subst text_ covered_
  cases opened with
  | cons top outer =>
      obtain ⟨top', outer', rfl, first, others⟩ := widths_eq_cons widths.symm
      rfl
  | nil =>
      obtain rfl := widths_eq_nil widths.symm
      cases root with
      | none =>
          have none : arena.nodes = [] := by simp [empty]
          simp [ArenaBuilder.finish, Assembly.finish, none, SameOutcome]
      | some root =>
          have filled : arena.nodes.isEmpty = false := by simp [empty]
          simp only [ArenaBuilder.finish, Assembly.finish, filled]
          by_cases whole : covered = arena.text.byteLength
          · simp [whole, SameOutcome]
          · simp [whole, SameOutcome]

theorem run_both (text : Text) (events : List TreeEvent) :
    SameOutcome (fun _ _ => True) (run text events) (Assembly.run text events) := by
  have begun : (start text).Alike (Assembly.start text) :=
    ⟨rfl, rfl, rfl, rfl, by simp [start, Assembly.start]⟩
  exact SameOutcome.bind (begun.run events) fun _ _ done => done.finish

end ArenaBuilder

-- What the events of a forest add to the lists of an arena, and the forest's own elements as
-- children of the node around it.
structure Filling where
  nodes : List ArenaNode
  tokens : List ArenaToken
  slots : List Child
  children : List Child

def Forest.filling (parent : Nat) (p : Place) (slot : Nat) : Forest → Filling
  | nil => ⟨[], [], [], []⟩
  | leaf l rest =>
      let more := rest.filling parent (p.afterLeaf l) slot
      ⟨more.nodes, l.entries parent p.offset ++ more.tokens, more.slots,
        .token (p.token + 1 + l.leading.length) :: more.children⟩
  | node kind inner rest =>
      let within := inner.filling p.node p.inside slot
      let first := slot + within.slots.length
      let behind := first + within.children.length
      let more := rest.filling parent (p.inside.after inner) behind
      ⟨⟨kind, some parent, ⟨first, behind⟩, ⟨p.token + 1, p.token + 1 + inner.tokenCount⟩,
          p.node + 1 + inner.nodeCount⟩ :: within.nodes ++ more.nodes,
        within.tokens ++ more.tokens, within.slots ++ within.children ++ more.slots,
        .node p.node :: more.children⟩

namespace Forest

variable {parent slot : Nat} {p : Place} {f : Forest}

theorem filling_nodes_length : (f.filling parent p slot).nodes.length = f.nodeCount := by
  induction f generalizing parent p slot with
  | nil => rfl
  | leaf l rest ih => simp [filling, nodeCount, ih]
  | node k inner rest hi hr =>
      simp only [filling, nodeCount, List.length_append, List.length_cons, hi, hr]
      omega

theorem filling_tokens_length : (f.filling parent p slot).tokens.length = f.tokenCount := by
  induction f generalizing parent p slot with
  | nil => rfl
  | leaf l rest ih => simp [filling, tokenCount, ih, Leaf.entries_length]
  | node k inner rest hi hr => simp [filling, tokenCount, hi, hr]

theorem filling_children_length : (f.filling parent p slot).children.length = f.width := by
  induction f generalizing parent p slot with
  | nil => rfl
  | leaf l rest ih => simp [filling, width, ih, Nat.add_comm]
  | node k inner rest _ hr => simp [filling, width, hr, Nat.add_comm]

theorem filling_slots_length : (f.filling parent p slot).slots.length = f.slotCount := by
  induction f generalizing parent p slot with
  | nil => rfl
  | leaf l rest ih => simp [filling, slotCount, ih]
  | node k inner rest hi hr => simp [filling, slotCount, hi, hr, filling_children_length, Nat.add_assoc]

end Forest

def Arena.ofRoot (text : Text) (kind : Kind) (inner : Forest) : Arena :=
  let within := inner.filling 0 ⟨1, 0, 0⟩ 0
  let first := within.slots.length
  { text := text
    nodes := ⟨kind, none, ⟨first, first + within.children.length⟩, ⟨1, 1 + inner.tokenCount⟩,
      1 + inner.nodeCount⟩ :: within.nodes
    tokens := ⟨.tombstone, .none, 0, 0⟩ :: within.tokens
    children := within.slots ++ within.children }

namespace ArenaBuilder

theorem foldlM_of_step {b b' : ArenaBuilder} {event : TreeEvent} {events : List TreeEvent}
    (stepped : b.step event = .ok b') : (event :: events).foldlM step b = events.foldlM step b' := by
  rw [List.foldlM_cons, stepped]
  rfl

theorem foldlM_of_append {b b' : ArenaBuilder} {events more : List TreeEvent}
    (folded : events.foldlM step b = .ok b') : (events ++ more).foldlM step b = more.foldlM step b' := by
  rw [List.foldlM_append, folded]
  rfl

-- Only the node that is closed changes, wherever it stands.
theorem modify_behind {α : Type} (before : List α) (x : α) (behind : List α) (f : α → α) :
    (before ++ x :: behind).modify before.length f = before ++ f x :: behind := by
  induction before with
  | nil => rfl
  | cons y before ih => simp [ih]

variable {text : Text} {nodes : List ArenaNode} {tokens : List ArenaToken} {slots : List Child}
  {outer : List (Nat × List Child)}

def opening (kind : Kind) (parent : Option Nat) (node token : Nat) : ArenaNode :=
  ⟨kind, parent, ⟨0, 0⟩, ⟨token, token⟩, node + 1⟩

theorem step_open {k : Kind} {n covered : Nat} {children : List Child} (isNode : k.isNode = true)
    (numbered : Counts.Numbered ⟨nodes.length + 1, tokens.length, slots.length⟩) :
    step ⟨⟨text, nodes, tokens, slots⟩, (n, children) :: outer, covered⟩ (.openNode k) =
      .ok ⟨⟨text, nodes ++ [opening k (some n) nodes.length tokens.length], tokens, slots⟩,
        (nodes.length, []) :: (n, children ++ [.node nodes.length]) :: outer, covered⟩ := by
  have counted : Counts.openNode ⟨nodes.length, tokens.length, slots.length⟩ false = .ok _ :=
    Counts.openNode_eq_ok.mpr ⟨rfl, numbered.tokens, numbered.nodes, rfl⟩
  simp [step, openNode, push, opening, isNode, counts, counted, Except.map]

theorem step_token {l : Leaf} {n covered more : Nat} {children : List Child}
    (isToken : l.kind.isNode = false) (fits : Assembly.cover text covered (Assembly.pieceLengths l) = .ok more)
    (numbered : Counts.Numbered ⟨nodes.length, tokens.length + l.tokenCount, slots.length⟩) :
    step ⟨⟨text, nodes, tokens, slots⟩, (n, children) :: outer, covered⟩ (.token l) =
      .ok ⟨⟨text, nodes, tokens ++ l.entries n covered, slots⟩,
        (n, children ++ [.token (tokens.length + l.leading.length)]) :: outer, more⟩ := by
  have counted := (Counts.token_cases ⟨nodes.length, tokens.length, slots.length⟩ fits).resolve_right
    fun ⟨_, _, why⟩ => why.unnumbered numbered
  simp [step, token, isToken, counts, counted, Except.map]

theorem step_close {x : ArenaNode} {below : List ArenaNode} {children : List Child} {covered : Nat}
    (numbered : Counts.Numbered
      ⟨(nodes ++ x :: below).length, tokens.length, slots.length + children.length⟩) :
    step ⟨⟨text, nodes ++ x :: below, tokens, slots⟩, (nodes.length, children) :: outer, covered⟩
        .closeNode =
      .ok ⟨⟨text, nodes ++ close ⟨text, nodes ++ x :: below, tokens, slots⟩ children x :: below, tokens,
        slots ++ children⟩, outer, covered⟩ := by
  have counted : Counts.closeNode ⟨(nodes ++ x :: below).length, tokens.length, slots.length⟩
      children.length = .ok _ := Counts.closeNode_eq_ok.mpr ⟨numbered, rfl⟩
  simp only [step, closeNode, counts, counted, Except.map, modify_behind]

theorem foldlM_events {f : Forest} (sorted : f.Sorted) {n : Nat} {children : List Child}
    {covered more : Nat} {p : Place}
    (fits : Assembly.cover text covered f.pieceLengths = .ok more)
    (numbered : (Counts.after ⟨nodes.length, tokens.length, slots.length⟩ f).Numbered)
    (nodeAt : nodes.length = p.node) (tokenAt : tokens.length = p.token + 1)
    (byteAt : covered = p.offset) :
    f.events.foldlM step ⟨⟨text, nodes, tokens, slots⟩, (n, children) :: outer, covered⟩ =
      .ok ⟨⟨text, nodes ++ (f.filling n p slots.length).nodes,
          tokens ++ (f.filling n p slots.length).tokens,
          slots ++ (f.filling n p slots.length).slots⟩,
        (n, children ++ (f.filling n p slots.length).children) :: outer, more⟩ := by
  induction f generalizing nodes tokens slots outer n children covered more p with
  | nil =>
      cases fits
      simp [Forest.events, Forest.filling, pure, Except.pure]
  | leaf l rest ih =>
      obtain ⟨between, own, behind⟩ := Assembly.cover_append_eq_ok fits
      have reached : between = covered + l.byteLength := by
        rw [Assembly.cover_eq_ok own, Assembly.total_pieceLengths]
      rw [Counts.after_leaf] at numbered
      have taken : step ⟨⟨text, nodes, tokens, slots⟩, (n, children) :: outer, covered⟩ (.token l) = _ :=
        step_token sorted.1 own (numbered.of_within (Counts.within_after _ _))
      rw [Forest.events, foldlM_of_step taken, ih (p := p.afterLeaf l) sorted.2 behind]
      · simp [Forest.filling, tokenAt, byteAt]
      · simpa [Leaf.entries_length] using numbered
      · exact nodeAt
      · simp only [List.length_append, Leaf.entries_length, tokenAt, Place.afterLeaf]
        omega
      · rw [reached, byteAt]
        rfl
  | node k inner rest hi hr =>
      obtain ⟨isNode, below, behind⟩ := sorted
      have split : (Forest.node k inner rest).pieceLengths =
          inner.pieceLengths ++ rest.pieceLengths := List.flatMap_append
      obtain ⟨between, inside, after⟩ := Assembly.cover_append_eq_ok (split ▸ fits)
      have reached : between = covered + inner.byteLength := by
        rw [Assembly.cover_eq_ok inside, Forest.total_pieceLengths]
      rw [Counts.after_node] at numbered
      have closed := numbered.of_within (Counts.within_after _ _)
      have filled := closed.of_within (Counts.within_inside _ _)
      have opened := filled.of_within (Counts.within_after _ _)
      rw [Forest.events, List.cons_append, foldlM_of_step (step_open isNode opened),
        foldlM_of_append (hi (p := p.inside) below inside (by simpa using filled)
          (by simp [nodeAt, Place.inside]) tokenAt byteAt),
        List.append_assoc, List.singleton_append, foldlM_of_step (step_close ?_),
        hr (p := p.inside.after inner) behind after]
      · have subtree : nodes.length + (1 + inner.nodeCount) = nodes.length + 1 + inner.nodeCount := by
          omega
        simp [Forest.filling, close, opening, Forest.filling_nodes_length,
          Forest.filling_tokens_length, tokenAt, ← nodeAt, subtree, Nat.add_comm inner.nodeCount]
        simp only [Nat.add_assoc, and_self]
      · simpa [Counts.inside, Counts.after, Forest.filling_nodes_length, Forest.filling_tokens_length,
          Forest.filling_slots_length, Forest.filling_children_length, Nat.add_assoc,
          Nat.add_comm 1] using numbered
      · simp only [List.length_append, List.length_cons, Forest.filling_nodes_length, nodeAt,
          Place.after, Place.inside]
        omega
      · simp only [List.length_append, Forest.filling_tokens_length, tokenAt, Place.after,
          Place.inside]
        omega
      · rw [reached, byteAt]
        rfl
      · simpa [Counts.inside, Counts.after, Forest.filling_nodes_length, Forest.filling_tokens_length,
          Forest.filling_slots_length, Forest.filling_children_length, Nat.add_assoc,
          Nat.add_comm 1] using closed

theorem run_root {k : Kind} {f : Forest} (isNode : k.isNode = true) (sorted : f.Sorted)
    (fits : Assembly.cover text 0 f.pieceLengths = .ok text.byteLength)
    (numbered : (Counts.ofRoot f).Numbered) :
    run text (.openNode k :: f.events ++ [.closeNode]) = .ok (.ofRoot text k f) := by
  let root := opening k none 0 1
  let seed : ArenaToken := ⟨.tombstone, .none, 0, 0⟩
  let within := f.filling 0 ⟨1, 0, 0⟩ 0
  have counted : Counts.inside ⟨0, 1, 0⟩ f = Counts.ofRoot f := Counts.inside_root f
  have filled := (counted ▸ numbered).of_within (Counts.within_inside _ _)
  have opened : step (start text) (.openNode k) = .ok ⟨⟨text, [root], [seed], []⟩, [(0, [])], 0⟩ := by
    have counted : Counts.openNode ⟨0, 1, 0⟩ false = .ok _ :=
      Counts.openNode_eq_ok.mpr ⟨rfl, by decide, by decide, rfl⟩
    simp [step, openNode, push, start, root, opening, isNode, seed, counts, counted, Except.map]
  have added : f.events.foldlM step ⟨⟨text, [root], [seed], []⟩, [(0, [])], 0⟩ =
      .ok ⟨⟨text, root :: within.nodes, seed :: within.tokens, within.slots⟩, [(0, within.children)],
        text.byteLength⟩ :=
    foldlM_events (p := ⟨1, 0, 0⟩) sorted fits filled rfl rfl rfl
  rw [run, List.cons_append, foldlM_of_step opened, foldlM_of_append added]
  have closed := @step_close text [] (seed :: within.tokens) within.slots [] root within.nodes
    within.children text.byteLength
  rw [List.nil_append, List.length_nil] at closed
  rw [foldlM_of_step (closed ?_)]
  · simp [finish, bind, Except.bind, pure, Except.pure, Arena.ofRoot, close, opening, root, seed, within,
      Forest.filling_nodes_length, Forest.filling_tokens_length, Nat.add_comm]
  · simpa [Counts.ofRoot, within, Forest.filling_nodes_length, Forest.filling_tokens_length,
      Forest.filling_slots_length, Forest.filling_children_length, f.slotCount_add_width] using numbered

end ArenaBuilder

def ArenaToken.stopOf (offset : Nat) (tokens : List ArenaToken) : Nat :=
  tokens.foldl (fun _ t => t.stop) offset

namespace Piece

variable {parent offset : Nat} {pieces : List Piece} {rest : List ArenaToken}

theorem stopOf_entries :
    ArenaToken.stopOf offset (entries parent offset pieces) = offset + lengthOf pieces := by
  induction pieces generalizing offset with
  | nil => rfl
  | cons p pieces ih =>
      change ArenaToken.stopOf (offset + p.length) _ = _
      rw [ih, lengthOf, lengthOf, total_cons, Nat.add_assoc]

theorem stopOf_trailingEntries :
    ArenaToken.stopOf offset (trailingEntries parent offset pieces) = offset + lengthOf pieces := by
  cases pieces with
  | nil => rfl
  | cons p pieces =>
      change ArenaToken.stopOf (offset + p.length) (entries parent _ pieces) = _
      rw [stopOf_entries, lengthOf, lengthOf, total_cons, Nat.add_assoc]

theorem read_entries :
    ArenaToken.read offset (entries parent offset pieces ++ rest) =
      layout parent offset pieces ++ ArenaToken.read (offset + lengthOf pieces) rest := by
  induction pieces generalizing offset with
  | nil => rfl
  | cons p pieces ih =>
      simp only [entries, List.cons_append, ArenaToken.read, ih, layout, lengthOf, total_cons,
        Nat.add_assoc]
      rfl

theorem read_trailingEntries :
    ArenaToken.read offset (trailingEntries parent offset pieces ++ rest) =
      layout parent offset pieces ++ ArenaToken.read (offset + lengthOf pieces) rest := by
  cases pieces with
  | nil => rfl
  | cons p pieces =>
      simp only [trailingEntries, List.cons_append, ArenaToken.read, read_entries, layout, lengthOf,
        total_cons, Nat.add_assoc]
      rfl

end Piece

namespace Leaf

variable {parent offset : Nat} {l : Leaf} {rest : List ArenaToken}

theorem stopOf_entries :
    ArenaToken.stopOf offset (l.entries parent offset) = offset + l.byteLength := by
  rw [entries, ArenaToken.stopOf, List.foldl_append, List.foldl_cons]
  change ArenaToken.stopOf _ (Piece.trailingEntries _ _ _) = _
  rw [Piece.stopOf_trailingEntries, byteLength, Nat.add_assoc, Nat.add_assoc, Nat.add_assoc]

theorem read_entries :
    ArenaToken.read offset (l.entries parent offset ++ rest) =
      l.layout parent offset ++ ArenaToken.read (offset + l.byteLength) rest := by
  have leading : (if (!l.leading.isEmpty) = true then l.leading.length else 0) =
      l.leading.length := by
    cases l.leading <;> rfl
  have trailing (start : Nat) : (if (!l.trailing.isEmpty) = true then
      ((Piece.trailingEntries parent start l.trailing ++ rest).head?.map fun next =>
        next.attached.count).getD 0 else 0) = l.trailing.length := by
    cases l.trailing <;> rfl
  rw [entries, List.append_assoc, Piece.read_entries, List.cons_append, ArenaToken.read, leading,
    trailing, Piece.read_trailingEntries, layout, byteLength, List.append_assoc, List.cons_append,
    Nat.add_assoc, Nat.add_assoc, Nat.add_assoc]

end Leaf

namespace Forest

variable {parent slot : Nat} {p : Place} {f : Forest}

theorem stopOf_filling :
    ArenaToken.stopOf p.offset (f.filling parent p slot).tokens = p.offset + f.byteLength := by
  induction f generalizing parent p slot with
  | nil => rfl
  | leaf l rest ih =>
      have behind := @ih parent slot (p.afterLeaf l)
      have own : ArenaToken.stopOf p.offset (l.entries parent p.offset) = _ := Leaf.stopOf_entries
      rw [filling, ArenaToken.stopOf, List.foldl_append]
      change ArenaToken.stopOf (ArenaToken.stopOf _ _) _ = _
      rw [own, byteLength, ← Nat.add_assoc]
      exact behind
  | node k inner rest hi hr =>
      have below := @hi p.node slot p.inside
      rw [filling, ArenaToken.stopOf, List.foldl_append]
      change ArenaToken.stopOf (ArenaToken.stopOf p.inside.offset _) _ = _
      rw [below, byteLength, ← Nat.add_assoc]
      exact hr (p := p.inside.after inner)

theorem read_filling {rest : List ArenaToken} :
    ArenaToken.read p.offset ((f.filling parent p slot).tokens ++ rest) =
      (f.layout parent p).tokens ++ ArenaToken.read (p.offset + f.byteLength) rest := by
  induction f generalizing parent p slot rest with
  | nil => rfl
  | leaf l behind ih =>
      rw [filling, List.append_assoc, Leaf.read_entries, layout, byteLength, List.append_assoc,
        ← Nat.add_assoc]
      exact congrArg _ (ih (p := p.afterLeaf l))
  | node k inner behind hi hr =>
      rw [filling, List.append_assoc, layout, byteLength, List.append_assoc, ← Nat.add_assoc]
      refine (hi (p := p.inside)).trans (congrArg _ ?_)
      exact hr (p := p.inside.after inner)

theorem unseeded_filling :
    (f.filling parent p slot).children.map Child.unseeded = (f.layout parent p).children := by
  induction f generalizing parent p slot with
  | nil => rfl
  | leaf l rest ih =>
      have index : p.token + 1 + l.leading.length - 1 = p.token + l.leading.length := by omega
      simp [filling, layout, ih, Child.unseeded, index]
  | node k inner rest hi hr => simp [filling, layout, hr, Child.unseeded]

end Forest

namespace Arena

variable {a : Arena}

theorem tokenStop_behind {tokens : List ArenaToken} {i offset : Nat}
    (start : a.tokenStop i = offset) (here : tokens <+: a.tokens.drop (i + 1)) :
    a.tokenStop (i + tokens.length) = ArenaToken.stopOf offset tokens := by
  induction tokens generalizing i offset with
  | nil => exact start
  | cons t tokens ih =>
      have own : a.tokenStop (i + 1) = t.stop := by
        rw [tokenStop, getD_of_prefix_drop default here]
      have behind := ih own (prefix_drop_tail here)
      rw [List.length_cons, ← Nat.add_assoc, Nat.add_right_comm]
      exact behind

structure Holds (a : Arena) (parent : Nat) (p : Place) (slot : Nat) (f : Forest) : Prop where
  tokens : (f.filling parent p slot).tokens <+: a.tokens.drop (p.token + 1)
  slots : (f.filling parent p slot).slots <+: a.children.drop slot
  start : a.tokenStop p.token = p.offset

variable {parent slot : Nat} {p : Place} {f : Forest}

theorem Holds.stop (h : a.Holds parent p slot f) :
    a.tokenStop (p.token + f.tokenCount) = p.offset + f.byteLength := by
  have behind := tokenStop_behind h.start h.tokens
  rwa [Forest.filling_tokens_length, Forest.stopOf_filling] at behind

theorem Holds.leaf {l : Leaf} {rest : Forest} (h : a.Holds parent p slot (.leaf l rest)) :
    a.Holds parent (p.afterLeaf l) slot rest := by
  obtain ⟨own, behind⟩ := prefix_drop_append h.tokens
  rw [Leaf.entries_length, Nat.add_right_comm] at behind
  refine ⟨behind, h.slots, ?_⟩
  have stop := tokenStop_behind h.start own
  rwa [Leaf.entries_length, Leaf.stopOf_entries] at stop

theorem Holds.node {k : Kind} {inner rest : Forest} (h : a.Holds parent p slot (.node k inner rest)) :
    let within := inner.filling p.node p.inside slot
    let first := slot + within.slots.length
    a.Holds p.node p.inside slot inner ∧ within.children <+: a.children.drop first ∧
      a.Holds parent (p.inside.after inner) (first + within.children.length) rest := by
  obtain ⟨below, behind⟩ := prefix_drop_append h.tokens
  obtain ⟨first, slots⟩ := prefix_drop_append h.slots
  obtain ⟨closed, own⟩ := prefix_drop_append first
  have index : p.token + 1 + inner.tokenCount = p.token + inner.tokenCount + 1 := by omega
  rw [Forest.filling_tokens_length, index] at behind
  rw [List.length_append, ← Nat.add_assoc] at slots
  have within : a.Holds p.node p.inside slot inner := ⟨below, closed, h.start⟩
  exact ⟨within, own, behind, slots, within.stop⟩

theorem bytes_of_stops {tokens start length count : Nat} (starts : a.tokenStop tokens = start)
    (stops : a.tokenStop (tokens + count) = start + length) :
    a.bytes ⟨tokens + 1, tokens + 1 + count⟩ = ⟨start, start + length⟩ := by
  have behind : tokens + 1 + count - 1 = tokens + count := by omega
  simp only [bytes, Nat.add_sub_cancel, starts, behind, stops]
  split
  · next none =>
      have none : count = 0 := by omega
      rw [none, Nat.add_zero, starts] at stops
      rw [← stops]
  · rfl

theorem slice_of_prefix {children : List Child} {first : Nat}
    (here : children <+: a.children.drop first) :
    a.slice ⟨first, first + children.length⟩ = children := by
  rw [slice, Nat.add_sub_cancel_left]
  exact (List.prefix_iff_eq_take.mp here).symm

theorem Holds.nodes (h : a.Holds parent p slot f) :
    (f.filling parent p slot).nodes.map a.nodeData = (f.layout parent p).nodes := by
  induction f generalizing parent p slot with
  | nil => rfl
  | leaf l rest ih => exact ih h.leaf
  | node k inner rest hi hr =>
      obtain ⟨within, own, behind⟩ := h.node
      have index : p.token + 1 + inner.tokenCount - 1 = p.token + inner.tokenCount := by omega
      simp only [Forest.filling, Forest.layout, List.map_cons, List.map_append, List.cons_append,
        hi within, hr behind, nodeData, slice_of_prefix own, Forest.unseeded_filling,
        bytes_of_stops h.start within.stop, Nat.add_sub_cancel, index]
      rfl

theorem ofRoot_tree (text : Text) (k : Kind) (f : Forest) :
    (ofRoot text k f).tree = .ofRoot text k f := by
  have holds : (ofRoot text k f).Holds 0 ⟨1, 0, 0⟩ 0 f :=
    ⟨List.prefix_rfl, List.prefix_append _ _, rfl⟩
  have own : (f.filling 0 ⟨1, 0, 0⟩ 0).children <+:
      (ofRoot text k f).children.drop (f.filling 0 ⟨1, 0, 0⟩ 0).slots.length := by
    simp [ofRoot]
  have tokens := @Forest.read_filling 0 0 ⟨1, 0, 0⟩ f []
  have root : (ofRoot text k f).nodeData ⟨k, none, ⟨(f.filling 0 ⟨1, 0, 0⟩ 0).slots.length,
      (f.filling 0 ⟨1, 0, 0⟩ 0).slots.length + (f.filling 0 ⟨1, 0, 0⟩ 0).children.length⟩,
        ⟨1, 1 + f.tokenCount⟩, 1 + f.nodeCount⟩ =
      .around none ⟨0, 0, 0⟩ k f (f.layout 0 ⟨1, 0, 0⟩).children := by
    have bytes := bytes_of_stops holds.start holds.stop
    simp only [Nat.zero_add] at bytes
    simp [nodeData, slice_of_prefix own, Forest.unseeded_filling, bytes, NodeData.around]
  rw [tree, SyntaxTree.ofRoot]
  simp only [List.append_nil, ArenaToken.read] at tokens
  simp only [SyntaxTree.mk.injEq]
  refine ⟨rfl, congrArg List.toArray ?_, congrArg List.toArray tokens⟩
  exact congr (congrArg List.cons root) holds.nodes

end Arena

-- An arena is filled where an assembly builds a tree, and keeps that tree.
theorem ArenaBuilder.run_tree (text : Text) (events : List TreeEvent) :
    (run text events).map Arena.tree = Assembly.run text events := by
  have both := run_both text events
  cases built : Assembly.run text events with
  | error e =>
      rw [built] at both
      cases filled : run text events with
      | error e' =>
          rw [filled] at both
          exact congrArg Except.error both
      | ok a =>
          rw [filled] at both
          exact both.elim
  | ok t =>
      obtain ⟨k, f, rfl, rfl, isNode, sorted, fits, numbered⟩ := Assembly.root_of_run built
      rw [run_root isNode sorted fits numbered]
      exact congrArg Except.ok (Arena.ofRoot_tree text k f)

end LosslessTree
