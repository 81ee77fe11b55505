import LosslessTree.Proofs.Tree.History

set_option autoImplicit false

namespace LosslessTree

namespace Forest

def Sorted : Forest → Prop
  | nil => True
  | leaf l rest => l.kind.isNode = false ∧ rest.Sorted
  | node k inner rest => k.isNode = true ∧ inner.Sorted ∧ rest.Sorted

theorem Sorted.append {f g : Forest} (sorted : f.Sorted) (more : g.Sorted) : (f ++ g).Sorted := by
  induction f with
  | nil => exact more
  | leaf l rest ih => exact ⟨sorted.1, ih sorted.2⟩
  | node k inner rest _ ih => exact ⟨sorted.1, sorted.2.1, ih sorted.2.2⟩

def pieceLengths (f : Forest) : List Nat := f.leaves.flatMap Assembly.pieceLengths

end Forest

theorem Forest.total_pieceLengths (f : Forest) : total id f.pieceLengths = f.byteLength := by
  rw [byteLength_leaves, pieceLengths]
  induction f.leaves with
  | nil => rfl
  | cons l leaves ih => simp [ih, Assembly.total_pieceLengths]

namespace Counts

open Assembly

def after (c : Counts) (f : Forest) : Counts :=
  ⟨c.nodes + f.nodeCount, c.tokens + f.tokenCount, c.children + f.slotCount⟩

def ofRoot (f : Forest) : Counts :=
  ⟨f.nodeCount + 1, f.tokenCount + 1, f.nodeCount + f.leaves.length⟩

-- These counts are too large for one of the numbers, and the error says so.
structure Refuses (c : Counts) (e : AssemblyError) : Prop where
  unnumbered : ¬c.Numbered
  tooLarge : c.nodes < offsetLimit → e = .tooLarge

structure Within (c c' : Counts) : Prop where
  nodes : c.nodes ≤ c'.nodes
  tokens : c.tokens ≤ c'.tokens
  children : c.children ≤ c'.children

variable {c c' : Counts} {e : AssemblyError}

theorem Numbered.of_within (h : c'.Numbered) (within : c.Within c') : c.Numbered where
  nodes := Nat.lt_of_le_of_lt within.nodes h.nodes
  tokens := Nat.lt_of_le_of_lt within.tokens h.tokens
  children := Nat.lt_of_le_of_lt within.children h.children

theorem Refuses.of_within (h : c.Refuses e) (within : c.Within c') : c'.Refuses e where
  unnumbered := fun numbered => h.unnumbered (numbered.of_within within)
  tooLarge := fun few => h.tooLarge (Nat.lt_of_le_of_lt within.nodes few)

theorem ok_or_refuses {α : Type} {x : Except AssemblyError α} {a : α}
    (accepted : c.Numbered → x = .ok a) (only : ∀ b, x = .ok b → b = a)
    (refused : ∀ e, x = .error e → c.nodes < offsetLimit → e = .tooLarge) :
    x = .ok a ∨ ∃ e, x = .error e ∧ c.Refuses e := by
  cases result : x with
  | ok b => exact .inl (congrArg Except.ok (only b result))
  | error e =>
      refine .inr ⟨e, rfl, fun numbered => ?_, refused e result⟩
      have ok := accepted numbered
      rw [result] at ok
      cases ok

theorem map_cases {α β : Type} {x : Except AssemblyError α} {a : α} {f : α → β}
    (h : x = .ok a ∨ ∃ e, x = .error e ∧ c.Refuses e) :
    x.map f = .ok (f a) ∨ ∃ e, x.map f = .error e ∧ c.Refuses e := by
  rcases h with rfl | ⟨e, rfl, why⟩
  · exact .inl rfl
  · exact .inr ⟨e, rfl, why⟩

theorem within_after (c : Counts) (f : Forest) : c.Within (c.after f) :=
  ⟨Nat.le_add_right _ _, Nat.le_add_right _ _, Nat.le_add_right _ _⟩

theorem within_close (c : Counts) (n : Nat) : c.Within { c with children := c.children + n } :=
  ⟨Nat.le_refl _, Nat.le_refl _, Nat.le_add_right _ _⟩

@[simp] theorem after_nil (c : Counts) : c.after .nil = c := rfl

theorem after_leaf (c : Counts) (l : Leaf) (rest : Forest) :
    c.after (.leaf l rest) = after { c with tokens := c.tokens + l.tokenCount } rest := by
  simp [after, Forest.nodeCount, Forest.tokenCount, Forest.slotCount, Nat.add_assoc]

def inside (c : Counts) (inner : Forest) : Counts :=
  let filled := after { c with nodes := c.nodes + 1 } inner
  { filled with children := filled.children + inner.width }

theorem within_inside (c : Counts) (inner : Forest) :
    (after { c with nodes := c.nodes + 1 } inner).Within (c.inside inner) := within_close _ _

theorem after_node (c : Counts) (k : Kind) (inner rest : Forest) :
    c.after (.node k inner rest) = (c.inside inner).after rest := by
  simp [after, inside, Forest.nodeCount, Forest.tokenCount, Forest.slotCount, Nat.add_assoc]

theorem inside_root (f : Forest) : inside ⟨0, 1, 0⟩ f = ofRoot f := by
  have slots := f.slotCount_add_width
  simp only [inside, after, ofRoot, Counts.mk.injEq]
  omega

theorem openNode_cases (c : Counts) :
    c.openNode false = .ok { c with nodes := c.nodes + 1 } ∨
      ∃ e, c.openNode false = .error e ∧ Refuses { c with nodes := c.nodes + 1 } e := by
  apply ok_or_refuses
  case accepted =>
    intro numbered
    exact openNode_eq_ok.mpr ⟨rfl, numbered.tokens, numbered.nodes, rfl⟩
  case only =>
    intro c' ok
    exact (openNode_eq_ok.mp ok).2.2.2.symm
  case refused =>
    intro e opened few
    have room : c.nodes + 1 < offsetLimit := few
    rcases index_eq_error opened with tooLarge | opened
    · exact tooLarge
    rcases index_eq_error opened with tooLarge | opened
    · exact tooLarge
    · simp [room, pure, Except.pure] at opened

theorem closeNode_cases (c : Counts) (width : Nat) :
    c.closeNode width = .ok { c with children := c.children + width } ∨
      ∃ e, c.closeNode width = .error e ∧ Refuses { c with children := c.children + width } e := by
  apply ok_or_refuses
  case accepted =>
    intro numbered
    exact closeNode_eq_ok.mpr ⟨numbered, rfl⟩
  case only =>
    intro c' ok
    exact (closeNode_eq_ok.mp ok).2.symm
  case refused =>
    intro e closed _
    rcases index_eq_error closed with tooLarge | closed
    · exact tooLarge
    rcases index_eq_error closed with tooLarge | closed
    · exact tooLarge
    rcases index_eq_error closed with tooLarge | closed
    · exact tooLarge
    rcases index_eq_error closed with tooLarge | closed
    · exact tooLarge
    · cases closed

theorem token_cases (c : Counts) {text : Text} {covered more : Nat} {l : Leaf}
    (fits : cover text covered (pieceLengths l) = .ok more) :
    c.token text covered l = .ok (more, { c with tokens := c.tokens + l.tokenCount }) ∨
      ∃ e, c.token text covered l = .error e ∧
        Refuses { c with tokens := c.tokens + l.tokenCount } e := by
  apply ok_or_refuses
  case accepted =>
    intro numbered
    have room : c.tokens + (l.leading.length + 1 + l.trailing.length) < offsetLimit :=
      numbered.tokens
    exact token_eq_ok.mpr ⟨fits, by omega, by omega, rfl⟩
  case only =>
    rintro ⟨more', c'⟩ ok
    obtain ⟨fits', -, -, rfl⟩ := token_eq_ok.mp ok
    rw [fits] at fits'
    cases fits'
    rfl
  case refused =>
    intro e added _
    -- The pieces fit the text, so only a number is missing.
    have split : pieceLengths l =
        l.leading.map Piece.length ++ ([l.length] ++ l.trailing.map Piece.length) := rfl
    simp only [split, cover_append, bind_eq_ok_iff] at fits
    obtain ⟨before, front, within, own, back⟩ := fits
    rw [token, front] at added
    rcases index_eq_error added with tooLarge | added
    · exact tooLarge
    rcases index_eq_error added with tooLarge | added
    · exact tooLarge
    rw [own] at added
    rcases index_eq_error added with tooLarge | added
    · exact tooLarge
    · rw [back] at added
      cases added

end Counts

namespace Assembly

theorem cover_append_eq_ok {text : Text} {covered more : Nat} {lengths lengths' : List Nat}
    (fits : cover text covered (lengths ++ lengths') = .ok more) :
    ∃ between, cover text covered lengths = .ok between ∧ cover text between lengths' = .ok more := by
  rw [cover_append] at fits
  exact bind_eq_ok_iff.mp fits

-- Consecutive pieces of a text cover it as far as they reach.
theorem cover_pieces {text before behind : Text} {pieces : List Text}
    (cut : text = before ++ (pieces.flatten ++ behind)) (short : text.byteLength < offsetLimit) :
    cover text before.byteLength (pieces.map Text.byteLength) =
      .ok (before.byteLength + Text.byteLength pieces.flatten) := by
  induction pieces generalizing before with
  | nil => simp [cover]
  | cons piece pieces ih =>
      have next : text = (before ++ piece) ++ (pieces.flatten ++ behind) := by simp [cut]
      have within : before.byteLength + piece.byteLength < offsetLimit := by
        rw [next, Text.byteLength_append, Text.byteLength_append] at short
        omega
      have boundary : text.isBoundary (before.byteLength + piece.byteLength) = true :=
        (Text.isBoundary_iff _ _).mpr ⟨_, _, next, Text.byteLength_append _ _⟩
      have rest := ih next
      rw [Text.byteLength_append] at rest
      rw [List.map_cons, cover, if_neg (by omega), if_pos boundary, rest]
      simp [Nat.add_assoc]

theorem foldlM_of_step {a b : Assembly} {event : TreeEvent} {events : List TreeEvent}
    (stepped : a.step event = .ok b) : (event :: events).foldlM step a = events.foldlM step b := by
  rw [List.foldlM_cons, stepped]
  rfl

/-- The events lead from one assembly to another, unless there is too much in that one. -/
def Leads (a : Assembly) (events : List TreeEvent) (b : Assembly) : Prop :=
  events.foldlM step a = .ok b ∨ ∃ e, events.foldlM step a = .error e ∧ b.counts.Refuses e

section

variable {a b d : Assembly} {events more : List TreeEvent} {event : TreeEvent}

theorem leads_nil (a : Assembly) : Leads a [] a := .inl rfl

theorem leads_step (stepped : a.step event = .ok b ∨ ∃ e, a.step event = .error e ∧ b.counts.Refuses e) :
    Leads a [event] b := by
  rcases stepped with ok | ⟨e, refused, why⟩
  · exact .inl (foldlM_of_step ok)
  · refine .inr ⟨e, ?_, why⟩
    rw [List.foldlM_cons, refused]
    rfl

theorem Leads.append (h : Leads a events b) (h' : Leads b more d) (within : b.counts.Within d.counts) :
    Leads a (events ++ more) d := by
  rw [Leads, List.foldlM_append]
  rcases h with ok | ⟨e, refused, why⟩
  · rw [ok]
    exact h'
  · rw [refused]
    exact .inr ⟨e, rfl, why.of_within within⟩

end

variable {text : Text} {outer : List OpenNode} {root : Option OpenNode} {covered : Nat} {c : Counts}

theorem leads_open {k : Kind} (isNode : k.isNode = true) (first : outer = [] → root = none) :
    Leads ⟨text, outer, root, covered, c⟩ [.openNode k]
      ⟨text, ⟨k, .nil⟩ :: outer, root, covered, { c with nodes := c.nodes + 1 }⟩ := by
  apply leads_step
  have second : (outer.isEmpty && root.isSome) = false := by
    cases outer with
    | nil => simp [first rfl]
    | cons => rfl
  simp only [step, openNode, isNode, second, Bool.not_true, Bool.false_eq_true, if_false]
  exact Counts.map_cases c.openNode_cases

theorem leads_token {l : Leaf} (isToken : l.kind.isNode = false) {k : Kind} {inner : Forest} {more : Nat}
    (fits : cover text covered (pieceLengths l) = .ok more) :
    Leads ⟨text, ⟨k, inner⟩ :: outer, root, covered, c⟩ [.token l]
      ⟨text, ⟨k, inner ++ .leaf l .nil⟩ :: outer, root, more,
        { c with tokens := c.tokens + l.tokenCount }⟩ := by
  apply leads_step
  simp only [step, token, isToken, Bool.false_eq_true, if_false]
  exact Counts.map_cases (c.token_cases fits)

theorem leads_close {closed : OpenNode} {k : Kind} {inner : Forest} :
    Leads ⟨text, closed :: ⟨k, inner⟩ :: outer, root, covered, c⟩ [.closeNode]
      ⟨text, ⟨k, inner ++ .node closed.kind closed.inner .nil⟩ :: outer, root, covered,
        { c with children := c.children + closed.inner.width }⟩ := by
  apply leads_step
  simp only [step, closeNode]
  exact Counts.map_cases (c.closeNode_cases closed.inner.width)

theorem leads_events {f : Forest} (sorted : f.Sorted) {k : Kind} {inner : Forest} {more : Nat}
    (fits : cover text covered f.pieceLengths = .ok more) :
    Leads ⟨text, ⟨k, inner⟩ :: outer, root, covered, c⟩ f.events
      ⟨text, ⟨k, inner ++ f⟩ :: outer, root, more, c.after f⟩ := by
  induction f generalizing outer k inner covered more c with
  | nil =>
      cases fits
      simpa [Forest.events] using leads_nil _
  | leaf l rest ih =>
      obtain ⟨between, own, behind⟩ := cover_append_eq_ok fits
      have added : Leads ⟨text, ⟨k, inner⟩ :: outer, root, covered, c⟩ [.token l] _ :=
        leads_token sorted.1 own
      have later := added.append (ih sorted.2 behind) (Counts.within_after _ _)
      simpa [Forest.events, Forest.append_assoc, Counts.after_leaf] using later
  | node k' inner' rest hi hr =>
      obtain ⟨isNode, below, behind⟩ := sorted
      have split : (Forest.node k' inner' rest).pieceLengths =
          inner'.pieceLengths ++ rest.pieceLengths := List.flatMap_append
      obtain ⟨between, inside, after⟩ := cover_append_eq_ok (split ▸ fits)
      have opened : Leads ⟨text, ⟨k, inner⟩ :: outer, root, covered, c⟩ [.openNode k'] _ :=
        leads_open isNode fun outermost => absurd outermost (List.cons_ne_nil _ _)
      have filled := opened.append (hi below inside) (Counts.within_after _ _)
      have closed := filled.append leads_close (Counts.within_inside _ _)
      have later := closed.append (hr behind after) (Counts.within_after _ _)
      simpa [Forest.events, Forest.append_assoc, Counts.after_node, Counts.inside] using later

-- The events of a root of which the tokens cover the text are accepted if all of it can be
-- numbered.
theorem run_root_cases {k : Kind} {f : Forest} (isNode : k.isNode = true) (sorted : f.Sorted)
    (fits : cover text 0 f.pieceLengths = .ok text.byteLength) :
    (run text (.openNode k :: f.events ++ [.closeNode]) = .ok (.ofRoot text k f) ∧
        (Counts.ofRoot f).Numbered) ∨
      ∃ e, run text (.openNode k :: f.events ++ [.closeNode]) = .error e ∧
        (Counts.ofRoot f).Refuses e := by
  have opened : Leads (start text) [.openNode k] _ := leads_open isNode fun _ => rfl
  have filled := opened.append (leads_events sorted fits) (Counts.within_after _ _)
  have within : Counts.Within _ (Counts.ofRoot f) :=
    Counts.inside_root f ▸ Counts.within_inside ⟨0, 1, 0⟩ f
  rw [run, List.foldlM_append]
  rcases filled with ok | ⟨e, refused, why⟩
  · rw [show .openNode k :: f.events = [.openNode k] ++ f.events from rfl, ok, ← Counts.inside_root f]
    rcases Counts.closeNode_cases _ f.width with closed | ⟨e, refused, why⟩
    · refine .inl ⟨?_, (Counts.closeNode_eq_ok.mp closed).1⟩
      simp [bind, Except.bind, step, closeNode, closed, Except.map, finish, pure, Except.pure]
    · refine .inr ⟨e, ?_, why⟩
      simp [bind, Except.bind, step, closeNode, refused, Except.map]
  · rw [show .openNode k :: f.events = [.openNode k] ++ f.events from rfl, refused]
    exact .inr ⟨e, rfl, why.of_within within⟩

theorem run_root {k : Kind} {f : Forest} (isNode : k.isNode = true) (sorted : f.Sorted)
    (fits : cover text 0 f.pieceLengths = .ok text.byteLength) (numbered : (Counts.ofRoot f).Numbered) :
    run text (.openNode k :: f.events ++ [.closeNode]) = .ok (.ofRoot text k f) := by
  rcases run_root_cases isNode sorted fits with ⟨ok, -⟩ | ⟨e, -, why⟩
  · exact ok
  · cases why.unnumbered numbered

theorem foldlM_cons_eq_ok {a b : Assembly} {event : TreeEvent} {events : List TreeEvent}
    (ok : (event :: events).foldlM step a = .ok b) :
    ∃ next, a.step event = .ok next ∧ events.foldlM step next = .ok b := by
  rw [List.foldlM_cons] at ok
  exact bind_eq_ok_iff.mp ok

theorem foldlM_append_eq_ok {a b : Assembly} {events more : List TreeEvent}
    (ok : (events ++ more).foldlM step a = .ok b) :
    ∃ next, events.foldlM step a = .ok next ∧ more.foldlM step next = .ok b := by
  rw [List.foldlM_append] at ok
  exact bind_eq_ok_iff.mp ok

theorem cover_of_token {a b : Assembly} {l : Leaf} (ok : a.token l = .ok b) :
    l.kind.isNode = false ∧ b.text = a.text ∧
      cover a.text a.covered (pieceLengths l) = .ok b.covered := by
  unfold Assembly.token at ok
  split at ok
  · cases ok
  · next isToken =>
      split at ok
      · cases ok
      · obtain ⟨⟨more, counts⟩, added, rfl⟩ := map_eq_ok_iff.mp ok
        exact ⟨by simpa using isToken, rfl, (Counts.token_eq_ok.mp added).1⟩

theorem sorted_of_foldlM {f : Forest} {a b : Assembly} (ok : f.events.foldlM step a = .ok b) :
    f.Sorted ∧ b.text = a.text ∧ cover a.text a.covered f.pieceLengths = .ok b.covered := by
  induction f generalizing a b with
  | nil =>
      cases ok
      exact ⟨trivial, rfl, rfl⟩
  | leaf l rest ih =>
      obtain ⟨next, stepped, ok⟩ := foldlM_cons_eq_ok ok
      obtain ⟨isToken, text, own⟩ := cover_of_token stepped
      obtain ⟨sorted, text', behind⟩ := ih ok
      refine ⟨⟨isToken, sorted⟩, text'.trans text, ?_⟩
      rw [text] at behind
      change cover a.text a.covered (pieceLengths l ++ rest.pieceLengths) = _
      rw [cover_append, own]
      exact behind
  | node k inner rest hi hr =>
      rw [Forest.events, List.cons_append] at ok
      obtain ⟨opened, stepped, ok⟩ := foldlM_cons_eq_ok ok
      obtain ⟨within, folded, ok⟩ := foldlM_append_eq_ok ok
      obtain ⟨closed, stepped', ok⟩ := foldlM_cons_eq_ok ok
      obtain ⟨isNode, -, rfl⟩ := openNode_eq_ok stepped
      obtain ⟨sorted, text, inside⟩ := hi folded
      obtain ⟨_, _, -, rfl⟩ := closeNode_eq_ok stepped'
      obtain ⟨sorted', text', behind⟩ := hr ok
      refine ⟨⟨isNode, sorted, sorted'⟩, text'.trans text, ?_⟩
      have split : (Forest.node k inner rest).pieceLengths =
          inner.pieceLengths ++ rest.pieceLengths := List.flatMap_append
      rw [split, cover_append, inside]
      exact text ▸ behind

-- What is accepted are the events of a root of which the tokens cover the text.
theorem root_of_run {events : List TreeEvent} {t : SyntaxTree} (ok : run text events = .ok t) :
    ∃ k f, events = .openNode k :: f.events ++ [.closeNode] ∧ t = .ofRoot text k f ∧
      k.isNode = true ∧ f.Sorted ∧ cover text 0 f.pieceLengths = .ok text.byteLength ∧
        (Counts.ofRoot f).Numbered := by
  obtain ⟨k, f, split, whole, rfl⟩ := run_eq_ok ok
  obtain ⟨last, folded, -⟩ := bind_eq_ok_iff.mp ok
  rw [split] at folded
  obtain ⟨opened, stepped, folded⟩ := foldlM_cons_eq_ok folded
  obtain ⟨within, folded, -⟩ := foldlM_append_eq_ok folded
  obtain ⟨isNode, -, rfl⟩ := openNode_eq_ok stepped
  obtain ⟨sorted, -, inside⟩ := sorted_of_foldlM folded
  have reached := cover_eq_ok inside
  have fits : cover text 0 f.pieceLengths = .ok text.byteLength := by
    rw [Forest.total_pieceLengths, whole] at reached
    rw [← Nat.zero_add text.byteLength]
    exact reached ▸ inside
  rcases run_root_cases isNode sorted fits with ⟨-, numbered⟩ | ⟨e, refused, -⟩
  · exact ⟨k, f, split, rfl, isNode, sorted, fits, numbered⟩
  · rw [split, refused] at ok
    cases ok

theorem run_events_iff {f : Forest} {t : SyntaxTree} :
    run text f.events = .ok t ↔
      ∃ k inner, f = .node k inner .nil ∧ k.isNode = true ∧ inner.Sorted ∧
        cover text 0 inner.pieceLengths = .ok text.byteLength ∧ (Counts.ofRoot inner).Numbered ∧
          t = .ofRoot text k inner := by
  constructor
  · intro ok
    obtain ⟨k, inner, split, rfl, isNode, sorted, fits, numbered⟩ := root_of_run ok
    exact ⟨k, inner, Forest.events_injective split, isNode, sorted, fits, numbered, rfl⟩
  · rintro ⟨k, inner, rfl, isNode, sorted, fits, numbered, rfl⟩
    exact run_root isNode sorted fits numbered

end Assembly

end LosslessTree
