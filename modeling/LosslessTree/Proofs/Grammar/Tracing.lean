import LosslessTree.Grammar.Conservation
import LosslessTree.Proofs.Grammar.Replay

/-!
# Rules on marks do what rules do

A step of a rule and the same rule on markings: they give the same and leave the same, and the new
marks replay to what the step built. Positions must be kept as they are as far as the marks reach.
-/

set_option autoImplicit false

namespace LosslessTree

-- Number of marks for a forest: each token has one, and each node one at either end.
def Forest.markCount (f : Forest) : Nat := 2 * f.nodeCount + f.leaves.length

@[simp] theorem Forest.markCount_append (f g : Forest) :
    (f ++ g).markCount = f.markCount + g.markCount := by
  simp only [markCount, nodeCount_append, leaves_append, List.length_append]
  omega

@[simp] theorem Forest.markCount_nil : Forest.nil.markCount = 0 := rfl

theorem Forest.markCount_node (k : Kind) (inner : Forest) :
    (Forest.node k inner .nil).markCount = inner.markCount + 2 := by
  simp only [markCount, nodeCount, leaves, List.append_nil]
  omega

theorem Forest.markCount_pos {f : Forest} (some : f ≠ .nil) : 0 < f.markCount := by
  cases f with
  | nil => cases some rfl
  | leaf => simp only [markCount, leaves, List.length_cons]; omega
  | node => simp only [markCount, nodeCount]; omega

/-- What the new marks of a rule are, behind a number of others. A single node that they show was
the last to be completed. -/
structure Traces (base : Nat) (before : Option Nat) (new : List Mark) (f : Forest)
    (after : Option Nat) : Prop where
  plays : Mark.Plays new f
  size : new.length = f.markCount
  idle : f = .nil → new = [] ∧ after = before
  single : ∀ k inner, f = .node k inner .nil →
    ∃ position, Mark.Chain new position k inner ∧ after = some (base + position)

namespace Traces

theorem nil {base : Nat} {before : Option Nat} : Traces base before [] .nil before :=
  ⟨Mark.plays_nil, rfl, fun _ => ⟨rfl, rfl⟩, nofun⟩

theorem token {base : Nat} {before : Option Nat} (t : Token) :
    Traces base before [.token t] (.leaf t.leaf .nil) before :=
  ⟨Mark.plays_token t, rfl, nofun, nofun⟩

theorem chain {base position : Nat} {before : Option Nat} {new : List Mark} {k : Kind}
    {inner : Forest} (h : Mark.Chain new position k inner) (size : new.length = inner.markCount + 2) :
    Traces base before new (.node k inner .nil) (some (base + position)) := by
  refine ⟨h.plays, size.trans (Forest.markCount_node k inner).symm, nofun, fun k' inner' same => ?_⟩
  cases same
  exact ⟨position, h, rfl⟩

theorem append {base : Nat} {before between after : Option Nat} {new more : List Mark}
    {f g : Forest} (hf : Traces base before new f between)
    (hg : Traces (base + new.length) between more g after) :
    Traces base before (new ++ more) (f ++ g) after := by
  refine ⟨hf.plays.append hg.plays, by simp [hf.size, hg.size], ?_, ?_⟩
  · intro none
    cases f with
    | nil =>
        obtain ⟨rfl, rfl⟩ := hf.idle rfl
        exact hg.idle none
    | leaf => cases none
    | node => cases none
  · intro k inner only
    cases f with
    | nil =>
        obtain ⟨rfl, rfl⟩ := hf.idle rfl
        exact hg.single k inner only
    | leaf => cases only
    | node k' inner' rest =>
        -- Nothing was built behind a node that is all there is.
        obtain ⟨rfl, rfl, rfl⟩ : rest = .nil ∧ g = .nil ∧ k' = k := by
          cases rest with
          | nil => cases only; exact ⟨rfl, rfl, rfl⟩
          | leaf => cases only
          | node => cases only
        cases only
        obtain ⟨rfl, rfl⟩ := hg.idle rfl
        rw [List.append_nil]
        exact hf.single _ _ rfl

end Traces

-- Positions up to this one are kept as they are.
def Exact (keep : Nat → Nat) (last : Nat) : Prop := ∀ position ≤ last, keep position = position

theorem Exact.le {keep : Nat → Nat} {last n : Nat} (exact : Exact keep last) (le : n ≤ last) :
    Exact keep n := fun position before => exact position (Nat.le_trans before le)

namespace Marking

variable {marks : List Mark} {position : Nat} {k : Kind} {forward : Option Nat} {keep : Nat → Nat}
  (completed : Option Nat) (reports : List Diagnostic) (rest : List Token)

theorem complete_eq_ok (kind : Kind) (h : marks[position]? = some (.start k forward)) :
    complete ⟨marks, completed, reports, rest⟩ position kind =
      .ok ⟨marks.set position (.start kind forward) ++ [.finish], some position, reports, rest⟩ := by
  simp [complete, h]

theorem complete_open (marks inside : List Mark) (kind : Kind) :
    complete ⟨marks ++ .open :: inside, completed, reports, rest⟩ marks.length kind =
      .ok ⟨marks ++ (.start kind none :: inside ++ [.finish]), some marks.length, reports, rest⟩ := by
  have started : (marks ++ .open :: inside)[marks.length]? = some (.start .tombstone none) := by
    simp [Mark.open]
  rw [complete_eq_ok _ _ _ kind started]
  simp

theorem abandon_eq_ok :
    abandon ⟨marks ++ [.open], completed, reports, rest⟩ marks.length =
      .ok ⟨marks, completed, reports, rest⟩ := by
  simp [abandon, Mark.open]

theorem start_eq (exact : keep marks.length = marks.length) :
    start keep ⟨marks, completed, reports, rest⟩ =
      (marks.length, ⟨marks ++ [.open], completed, reports, rest⟩) := by
  simp [start, exact]

theorem precede_eq_ok (exact : keep marks.length = marks.length)
    (h : marks[position]? = some (.start k forward)) :
    precede keep ⟨marks, some position, reports, rest⟩ =
      .ok (marks.length, ⟨marks.set position (.start k (some (marks.length - position))) ++ [.open],
        some position, reports, rest⟩) := by
  obtain ⟨inside, _⟩ := List.getElem?_eq_some_iff.mp h
  have started : (marks ++ [.open])[position]? = some (.start k forward) := by
    rw [List.getElem?_append_left inside, h]
  simp only [precede, start_eq _ _ _ exact, started]
  rw [if_neg (by omega), List.set_append_left _ _ inside]

-- A start around the node that others end with is reached from that node.
theorem precede_chain {inner : List Mark} {f : Forest} (chain : Mark.Chain inner position k f)
    (exact : keep (marks.length + inner.length) = marks.length + inner.length) :
    precede keep ⟨marks ++ inner, some (marks.length + position), reports, rest⟩ =
      .ok (marks.length + inner.length,
        ⟨marks ++ inner.set position (.start k (some (inner.length - position))) ++ [.open],
          some (marks.length + position), reports, rest⟩) := by
  have started : (marks ++ inner)[marks.length + position]? = some (.start k none) := by
    rw [List.getElem?_append_right (by omega), Nat.add_sub_cancel_left, chain.start_mem]
  have distance : (marks ++ inner).length - (marks.length + position) = inner.length - position := by
    rw [List.length_append]
    omega
  rw [precede_eq_ok _ _ (by rwa [List.length_append]) started, distance, List.length_append,
    List.set_append_right _ _ (by omega), Nat.add_sub_cancel_left]

end Marking

namespace Step

variable {α β : Type} {tokens : List Token}

/-- On a marking with the same tokens the program does what the step does, if positions are kept up to
where its marks end. -/
def Marked (s : Step α) (program : (Nat → Nat) → Marking.Run α) (tokens : List Token) : Prop :=
  ∀ keep (m : Marking), m.rest = tokens → Exact keep (m.marks.length + s.parts.markCount) →
    ∃ new completed,
      program keep m = .ok (s.value,
        ⟨m.marks ++ new, completed, m.reports ++ s.reports, s.rest⟩) ∧
        Traces m.marks.length m.completed new s.parts completed

theorem marked_nothing {value : α} {reports : List Diagnostic} {program : (Nat → Nat) → Marking.Run α}
    (h : ∀ keep (m : Marking), m.rest = tokens →
      program keep m = .ok (value, { m with reports := m.reports ++ reports })) :
    (Step.mk value .nil reports tokens).Marked program tokens := by
  intro keep m same _
  refine ⟨[], m.completed, ?_, .nil⟩
  rw [h keep m same, List.append_nil, ← same]

theorem Marked.andThen {s : Step α} {next : α → List Token → Step β} {p : (Nat → Nat) → Marking.Run α}
    (h : s.Marked p tokens) (q : α → (Nat → Nat) → Marking.Run β)
    (hn : (next s.value s.rest).Marked (q s.value) s.rest) :
    (s.andThen next).Marked (fun keep m => p keep m >>= fun (a, m) => q a keep m) tokens := by
  intro keep m same exact
  have size : (s.andThen next).parts.markCount =
      s.parts.markCount + (next s.value s.rest).parts.markCount := Forest.markCount_append _ _
  obtain ⟨new, between, ran, traces⟩ := h keep m same (exact.le (by omega))
  obtain ⟨more, after, ran', traces'⟩ :=
    hn keep ⟨m.marks ++ new, between, m.reports ++ s.reports, s.rest⟩ rfl
      (exact.le (by rw [List.length_append, traces.size]; omega))
  refine ⟨new ++ more, after, ?_, ?_⟩
  · simp only [ran, ran', bind, Except.bind, Step.andThen, List.append_assoc]
  · rw [List.length_append] at traces'
    exact traces.append traces'

theorem marked_take (eof : Token) (productions : Productions) :
    (Rule.take.run eof productions tokens).Marked (fun _ m => .ok ((), m.advance)) tokens := by
  rintro keep ⟨marks, completed, reports, rest⟩ rfl _
  cases rest with
  | nil =>
      refine ⟨[], completed, ?_, .nil⟩
      simp [Marking.advance, Rule.run]
  | cons t rest =>
      refine ⟨[.token t], completed, ?_, .token t⟩
      simp [Marking.advance, Marking.push, Rule.run]

theorem wrapped_some {s : Step (Option Kind × α)} {k : Kind} (found : s.value.1 = some k) :
    s.wrapped = ⟨s.value.2, .node k s.parts .nil, s.reports, s.rest⟩ := by
  obtain ⟨⟨kind, a⟩, parts, reports, rest⟩ := s
  obtain rfl : kind = some k := found
  rfl

theorem wrapped_none {s : Step (Option Kind × α)} (found : s.value.1 = none) :
    s.wrapped = ⟨s.value.2, s.parts, s.reports, s.rest⟩ := by
  obtain ⟨⟨kind, a⟩, parts, reports, rest⟩ := s
  obtain rfl : kind = none := found
  rfl

theorem Marked.wrapped {s : Step (Option Kind × α)} {body : (Nat → Nat) → Marking.Run (Option Kind × α)}
    (h : s.Marked body tokens) {k : Kind} (found : s.value.1 = some k) (named : k ≠ .tombstone) :
    s.wrapped.Marked (fun keep => Marking.wrapping keep (body keep)) tokens := by
  obtain ⟨⟨kind, a⟩, parts, reports, rest⟩ := s
  obtain rfl : kind = some k := found
  rintro keep ⟨marks, completed, reported, tokens'⟩ rfl exact
  have size : (Step.wrapped ⟨(some k, a), parts, reports, rest⟩).parts.markCount =
      parts.markCount + 2 := Forest.markCount_node k parts
  have here : keep marks.length = marks.length := exact _ (Nat.le_add_right _ _)
  obtain ⟨new, completed', ran, traces⟩ := h keep ⟨marks ++ [.open], completed, reported, tokens'⟩ rfl
    (exact.le (by simp only [size, List.length_append, List.length_singleton]; omega))
  refine ⟨.start k none :: new ++ [.finish], some marks.length, ?_, ?_⟩
  · simp only [Marking.wrapping, Marking.start_eq _ _ _ here, ran, bind, Except.bind,
      List.append_assoc, List.singleton_append, Marking.complete_open]
    rfl
  · exact .chain (.single named traces.plays) (by simp [traces.size])

-- A start that was given up in front of something counts as one of the marks for that.
theorem Marked.unwrapped_andThen {s : Step (Option Kind × α)}
    {body : (Nat → Nat) → Marking.Run (Option Kind × α)} (h : s.Marked body tokens)
    (found : s.value.1 = none) (nothing : s.parts = .nil) {next : α → List Token → Step β}
    (q : α → (Nat → Nat) → Marking.Run β) (hn : (next s.value.2 s.rest).Marked (q s.value.2) s.rest)
    (some : (next s.value.2 s.rest).parts ≠ .nil) :
    (s.wrapped.andThen next).Marked
      (fun keep m => Marking.wrapping keep (body keep) m >>= fun (a, m) => q a keep m) tokens := by
  obtain ⟨⟨kind, a⟩, parts, reports, rest⟩ := s
  obtain rfl : kind = none := found
  obtain rfl : parts = .nil := nothing
  rintro keep ⟨marks, completed, reported, tokens'⟩ rfl exact
  have size : ((Step.wrapped ⟨(none, a), .nil, reports, rest⟩).andThen next).parts.markCount =
      (next a rest).parts.markCount := rfl
  have positive : 0 < (next a rest).parts.markCount := Forest.markCount_pos some
  have here : keep marks.length = marks.length := exact _ (Nat.le_add_right _ _)
  obtain ⟨new, completed', ran, traces⟩ := h keep ⟨marks ++ [.open], completed, reported, tokens'⟩ rfl
    (exact.le (by
      simp only [size, List.length_append, List.length_singleton, Forest.markCount_nil]
      omega))
  obtain ⟨rfl, rfl⟩ := traces.idle rfl
  obtain ⟨more, after, ran', traces'⟩ := hn keep ⟨marks, completed', reported ++ reports, rest⟩ rfl exact
  refine ⟨more, after, ?_, traces'⟩
  simp only [Marking.wrapping, Marking.start_eq _ _ _ here, ran, bind, Except.bind,
    List.append_nil, Marking.abandon_eq_ok, pure, Except.pure, ran']
  simp [Step.andThen, Step.wrapped]

-- A loop ends, as each round that asks for another has taken a token.
theorem marked_repeating {body : List Token → Step Bool} {program : (Nat → Nat) → Marking.Run Bool}
    (I : List Token → Prop)
    (round : ∀ rest, I rest → (body rest).Marked program rest ∧
      ((body rest).value = true →
        (body rest).rest.length < rest.length ∧ I (body rest).rest))
    {n : Nat} (enough : tokens.length < n) (h : I tokens) :
    (repeating body n tokens).Marked (fun keep => Marking.repeating (program keep) n) tokens := by
  induction n generalizing tokens with
  | zero => omega
  | succ n ih =>
      obtain ⟨marked, progress⟩ := round tokens h
      refine marked.andThen
        (fun again keep m => if again then Marking.repeating (program keep) n m else return ((), m)) ?_
      cases again : (body tokens).value with
      | false => exact marked_nothing fun keep m _ => by simp [pure, Except.pure]
      | true =>
          obtain ⟨shorter, next⟩ := progress again
          exact ih (by omega) next

theorem markCount_around (built : Step α) (step : List Token → Step (Kind × β)) :
    (built.around step).parts.markCount =
      built.parts.markCount + (step built.rest).parts.markCount + 2 := by
  rw [← Forest.markCount_append]
  exact Forest.markCount_node _ _

theorem markCount_growing (more : α → List Token → Option β) (step : β → List Token → Step (Kind × α))
    (n : Nat) (built : Step α) :
    built.parts.markCount ≤ (growing more step n built).parts.markCount := by
  induction n generalizing built with
  | zero => exact Nat.le_refl _
  | succ n ih =>
      rw [growing]
      split
      · exact Nat.le_refl _
      · next b _ =>
          have wider := markCount_around built (step b)
          have further := ih (built.around (step b))
          omega

theorem Marked.around {built : Step α} {p : (Nat → Nat) → Marking.Run α} (h : built.Marked p tokens)
    {k : Kind} {inner : Forest} (single : built.parts = .node k inner .nil)
    {step : List Token → Step (Kind × β)} {q : (Nat → Nat) → Marking.Run (Kind × β)}
    (hs : (step built.rest).Marked q built.rest)
    (named : (step built.rest).value.1 ≠ .tombstone) :
    (built.around step).Marked (fun keep m => do
      let (_, m) ← p keep m
      let (position, m) ← m.precede keep
      let ((kind, b), m) ← q keep m
      return (b, ← m.complete position kind)) tokens := by
  intro keep m same exact
  rw [markCount_around] at exact
  obtain ⟨new, _, ran, traces⟩ := h keep m same (exact.le (by omega))
  obtain ⟨position, chain, rfl⟩ := traces.single k inner single
  have here : keep (m.marks.length + new.length) = m.marks.length + new.length :=
    exact _ (by rw [traces.size]; omega)
  let opened := m.marks ++ new.set position (.start k (some (new.length - position)))
  have size : m.marks.length + new.length = opened.length := by simp [opened]
  obtain ⟨more, completed, ran', traces'⟩ := hs keep
    ⟨opened ++ [.open], some (m.marks.length + position), m.reports ++ built.reports,
      built.rest⟩ rfl
    (exact.le (by simp only [List.length_append, ← size, traces.size, List.length_singleton]; omega))
  refine ⟨new.set position (.start k (some (new.length - position))) ++
    .start (step built.rest).value.1 none :: more ++ [.finish],
    some (m.marks.length + new.length), ?_, ?_⟩
  · simp only [ran, bind, Except.bind, Marking.precede_chain _ _ chain here]
    rw [ran', size]
    simp only [List.append_assoc, List.singleton_append, Marking.complete_open]
    simp [pure, Except.pure, opened, Step.around, Step.andThen]
  · rw [Step.around, Step.andThen, single]
    refine .chain (.around named chain traces'.plays) ?_
    rw [single] at traces
    simp only [List.length_append, List.length_cons, List.length_set, List.length_nil,
      Forest.markCount_append, traces.size, traces'.size]
    omega

theorem Marked.of_eq {s : Step α} {p q : (Nat → Nat) → Marking.Run α} (h : s.Marked p tokens)
    (same : ∀ keep (m : Marking), m.rest = tokens → Exact keep (m.marks.length + s.parts.markCount) →
      q keep m = p keep m) : s.Marked q tokens := by
  intro keep m at_ exact
  rw [same keep m at_ exact]
  exact h keep m at_ exact

theorem Marked.growing {more : α → List Token → Option β}
    {step : β → List Token → Step (Kind × α)} {program : β → (Nat → Nat) → Marking.Run (Kind × α)}
    (I : Step α → Prop)
    (round : ∀ built b, I built → more built.value built.rest = some b →
      (∃ k inner, built.parts = .node k inner .nil) ∧
        (step b built.rest).Marked (program b) built.rest ∧
        (step b built.rest).value.1 ≠ .tombstone ∧
        I (built.around (step b)) ∧
        ((built.around (step b)).rest.length < built.rest.length ∨
          more (built.around (step b)).value (built.around (step b)).rest = none))
    (n : Nat) {built : Step α} {p : (Nat → Nat) → Marking.Run α} (h : built.Marked p tokens) (hi : I built)
    (enough : built.rest.length < n ∨ more built.value built.rest = none) :
    (Step.growing more step n built).Marked (fun keep m => do
      let (a, m) ← p keep m
      Marking.growing keep (fun a m => more a m.rest) (fun b => program b keep) n a m) tokens := by
  induction n generalizing built p with
  | zero =>
      have last : more built.value built.rest = none := enough.resolve_left (by omega)
      refine h.of_eq fun keep m same exact => ?_
      obtain ⟨new, completed, ran, _⟩ := h keep m same exact
      simp [ran, bind, Except.bind, Marking.growing, last]
  | succ n ih =>
      cases found : more built.value built.rest with
      | none =>
          rw [Step.growing, found]
          refine h.of_eq fun keep m same exact => ?_
          obtain ⟨new, completed, ran, _⟩ := h keep m same exact
          simp [ran, bind, Except.bind, Marking.growing, found]
      | some b =>
          obtain ⟨⟨k, inner, single⟩, marked, named, next, progress⟩ := round built b hi found
          rw [Step.growing, found]
          refine (ih (h.around single marked named) next ?_).of_eq fun keep m same exact => ?_
          · rcases progress with shorter | last
            · rcases enough with enough | none
              · exact .inl (by omega)
              · rw [found] at none
                cases none
            · exact .inr last
          · have wider := markCount_around built (step b)
            have further := markCount_growing more step n (built.around (step b))
            obtain ⟨new, completed, ran, _⟩ := h keep m same (exact.le (by omega))
            simp only [ran, bind, Except.bind, Marking.growing, found]
            split
            · rfl
            · split
              · rfl
              · next result _ =>
                  obtain ⟨⟨kind, a⟩, after⟩ := result
                  simp only
                  cases after.complete _ kind <;> rfl

theorem Marked.grown {more : α → List Token → Option β}
    {step : β → List Token → Step (Kind × α)} {program : β → (Nat → Nat) → Marking.Run (Kind × α)}
    (I : Step α → Prop)
    (round : ∀ built b, I built → more built.value built.rest = some b →
      (∃ k inner, built.parts = .node k inner .nil) ∧
        (step b built.rest).Marked (program b) built.rest ∧
        (step b built.rest).value.1 ≠ .tombstone ∧
        I (built.around (step b)) ∧
        ((built.around (step b)).rest.length < built.rest.length ∨
          more (built.around (step b)).value (built.around (step b)).rest = none))
    {built : Step α} {p : (Nat → Nat) → Marking.Run α} (h : built.Marked p tokens) (hi : I built)
    (enough : built.rest.length ≤ tokens.length) :
    (Step.growing more step (tokens.length + 1) built).Marked
      (fun keep => Marking.grown keep (p keep) (fun a m => more a m.rest) fun b => program b keep) tokens := by
  have bounded : built.rest.length < tokens.length + 1 := by omega
  refine (h.growing I round (tokens.length + 1) hi (.inl bounded)).of_eq fun keep m same _ => ?_
  rw [← same]
  rfl

end Step

end LosslessTree
