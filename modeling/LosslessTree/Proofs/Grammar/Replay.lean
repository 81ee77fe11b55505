import LosslessTree.Grammar.Marking
import LosslessTree.Proofs.Tree.History

/-!
# What marks replay to

Marks that a rule leaves behind play the events of a forest, whatever comes after them. The marks
of a single node stay open to one more start around it.
-/

set_option autoImplicit false

namespace LosslessTree.Mark

theorem replay_finish (marks : List Mark) :
    replay (.finish :: marks) = (replay marks).map (.closeNode :: ·) := by
  rw [replay]

theorem replay_token (t : Token) (marks : List Mark) :
    replay (.token t :: marks) = (replay marks).map (.token t.leaf :: ·) := by
  rw [replay]

theorem replay_open (marks : List Mark) : replay (.open :: marks) = replay marks := by
  rw [Mark.open, replay, if_pos rfl]

theorem replay_start {kind : Kind} {forward : Option Nat} {marks rest : List Mark}
    {kinds : List Kind} (named : kind ≠ .tombstone) (all : ∀ k ∈ kinds, k ≠ .tombstone)
    (climbed : climbFrom forward marks = .ok (kinds, rest)) :
    replay (.start kind forward :: marks) =
      (replay rest).map ((kinds.reverse ++ [kind]).map TreeEvent.openNode ++ ·) := by
  rw [replay, if_neg named]
  split
  · next _ failed => rw [climbed] at failed; cases failed
  · next climbed' found =>
      rw [climbed] at found
      cases found
      rw [List.filter_eq_self.mpr (by simpa using all)]

theorem climb_append {distance : Nat} (marks : List Mark) {more rest : List Mark}
    {kinds : List Kind} (climbed : climb distance more = .ok (kinds, rest)) :
    climb (marks.length + distance) (marks ++ more) = .ok (kinds, marks ++ rest) := by
  induction marks with
  | nil => simpa using climbed
  | cons mark marks ih =>
      rw [List.length_cons, Nat.add_right_comm, List.cons_append, climb, ih]
      rfl

/-- In front of any other marks, the marks replay to the events of the forest. -/
def Plays (marks : List Mark) (f : Forest) : Prop :=
  ∀ more, replay (marks ++ more) = (replay more).map (f.events ++ ·)

theorem plays_nil : Plays [] .nil := by
  intro more
  cases h : replay more <;> simp [h, Except.map, Forest.events]

theorem plays_token (t : Token) : Plays [.token t] (.leaf t.leaf .nil) := by
  intro more
  rw [List.singleton_append, replay_token]
  rfl

theorem Plays.append {marks marks' : List Mark} {f g : Forest} (hf : Plays marks f)
    (hg : Plays marks' g) : Plays (marks ++ marks') (f ++ g) := by
  intro more
  rw [List.append_assoc, hf, hg, Forest.events_append]
  cases replay more <;> simp [Except.map]

/-- The marks of one node with the kind and the elements. The node around all others in them
starts at the index, and nothing goes around it yet. -/
inductive Chain : List Mark → Nat → Kind → Forest → Prop where
  | single {marks : List Mark} {k : Kind} {f : Forest} (named : k ≠ .tombstone)
      (plays : Plays marks f) : Chain (.start k none :: marks ++ [.finish]) 0 k f
  | around {inner marks : List Mark} {position : Nat} {k kind : Kind} {f g : Forest}
      (named : kind ≠ .tombstone) (chain : Chain inner position k f) (plays : Plays marks g) :
      Chain
        (inner.set position (.start k (some (inner.length - position))) ++
          .start kind none :: marks ++ [.finish])
        inner.length kind (.node k f .nil ++ g)

variable {marks : List Mark} {position : Nat} {k : Kind} {f : Forest}

theorem Chain.start_mem (chain : Chain marks position k f) :
    marks[position]? = some (.start k none) := by
  cases chain with
  | single => rfl
  | around => simp

theorem Chain.named (chain : Chain marks position k f) : k ≠ .tombstone := by
  cases chain <;> assumption

def Reached (forward : Option Nat) (length : Nat) (more : List Mark) (kinds : List Kind)
    (rest : List Mark) : Prop :=
  (forward = none ∧ kinds = [] ∧ rest = more) ∨
    ∃ distance, forward = some (length + distance) ∧ climb distance more = .ok (kinds, rest)

theorem Reached.climbFrom {forward : Option Nat} {more rest : List Mark} {kinds : List Kind}
    (reached : Reached forward (marks.length + 2) more kinds rest) :
    climbFrom forward (marks ++ finish :: more) = .ok (kinds, marks ++ finish :: rest) := by
  rcases reached with ⟨rfl, rfl, rfl⟩ | ⟨distance, rfl, climbed⟩
  · rfl
  · have passed := climb_append (marks ++ [finish]) climbed
    simp only [List.length_append, List.length_cons, List.length_nil, List.append_assoc,
      List.singleton_append] at passed
    rw [show marks.length + 2 + distance = marks.length + 1 + distance + 1 by omega]
    exact passed

theorem climb_start (kind : Kind) (forward : Option Nat) (marks : List Mark) :
    climb 0 (start kind forward :: marks) =
      (climbFrom forward marks).map fun (kinds, marks) => (kind :: kinds, .open :: marks) := by
  match forward with
  | none => rfl
  | some 0 => rfl
  | some (distance + 1) => rw [climb, climbFrom]

theorem Chain.replay (chain : Chain marks position k f) {forward : Option Nat}
    {more rest : List Mark} {kinds : List Kind} (all : ∀ k ∈ kinds, k ≠ .tombstone)
    (reached : Reached forward (marks.length - position) more kinds rest) :
    replay (marks.set position (start k forward) ++ more) =
      (replay rest).map
        (kinds.reverse.map TreeEvent.openNode ++ (Forest.node k f .nil).events ++ ·) := by
  induction chain generalizing forward more rest kinds with
  | @single marks k f named plays =>
      have size : (start k none :: marks ++ [finish]).length - 0 = marks.length + 2 := by simp
      rw [size] at reached
      have unfolded : (start k none :: marks ++ [finish]).set 0 (start k forward) ++ more =
          start k forward :: (marks ++ finish :: more) := by simp
      rw [unfolded, replay_start named all reached.climbFrom, plays, replay_finish]
      cases Mark.replay rest <;> simp [Except.map, Forest.events]
  | @around inner marks position k kind f g named chain plays ih =>
      have size : (inner.set position (start k (some (inner.length - position))) ++
          start kind none :: marks ++ [finish]).length - inner.length = marks.length + 2 := by
        simp
      rw [size] at reached
      -- The start around the inner node is reached from it, and whatever is reached from there.
      have climbed : climb 0 (start kind forward :: (marks ++ finish :: more)) =
          .ok (kind :: kinds, .open :: (marks ++ finish :: rest)) := by
        rw [climb_start, reached.climbFrom]
        rfl
      have opened : ∀ k ∈ kind :: kinds, k ≠ .tombstone := by simpa using ⟨named, all⟩
      have next : Reached (some (inner.length - position)) (inner.length - position) _ _ _ :=
        .inr ⟨0, rfl, climbed⟩
      have within := ih opened next
      have unfolded : (inner.set position (start k (some (inner.length - position))) ++
          start kind none :: marks ++ [finish]).set inner.length (start kind forward) ++ more =
          inner.set position (start k (some (inner.length - position))) ++
            start kind forward :: (marks ++ finish :: more) := by
        simp
      rw [unfolded, within, replay_open, plays, replay_finish]
      cases Mark.replay rest <;> simp [Except.map, Forest.events]

theorem Chain.plays (chain : Chain marks position k f) : Plays marks (.node k f .nil) := by
  intro more
  have unreached : Reached none (marks.length - position) more [] more := .inl ⟨rfl, rfl, rfl⟩
  have alone := chain.replay (by simp) unreached
  obtain ⟨inside, found⟩ := List.getElem?_eq_some_iff.mp chain.start_mem
  rw [← found, List.set_getElem_self inside] at alone
  simpa using alone

end LosslessTree.Mark
