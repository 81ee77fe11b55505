import LosslessTree.Outline
import Mathlib.Data.List.Chain

set_option autoImplicit false

namespace LosslessTree.Outline

def enclosing (before : List Entry) (e : Entry) : Option Entry :=
  before.reverse.find? fun o => o.depth + 1 == e.depth

/-- Entries at a depth, in order, and behind each of them those inside it. Only modules and structs have
entries inside. -/
inductive Indented : Nat → List Entry → Prop where
  | nil (depth : Nat) : Indented depth []
  | cons {depth : Nat} {e : Entry} {inner rest : List Entry} (level : e.depth = depth)
      (wide : e.span.start < e.span.stop) (deeper : Indented (depth + 1) inner)
      (begins : ∀ x ∈ inner, e.span.start < x.span.start)
      (contains : ∀ x ∈ inner, e.span.contains x.span = true)
      (holds : inner ≠ [] → e.keyword = "mod" ∨ e.keyword = "struct")
      (behind : ∀ x ∈ rest, e.span.stop ≤ x.span.start)
      (more : Indented depth rest) : Indented depth (e :: (inner ++ rest))

namespace Indented

variable {depth : Nat} {entries : List Entry}

theorem le_depth (h : Indented depth entries) : ∀ x ∈ entries, depth ≤ x.depth := by
  induction h with
  | nil => simp
  | cons level _ _ _ _ _ _ _ inside after =>
      refine List.forall_mem_cons.mpr ⟨Nat.le_of_eq level.symm, List.forall_mem_append.mpr ⟨?_, after⟩⟩
      exact fun x mem => Nat.le_of_succ_le (inside x mem)

theorem head (h : Indented depth entries) : ∀ e ∈ entries.head?, e.depth = depth := by
  cases h with
  | nil => simp
  | cons level => simpa using level

theorem wide (h : Indented depth entries) : ∀ x ∈ entries, x.span.start < x.span.stop := by
  induction h with
  | nil => simp
  | cons _ own _ _ _ _ _ _ inside after =>
      exact List.forall_mem_cons.mpr ⟨own, List.forall_mem_append.mpr ⟨inside, after⟩⟩

theorem grows (h : Indented depth entries) :
    entries.IsChain fun e e' => e'.depth ≤ e.depth + 1 := by
  induction h with
  | nil => exact .nil
  | @cons depth e inner rest level _ deeper _ _ _ _ more inside after =>
      rw [← List.cons_append, List.isChain_append, List.isChain_cons]
      refine ⟨⟨fun x first => ?_, inside⟩, after, fun x last y first => ?_⟩
      · rw [deeper.head x first, level]
      · rw [more.head y first]
        refine Nat.le_succ_of_le ?_
        rcases List.mem_cons.mp (List.mem_of_getLast? last) with rfl | mem
        · exact Nat.le_of_eq level.symm
        · exact Nat.le_of_succ_le (deeper.le_depth x mem)

theorem starts (h : Indented depth entries) :
    entries.Pairwise fun e e' => e.span.start < e'.span.start := by
  induction h with
  | nil => exact .nil
  | @cons depth e inner rest _ own deeper begins contains _ behind _ inside after =>
      refine .cons (fun x mem => ?_) (List.pairwise_append.mpr ⟨inside, after, fun x mem y mem' => ?_⟩)
      · rcases List.mem_append.mp mem with mem | mem
        · exact begins x mem
        · exact own.trans_le (behind x mem)
      · have ends := ((Span.contains_iff _ _).mp (contains x mem)).2
        exact (deeper.wide x mem).trans_le (ends.trans (behind y mem'))

theorem apart (h : Indented depth entries) :
    entries.Pairwise fun e e' => e'.depth ≤ e.depth → e.span.stop ≤ e'.span.start := by
  induction h with
  | nil => exact .nil
  | @cons depth e inner rest level _ deeper _ contains _ behind _ inside after =>
      refine .cons (fun x mem => ?_) (List.pairwise_append.mpr ⟨inside, after, fun x mem y mem' _ => ?_⟩)
      · rcases List.mem_append.mp mem with mem | mem
        · intro above
          have below := deeper.le_depth x mem
          omega
        · exact fun _ => behind x mem
      · exact ((Span.contains_iff _ _).mp (contains x mem)).2.trans (behind y mem')

theorem enclosing_append (first : List Entry) {before : List Entry} {e o : Entry}
    (found : enclosing before e = some o) : enclosing (first ++ before) e = some o := by
  rw [enclosing] at found
  rw [enclosing, List.reverse_append, List.find?_append, found]
  rfl

theorem enclosing_cons {o e : Entry} {before : List Entry} (above : o.depth + 1 = e.depth)
    (deeper : ∀ x ∈ before, e.depth ≤ x.depth) : enclosing (o :: before) e = some o := by
  have none : before.reverse.find? (fun x => x.depth + 1 == e.depth) = none := by
    rw [List.find?_eq_none]
    intro x mem
    have low := deeper x (List.mem_reverse.mp mem)
    simp only [beq_iff_eq]
    omega
  rw [enclosing, List.reverse_cons, List.find?_append, none, List.find?_cons_of_pos (by simpa using above)]
  rfl

theorem exists_enclosing (h : Indented depth entries) {before after : List Entry} {e : Entry}
    (split : entries = before ++ e :: after) (below : depth < e.depth) :
    ∃ o, enclosing before e = some o ∧ (o.keyword = "mod" ∨ o.keyword = "struct") ∧
      o.span.contains e.span = true := by
  induction h generalizing before after with
  | nil => simp at split
  | @cons depth first inner rest level _ deeper _ contains holds _ more inside behind =>
      cases before with
      | nil =>
          obtain ⟨same, -⟩ := List.cons.inj split
          rw [← same, level] at below
          exact absurd below (Nat.lt_irrefl depth)
      | cons first' before =>
          obtain ⟨rfl, cut⟩ := List.cons.inj split
          rcases List.append_eq_append_iff.mp cut with ⟨between, rfl, cut'⟩ | ⟨between, rfl, cut'⟩
          · obtain ⟨o, found, own⟩ := behind cut' below
            exact ⟨o, enclosing_append (first :: inner) found, own⟩
          cases between with
          | nil =>
              have start : rest = [] ++ e :: after := cut'.symm
              obtain ⟨o, found, own⟩ := behind start below
              cases found
          | cons e' between =>
              obtain ⟨rfl, -⟩ := List.cons.inj cut'
              -- The entry is right inside the first one, or inside another one that is inside it.
              rcases Nat.eq_or_lt_of_le (deeper.le_depth e (by simp)) with next | further
              · refine ⟨first, enclosing_cons (by omega) fun x mem => ?_, holds (by simp), contains e (by simp)⟩
                exact next ▸ deeper.le_depth x (List.mem_append_left _ mem)
              · obtain ⟨o, found, own⟩ := inside rfl further
                exact ⟨o, enclosing_append [first] found, own⟩

end Indented

end LosslessTree.Outline
