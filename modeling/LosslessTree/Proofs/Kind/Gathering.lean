import Mathlib.Data.Finset.Card
import LosslessTree.Proofs.Kind.Packing

set_option autoImplicit false

namespace LosslessTree

namespace Kind

theorem all_rising : all.Pairwise fun a b => a.index < b.index := by decide

end Kind

inductive Recipe where
  | new (kinds : List Kind)
  | collect (kinds : List Kind)
  | insert (before : Recipe) (k : Kind)
  | union (left right : Recipe)

namespace Recipe

def members : Recipe → Finset Kind
  | new kinds => kinds.toFinset
  | collect kinds => kinds.toFinset
  | insert before k => Insert.insert k before.members
  | union left right => left.members ∪ right.members

def set : Recipe → KindSet
  | new kinds => .ofList kinds
  | collect kinds => .ofList kinds
  | insert before k => before.set.insert k
  | union left right => left.set.union right.set

def words : Recipe → KindWords
  | new kinds => .new kinds
  | collect kinds => .collect kinds
  | insert before k => before.words.insert k
  | union left right => left.words.union right.words

theorem contains_set (r : Recipe) (k : Kind) : r.set.contains k = true ↔ k ∈ r.members := by
  induction r with
  | new kinds => simp [set, members, KindSet.contains_ofList]
  | collect kinds => simp [set, members, KindSet.contains_ofList]
  | insert before a ih =>
      rw [set, members, KindSet.contains_insert, Bool.or_eq_true, beq_iff_eq, ih,
        Finset.mem_insert, or_comm, eq_comm]
  | union left right left_ih right_ih => simp [set, members, left_ih, right_ih]

theorem words_eq_packed (r : Recipe) : r.words = .packed r.set := by
  induction r with
  | new kinds => rw [words, set, KindWords.packed_ofList, KindWords.new_eq_collect]
  | collect kinds => rw [words, set, KindWords.packed_ofList]
  | insert before k ih => rw [words, set, ih, KindWords.packed_insert]
  | union left right left_ih right_ih => rw [words, set, left_ih, right_ih, KindWords.packed_union]

end Recipe

namespace KindSet

theorem eq_of_contains {a b : KindSet} (same : ∀ k, a.contains k = b.contains k) : a = b := by
  obtain ⟨a⟩ := a
  obtain ⟨b⟩ := b
  congr
  apply BitVec.eq_of_getLsbD_eq
  intro place inside
  obtain ⟨k, found⟩ := Kind.exists_ofIndex? inside
  have read := same k
  rwa [contains, contains, Kind.index_of_ofIndex? found] at read

theorem toList_rising (s : KindSet) : s.toList.Pairwise fun a b => a.index < b.index :=
  Kind.all_rising.filter s.contains

end KindSet

/-- What is asked of a set comes out as for the finite set of its members. -/
structure Represents (members : Finset Kind) (contains : Kind → Bool) (listed : List Kind)
    (size : Nat) (isEmpty : Bool) : Prop where
  contains_iff : ∀ k, contains k = true ↔ k ∈ members
  mem_listed_iff : ∀ k, k ∈ listed ↔ k ∈ members
  rising : listed.Pairwise fun a b => a.index < b.index
  size_eq_card : size = members.card
  isEmpty_iff : isEmpty = true ↔ members = ∅

namespace Recipe

theorem represents_set (r : Recipe) :
    Represents r.members r.set.contains r.set.toList r.set.size r.set.isEmpty := by
  have listed : r.set.toList.toFinset = r.members := by
    ext k
    rw [List.mem_toFinset, KindSet.mem_toList, contains_set]
  -- Members that rise are apart, so that their number is that of the finite set.
  have nodup : r.set.toList.Nodup := by
    refine r.set.toList_rising.imp ?_
    intro a b below same
    rw [same] at below
    exact Nat.lt_irrefl _ below
  have card : r.set.size = r.members.card := by
    rw [KindSet.size, ← listed, List.toFinset_card_of_nodup nodup]
  refine ⟨r.contains_set, fun k => ?_, r.set.toList_rising, card, ?_⟩
  · rw [← listed, List.mem_toFinset]
  · rw [KindSet.isEmpty, card, beq_iff_eq, Finset.card_eq_zero]

theorem represents_words (r : Recipe) :
    Represents r.members r.words.contains r.words.toList r.words.size r.words.isEmpty := by
  have contains : (KindWords.packed r.set).contains = r.set.contains :=
    funext (KindWords.contains_packed r.set)
  rw [words_eq_packed, contains, KindWords.toList_packed, KindWords.isEmpty_packed,
    KindWords.size_packed]
  exact r.represents_set

theorem set_eq_iff (a b : Recipe) : a.set = b.set ↔ a.members = b.members := by
  constructor
  · intro same
    ext k
    rw [← contains_set, ← contains_set, same]
  · intro same
    apply KindSet.eq_of_contains
    intro k
    rw [Bool.eq_iff_iff, contains_set, contains_set, same]

theorem words_eq_iff (a b : Recipe) : a.words = b.words ↔ a.members = b.members := by
  rw [words_eq_packed, words_eq_packed, ← set_eq_iff]
  exact ⟨KindWords.packed_injective, congrArg KindWords.packed⟩

end Recipe

/-- However sets are put together, each is the finite set of its members, two are equal when their
members are, and the order of a union does not matter. -/
theorem recipe_represents (a b c : Recipe) :
    (Represents a.members a.set.contains a.set.toList a.set.size a.set.isEmpty ∧
      ((a.set == b.set) = true ↔ a.members = b.members) ∧
      a.set.union b.set = b.set.union a.set ∧
      (a.set.union b.set).union c.set = a.set.union (b.set.union c.set) ∧
      a.set.union a.set = a.set) ∧
    (Represents a.members a.words.contains a.words.toList a.words.size a.words.isEmpty ∧
      ((a.words == b.words) = true ↔ a.members = b.members) ∧
      a.words.union b.words = b.words.union a.words ∧
      (a.words.union b.words).union c.words = a.words.union (b.words.union c.words) ∧
      a.words.union a.words = a.words) ∧
    a.words = .packed a.set := by
  have comm : (a.union b).members = (b.union a).members := Finset.union_comm _ _
  have assoc : ((a.union b).union c).members = (a.union (b.union c)).members :=
    Finset.union_assoc _ _ _
  have idem : (a.union a).members = a.members := Finset.union_idempotent _
  refine ⟨⟨a.represents_set, ?_, ?_, ?_, ?_⟩, ⟨a.represents_words, ?_, ?_, ?_, ?_⟩,
    a.words_eq_packed⟩
  · rw [beq_iff_eq, Recipe.set_eq_iff]
  · exact (Recipe.set_eq_iff _ _).mpr comm
  · exact (Recipe.set_eq_iff _ _).mpr assoc
  · exact (Recipe.set_eq_iff _ _).mpr idem
  · rw [beq_iff_eq, Recipe.words_eq_iff]
  · exact (Recipe.words_eq_iff _ _).mpr comm
  · exact (Recipe.words_eq_iff _ _).mpr assoc
  · exact (Recipe.words_eq_iff _ _).mpr idem

end LosslessTree
