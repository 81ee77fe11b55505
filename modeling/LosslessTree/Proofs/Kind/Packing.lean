import Mathlib.Data.List.Basic
import LosslessTree.Kind.Words

set_option autoImplicit false

namespace LosslessTree

namespace Kind

theorem mask_bit (word : BitVec 64) (bit : Nat) :
    (word &&& 1#64 <<< bit != 0) = word.getLsbD bit := by
  rw [← BitVec.twoPow_eq, BitVec.and_twoPow]
  cases read : word.getLsbD bit with
  | false => simp
  | true =>
      -- A bit that is read is one of the word, so that the power of two is not shifted out of it.
      have inside : bit < 64 := BitVec.lt_of_getLsbD read
      simp only [if_true, bne_iff_ne, ne_eq]
      intro zero
      have := congrArg (BitVec.getLsbD · bit) zero
      simp [inside] at this

theorem getLsbD_mask (k : Kind) (bit : Nat) : k.mask.getLsbD bit = decide (bit = k.index % 64) := by
  have inside : k.index % 64 < 64 := Nat.mod_lt _ (by decide)
  rw [mask, ← BitVec.twoPow_eq, BitVec.getLsbD_twoPow]
  simp [inside, eq_comm]

theorem toNat_cpop_eq_countP {width : Nat} (word : BitVec width) :
    word.cpop.toNat = (List.range width).countP word.getLsbD := by
  rw [BitVec.toNat_cpop]
  suffices run : ∀ n, word.cpopNatRec n 0 = (List.range n).countP word.getLsbD from run width
  intro n
  induction n with
  | zero => rfl
  | succ n ih =>
      rw [BitVec.cpopNatRec_succ, BitVec.cpopNatRec_add, ih, List.range_succ, List.countP_append]
      cases read : word.getLsbD n <;> simp [read]

theorem range_filterMap_ofIndex? : (List.range 128).filterMap ofIndex? = all := by decide

theorem index_of_ofIndex? {place : Nat} {k : Kind} (found : ofIndex? place = some k) :
    k.index = place := by
  obtain ⟨inside, -⟩ := List.getElem?_eq_some_iff.mp found
  have nodup : all.Nodup := by decide
  exact ((List.getElem?_inj inside nodup).mp (found.trans (all_getElem?_index k).symm)).symm

theorem exists_ofIndex? {place : Nat} (inside : place < 78) : ∃ k, ofIndex? place = some k :=
  ⟨_, List.getElem?_eq_getElem (show place < all.length from inside)⟩

theorem index_eq_place {k : Kind} {slot : Fin 2} {bit : Nat} (inside : bit < 64) :
    k.index = 64 * slot.val + bit ↔ k.slot = slot ∧ bit = k.index % 64 := by
  simp only [Fin.ext_iff, Kind.slot]
  omega

end Kind

namespace KindSet

def memberAt? (t : KindSet) (place : Nat) : Option Kind :=
  if t.bits.getLsbD place then Kind.ofIndex? place else none

theorem memberAt?_eq_filter (t : KindSet) (place : Nat) :
    t.memberAt? place = (Kind.ofIndex? place).filter t.contains := by
  rw [memberAt?]
  cases found : Kind.ofIndex? place with
  | none => simp
  | some k => simp [Option.filter, contains, Kind.index_of_ofIndex? found]

theorem isSome_memberAt? (t : KindSet) (place : Nat) :
    (t.memberAt? place).isSome = t.bits.getLsbD place := by
  rw [memberAt?]
  cases read : t.bits.getLsbD place with
  | false => rfl
  | true =>
      obtain ⟨k, found⟩ := Kind.exists_ofIndex? (BitVec.lt_of_getLsbD read)
      simp [found]

end KindSet

namespace KindWords

def packed (t : KindSet) : KindWords :=
  ⟨Vector.ofFn fun slot : Fin 2 => t.bits.extractLsb' (64 * slot) 64⟩

theorem ext_bits {a b : KindWords}
    (same : ∀ slot : Fin 2, ∀ bit < 64, (a.word slot).getLsbD bit = (b.word slot).getLsbD bit) :
    a = b := by
  obtain ⟨a⟩ := a
  obtain ⟨b⟩ := b
  congr
  apply Vector.ext
  intro slot inside
  exact BitVec.eq_of_getLsbD_eq (same ⟨slot, inside⟩)

theorem packed_bit (t : KindSet) (slot : Fin 2) {bit : Nat} (inside : bit < 64) :
    ((packed t).word slot).getLsbD bit = t.bits.getLsbD (64 * slot + bit) := by
  simp [packed, word, inside]

theorem insert_bit (s : KindWords) (k : Kind) (slot : Fin 2) (bit : Nat) :
    ((s.insert k).word slot).getLsbD bit =
      ((s.word slot).getLsbD bit || decide (k.slot = slot ∧ bit = k.index % 64)) := by
  rw [insert, word, Fin.getElem_fin, Vector.getElem_set]
  by_cases own : k.slot = slot
  · subst own
    simp [Kind.getLsbD_mask]
  · have apart : (k.slot : Nat) ≠ slot := fun same => own (Fin.ext same)
    simp [own, apart, word]

theorem packed_empty : packed .empty = empty := by
  apply ext_bits
  intro slot bit inside
  rw [packed_bit _ _ inside]
  simp [KindSet.empty, empty, word]

theorem packed_insert (t : KindSet) (k : Kind) : packed (t.insert k) = (packed t).insert k := by
  apply ext_bits
  intro slot bit inside
  rw [insert_bit, packed_bit _ _ inside, packed_bit _ _ inside, KindSet.insert, BitVec.getLsbD_or,
    BitVec.getLsbD_twoPow]
  simp only [Kind.index_eq_place inside, k.index_lt, decide_true, Bool.true_and]

theorem packed_union (a b : KindSet) : packed (a.union b) = (packed a).union (packed b) := by
  apply ext_bits
  intro slot bit inside
  have both : ((packed a).union (packed b)).word slot = (packed a).word slot ||| (packed b).word slot :=
    Vector.getElem_zipWith slot.isLt
  rw [both, BitVec.getLsbD_or, packed_bit _ _ inside, packed_bit _ _ inside, packed_bit _ _ inside,
    KindSet.union, BitVec.getLsbD_or]

theorem packed_ofList (kinds : List Kind) : packed (.ofList kinds) = collect kinds := by
  suffices run : ∀ t : KindSet, packed (kinds.foldl KindSet.insert t) = kinds.foldl insert (packed t) by
    rw [KindSet.ofList, collect, run, packed_empty]
  intro t
  induction kinds generalizing t with
  | nil => rfl
  | cons k kinds ih => rw [List.foldl_cons, List.foldl_cons, ih, packed_insert]

theorem new_eq_collect (kinds : List Kind) : new kinds = collect kinds := by
  suffices run : ∀ s : KindWords, KindWords.mk
      (kinds.foldl (fun words k => words.set k.slot (words[k.slot] ||| k.mask)) s.words) =
        kinds.foldl insert s from run empty
  intro s
  induction kinds generalizing s with
  | nil => rfl
  | cons k kinds ih => exact ih (s.insert k)

theorem packed_injective {a b : KindSet} (same : packed a = packed b) : a = b := by
  obtain ⟨a⟩ := a
  obtain ⟨b⟩ := b
  congr
  apply BitVec.eq_of_getLsbD_eq
  intro place inside
  have cut : 64 * (place / 64) + place % 64 = place := Nat.div_add_mod place 64
  have left := packed_bit ⟨a⟩ ⟨place / 64, by omega⟩ (Nat.mod_lt place (by decide : 64 > 0))
  have right := packed_bit ⟨b⟩ ⟨place / 64, by omega⟩ (Nat.mod_lt place (by decide : 64 > 0))
  rw [same, right] at left
  simpa [cut] using left.symm

theorem contains_packed (t : KindSet) (k : Kind) : (packed t).contains k = t.contains k := by
  have inside : k.index % 64 < 64 := Nat.mod_lt _ (by decide)
  rw [contains, Kind.mask, Kind.mask_bit, packed_bit _ _ inside, KindSet.contains,
    ← (Kind.index_eq_place inside).mpr ⟨rfl, rfl⟩]

theorem flatMap_places {α : Type} (f : Nat → Option α) :
    ((List.finRange 2).flatMap fun slot : Fin 2 =>
        (List.range 64).filterMap fun bit => f (64 * slot.val + bit)) =
      (List.range 128).filterMap f := by
  have cut : List.range 128 =
      (List.range 64).map (64 * 0 + ·) ++ (List.range 64).map (64 * 1 + ·) := by decide
  have slots : List.finRange 2 = [0, 1] := by decide
  simp [cut, slots, List.filterMap_append, List.filterMap_map]

theorem toList_packed_eq (t : KindSet) :
    (packed t).toList = (List.finRange 2).flatMap fun slot : Fin 2 =>
      (List.range 64).filterMap fun bit => t.memberAt? (64 * slot.val + bit) := by
  rw [toList]
  congr
  funext slot
  rw [List.filterMap_filter]
  apply List.filterMap_congr
  intro bit mem
  rw [Kind.mask_bit, packed_bit t slot (List.mem_range.mp mem), Kind.atPlace?_eq_ofIndex?]
  rfl

theorem toList_packed (t : KindSet) : (packed t).toList = t.toList := by
  rw [toList_packed_eq, flatMap_places, KindSet.toList, ← Kind.range_filterMap_ofIndex?,
    List.filter_filterMap]
  congr
  funext place
  exact t.memberAt?_eq_filter place

example : (KindWords.new [.error, .tuplePat, .leftParen, .error]).toList =
    [.leftParen, .tuplePat, .error] := by decide

theorem size_packed (t : KindSet) : (packed t).size = t.size := by
  have bits (slot : Fin 2) : ((packed t).word slot).cpop.toNat =
      ((List.range 64).filterMap fun bit => t.memberAt? (64 * slot.val + bit)).length := by
    rw [Kind.toNat_cpop_eq_countP, List.length_filterMap_eq_countP]
    apply List.countP_congr
    intro bit mem
    rw [packed_bit t slot (List.mem_range.mp mem), KindSet.isSome_memberAt?]
  rw [KindSet.size, ← toList_packed, toList_packed_eq, List.length_flatMap, size]
  have slots : List.finRange 2 = [0, 1] := by decide
  have words : (packed t).words.toList = [(packed t).word 0, (packed t).word 1] := rfl
  simp [words, slots, bits]

theorem isEmpty_packed (t : KindSet) : (packed t).isEmpty = t.isEmpty := by
  rw [isEmpty, KindSet.isEmpty, size_packed]

end KindWords

end LosslessTree
