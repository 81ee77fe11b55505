import LosslessTree.Kind.Name

set_option autoImplicit false

namespace LosslessTree

structure KindSet where
  bits : BitVec 78
  deriving DecidableEq

namespace KindSet

def empty : KindSet := ⟨0⟩

def contains (s : KindSet) (k : Kind) : Bool := s.bits.getLsbD k.index

def insert (s : KindSet) (k : Kind) : KindSet := ⟨s.bits ||| BitVec.twoPow 78 k.index⟩

def union (a b : KindSet) : KindSet := ⟨a.bits ||| b.bits⟩

def ofList (kinds : List Kind) : KindSet := kinds.foldl insert empty

def toList (s : KindSet) : List Kind := Kind.all.filter s.contains

def size (s : KindSet) : Nat := s.toList.length

def isEmpty (s : KindSet) : Bool := s.size == 0

-- The written form, such as `{IDENT_PAT, REST_PAT}`.
def render (s : KindSet) : String :=
  "\x7b" ++ ", ".intercalate (s.toList.map Kind.rawName) ++ "\x7d"

@[simp] theorem contains_empty (k : Kind) : empty.contains k = false := by
  simp [contains, empty]

@[simp] theorem contains_insert (s : KindSet) (a k : Kind) :
    (s.insert a).contains k = (s.contains k || a == k) := by
  have hk := k.index_lt
  by_cases h : a = k
  · subst h
    simp [contains, insert, hk]
  · have hi : a.index ≠ k.index := fun e => h (Kind.index_injective e)
    simp [contains, insert, hi, h]

@[simp] theorem contains_union (a b : KindSet) (k : Kind) :
    (a.union b).contains k = (a.contains k || b.contains k) := by
  simp [contains, union]

theorem contains_ofList (kinds : List Kind) (k : Kind) :
    (ofList kinds).contains k = kinds.contains k := by
  suffices h : ∀ s : KindSet,
      (kinds.foldl insert s).contains k = (s.contains k || kinds.contains k) by
    simpa [ofList] using h empty
  induction kinds with
  | nil => simp
  | cons a kinds ih =>
      intro s
      rw [List.foldl_cons, ih, contains_insert]
      by_cases h : a = k
      · simp [h]
      · have apart : (a == k) = false := by simpa using h
        simp [apart, Ne.symm h]

theorem mem_toList (s : KindSet) (k : Kind) : k ∈ s.toList ↔ s.contains k = true := by
  simp [toList, Kind.mem_all]

end KindSet

end LosslessTree
