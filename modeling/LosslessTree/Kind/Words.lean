import LosslessTree.Kind.Set

/-!
# Sets of kinds in words

The bits of a set in two words of 64 bits. A kind has its bit in the word that its place in the order
of kinds falls into, and a member is found again by the place of its bit: among the tokens, or behind
them among the productions.
-/

set_option autoImplicit false

namespace LosslessTree

namespace Kind

def tokens : List Kind := all.filter fun k => !k.isNode

def atPlace? (n : Nat) : Option Kind :=
  if inside : n < tokens.length then some tokens[n] else nodes[n - tokens.length]?

theorem tokens_append_nodes : tokens ++ nodes = all := by decide

theorem atPlace?_eq_ofIndex? (n : Nat) : atPlace? n = ofIndex? n := by
  rw [ofIndex?, ← tokens_append_nodes, List.getElem?_append, atPlace?]
  split
  · next inside => rw [List.getElem?_eq_getElem inside]
  · rfl

def slot (k : Kind) : Fin 2 := ⟨k.index / 64, by have := k.index_lt; omega⟩

def mask (k : Kind) : BitVec 64 := 1#64 <<< (k.index % 64)

end Kind

structure KindWords where
  words : Vector (BitVec 64) 2
  deriving DecidableEq

namespace KindWords

def empty : KindWords := ⟨Vector.replicate 2 0⟩

def word (s : KindWords) (slot : Fin 2) : BitVec 64 := s.words[slot]

def insert (s : KindWords) (k : Kind) : KindWords :=
  ⟨s.words.set k.slot (s.word k.slot ||| k.mask)⟩

def union (a b : KindWords) : KindWords := ⟨Vector.zipWith (· ||| ·) a.words b.words⟩

-- The set of a row of kinds, with all bits set before there is a set.
def new (kinds : List Kind) : KindWords :=
  ⟨kinds.foldl (fun words k => words.set k.slot (words[k.slot] ||| k.mask)) (Vector.replicate 2 0)⟩

def collect (kinds : List Kind) : KindWords := kinds.foldl insert empty

def contains (s : KindWords) (k : Kind) : Bool := s.word k.slot &&& k.mask != 0

def toList (s : KindWords) : List Kind :=
  (List.finRange 2).flatMap fun slot : Fin 2 =>
    ((List.range 64).filter fun bit => s.word slot &&& 1#64 <<< bit != 0).filterMap fun bit =>
      Kind.atPlace? (64 * slot + bit)

def size (s : KindWords) : Nat := total (fun word => word.cpop.toNat) s.words.toList

def isEmpty (s : KindWords) : Bool := s.size == 0

end KindWords

end LosslessTree
