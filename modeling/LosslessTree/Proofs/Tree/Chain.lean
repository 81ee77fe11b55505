import LosslessTree.Proofs.Tree.Embedding

set_option autoImplicit false

namespace LosslessTree

def Piece.placed : Nat → List Piece → List (Kind × Span)
  | _, [] => []
  | offset, p :: pieces =>
      (p.kind.kind, ⟨offset, offset + p.length⟩) :: Piece.placed (offset + p.length) pieces

namespace Leaf

def placed (offset : Nat) (l : Leaf) : List (Kind × Span) :=
  let start := offset + Piece.lengthOf l.leading
  Piece.placed offset l.leading ++
    (l.kind, ⟨start, start + l.length⟩) :: Piece.placed (start + l.length) l.trailing

def placedAll : Nat → List Leaf → List (Kind × Span)
  | _, [] => []
  | offset, l :: leaves => l.placed offset ++ placedAll (offset + l.byteLength) leaves

theorem placedAll_append (offset : Nat) (leaves more : List Leaf) :
    placedAll offset (leaves ++ more) =
      placedAll offset leaves ++ placedAll (offset + total byteLength leaves) more := by
  induction leaves generalizing offset with
  | nil => rfl
  | cons l leaves ih => simp [placedAll, ih, Nat.add_assoc]

end Leaf

def TokenData.placed (d : TokenData) : Kind × Span := (d.kind, d.span)

theorem Piece.layout_placed (parent offset : Nat) (pieces : List Piece) :
    (Piece.layout parent offset pieces).map TokenData.placed = Piece.placed offset pieces := by
  induction pieces generalizing offset with
  | nil => rfl
  | cons p pieces ih =>
      rw [Piece.layout, List.map_cons, ih]
      rfl

theorem Leaf.layout_placed (parent offset : Nat) (l : Leaf) :
    (l.layout parent offset).map TokenData.placed = l.placed offset := by
  simp [Leaf.layout, Leaf.placed, Piece.layout_placed, TokenData.placed]

theorem Forest.layout_placed (parent : Nat) (p : Place) (f : Forest) :
    (f.layout parent p).tokens.map TokenData.placed = Leaf.placedAll p.offset f.leaves := by
  induction f generalizing parent p with
  | nil => rfl
  | leaf l rest ih =>
      simp [Forest.layout, Forest.leaves, Leaf.placedAll, Leaf.layout_placed, ih, Place.afterLeaf]
  | node k inner rest hi hr =>
      simp [Forest.layout, Forest.leaves, Leaf.placedAll_append, hi, hr, Place.inside, Place.after,
        Forest.byteLength_leaves]

namespace SyntaxTree

variable {t : SyntaxTree} {i j : Nat}

theorem nextToken?_eq_some (h : t.nextToken? i = some j) : j = i + 1 ∧ j < t.tokens.size := by
  unfold nextToken? at h
  split at h
  · cases h
    exact ⟨rfl, by assumption⟩
  · cases h

def tokensFrom (t : SyntaxTree) (i : Nat) : List Nat :=
  i :: match _next : t.nextToken? i with
    | some j => tokensFrom t j
    | none => []
termination_by t.tokens.size - i
decreasing_by
  have := nextToken?_eq_some _next
  omega

def tokenChain (t : SyntaxTree) : List Nat :=
  match t.firstToken? 0 with
  | some i => t.tokensFrom i
  | none => []

def placedToken (t : SyntaxTree) (i : Nat) : Kind × Span := (t.tokenKind i, t.tokenSpan i)

theorem tokensFrom_eq_range' (inside : i < t.tokens.size) :
    t.tokensFrom i = List.range' i (t.tokens.size - i) := by
  generalize size : t.tokens.size - i = n
  induction n generalizing i with
  | zero => omega
  | succ n ih =>
      rw [tokensFrom, List.range'_succ]
      congr 1
      split
      · next j next =>
          obtain ⟨rfl, more⟩ := nextToken?_eq_some next
          exact ih more (by omega)
      · next last =>
          obtain rfl : n = 0 := by
            simp only [nextToken?, ite_eq_right_iff, reduceCtorEq, imp_false] at last
            omega
          rfl

theorem map_placedToken_range' :
    (List.range' 0 t.tokens.size).map t.placedToken =
      t.tokens.toList.map TokenData.placed := by
  have whole : t.tokens.toList <+: t.tokens.toList.drop 0 := by simp
  have read := congrArg (List.map TokenData.placed) (map_getD_of_prefix_drop default whole)
  rw [List.map_map, Array.length_toList] at read
  rw [← read]
  apply List.map_congr_left
  intro i _
  simp only [placedToken, tokenKind, tokenSpan, token_eq_getD, Function.comp_apply,
    TokenData.placed]

theorem tokensOf_ofRoot (text : Text) (k : Kind) (inner : Forest) :
    (ofRoot text k inner).tokensOf 0 = List.range' 0 (ofRoot text k inner).tokens.size := by
  rw [tokensOf, ofRoot_node_zero, ofRoot_tokens_size]
  simp [NodeData.around]

theorem map_placedToken_tokensOf (text : Text) (k : Kind) (inner : Forest) :
    ((ofRoot text k inner).tokensOf 0).map (ofRoot text k inner).placedToken =
      Leaf.placedAll 0 inner.leaves := by
  rw [tokensOf_ofRoot, map_placedToken_range']
  exact Forest.layout_placed 0 ⟨1, 0, 0⟩ inner

theorem tokenChain_ofRoot (text : Text) (k : Kind) (inner : Forest) :
    (ofRoot text k inner).tokenChain.map (ofRoot text k inner).placedToken =
      Leaf.placedAll 0 inner.leaves := by
  rw [← map_placedToken_tokensOf, tokenChain, firstToken?, tokensOf_ofRoot]
  cases size : (ofRoot text k inner).tokens.size with
  | zero => rfl
  | succ n =>
      simp only [List.range'_succ, List.head?_cons]
      rw [tokensFrom_eq_range' (by omega), size, Nat.sub_zero, List.range'_succ]

end SyntaxTree

end LosslessTree
