import LosslessTree.Token.Basic

set_option autoImplicit false

namespace LosslessTree

structure Piece where
  kind : TriviaKind
  length : Nat
  deriving DecidableEq, Repr

def Piece.lengthOf (pieces : List Piece) : Nat := total Piece.length pieces

structure Leaf where
  leading : List Piece
  kind : Kind
  length : Nat
  trailing : List Piece
  deriving DecidableEq, Repr

namespace Leaf

def tokenCount (l : Leaf) : Nat := l.leading.length + 1 + l.trailing.length

def byteLength (l : Leaf) : Nat :=
  Piece.lengthOf l.leading + l.length + Piece.lengthOf l.trailing

end Leaf

def Trivia.piece (t : Trivia) : Piece := ⟨t.kind, t.length⟩

def Token.leaf (t : Token) : Leaf :=
  ⟨t.leading.map Trivia.piece, t.kind, t.text.byteLength, t.trailing.map Trivia.piece⟩

inductive Forest where
  | nil
  | leaf (leaf : Leaf) (rest : Forest)
  | node (kind : Kind) (inner rest : Forest)
  deriving DecidableEq, Repr

namespace Forest

def append : Forest → Forest → Forest
  | nil, g => g
  | leaf l rest, g => leaf l (append rest g)
  | node k inner rest, g => node k inner (append rest g)

instance : Append Forest := ⟨append⟩

@[simp] theorem nil_append (g : Forest) : nil ++ g = g := rfl

@[simp] theorem leaf_append (l : Leaf) (f g : Forest) : leaf l f ++ g = leaf l (f ++ g) := rfl

@[simp] theorem node_append (k : Kind) (inner f g : Forest) :
    node k inner f ++ g = node k inner (f ++ g) := rfl

@[simp] theorem append_nil (f : Forest) : f ++ nil = f := by
  induction f with
  | nil => rfl
  | leaf l rest ih => simp [ih]
  | node k inner rest _ ih => simp [ih]

theorem append_assoc (f g h : Forest) : (f ++ g) ++ h = f ++ (g ++ h) := by
  induction f with
  | nil => rfl
  | leaf l rest ih => simp [ih]
  | node k inner rest _ ih => simp [ih]

def leaves : Forest → List Leaf
  | nil => []
  | leaf l rest => l :: leaves rest
  | node _ inner rest => leaves inner ++ leaves rest

@[simp] theorem leaves_append (f g : Forest) : (f ++ g).leaves = f.leaves ++ g.leaves := by
  induction f with
  | nil => rfl
  | leaf l rest ih => simp [leaves, ih]
  | node k inner rest _ ih => simp [leaves, ih]

def nodeCount : Forest → Nat
  | nil => 0
  | leaf _ rest => nodeCount rest
  | node _ inner rest => 1 + nodeCount inner + nodeCount rest

-- Number of tokens, those of trivia included.
def tokenCount : Forest → Nat
  | nil => 0
  | leaf l rest => l.tokenCount + tokenCount rest
  | node _ inner rest => tokenCount inner + tokenCount rest

def byteLength : Forest → Nat
  | nil => 0
  | leaf l rest => l.byteLength + byteLength rest
  | node _ inner rest => byteLength inner + byteLength rest

@[simp] theorem nodeCount_append (f g : Forest) :
    (f ++ g).nodeCount = f.nodeCount + g.nodeCount := by
  induction f with
  | nil => simp [nodeCount]
  | leaf l rest ih => simp [nodeCount, ih]
  | node k inner rest _ ih => simp [nodeCount, ih, Nat.add_assoc]

@[simp] theorem tokenCount_append (f g : Forest) :
    (f ++ g).tokenCount = f.tokenCount + g.tokenCount := by
  induction f with
  | nil => simp [tokenCount]
  | leaf l rest ih => simp [tokenCount, ih, Nat.add_assoc]
  | node k inner rest _ ih => simp [tokenCount, ih, Nat.add_assoc]

@[simp] theorem byteLength_append (f g : Forest) :
    (f ++ g).byteLength = f.byteLength + g.byteLength := by
  induction f with
  | nil => simp [byteLength]
  | leaf l rest ih => simp [byteLength, ih, Nat.add_assoc]
  | node k inner rest _ ih => simp [byteLength, ih, Nat.add_assoc]

def width : Forest → Nat
  | nil => 0
  | leaf _ rest => 1 + width rest
  | node _ _ rest => 1 + width rest

def slotCount : Forest → Nat
  | nil => 0
  | leaf _ rest => slotCount rest
  | node _ inner rest => slotCount inner + width inner + slotCount rest

@[simp] theorem width_append (f g : Forest) : (f ++ g).width = f.width + g.width := by
  induction f with
  | nil => simp [width]
  | leaf l rest ih => simp [width, ih, Nat.add_assoc]
  | node k inner rest _ ih => simp [width, ih, Nat.add_assoc]

-- Each node and each token is one of the elements, or one of those of a node.
theorem slotCount_add_width (f : Forest) :
    f.slotCount + f.width = f.nodeCount + f.leaves.length := by
  induction f with
  | nil => rfl
  | leaf l rest ih =>
      simp only [slotCount, width, nodeCount, leaves, List.length_cons]
      omega
  | node k inner rest hi hr =>
      simp only [slotCount, width, nodeCount, leaves, List.length_append]
      omega

theorem byteLength_leaves (f : Forest) : f.byteLength = total Leaf.byteLength f.leaves := by
  induction f with
  | nil => rfl
  | leaf l rest ih => simp [byteLength, leaves, ih]
  | node k inner rest hi hr => simp [byteLength, leaves, hi, hr]

end Forest

end LosslessTree
