import LosslessTree.Tree.Forest

/-!
# Trees with positions

A tree keeps its nodes in pre-order and its tokens, those of trivia included, in text order. A node
is named by its place in the first list and a token by its place in the second.
-/

set_option autoImplicit false

namespace LosslessTree

-- A child of a node: a node, or a token that is not trivia.
inductive Child where
  | node (index : Nat)
  | token (index : Nat)
  deriving DecidableEq, Repr

structure NodeData where
  kind : Kind
  parent : Option Nat
  children : List Child
  -- The first token of the node, trivia included, and the one behind its last.
  tokenStart : Nat
  tokenStop : Nat
  -- The node behind the last one below this.
  subtreeStop : Nat
  span : Span
  deriving DecidableEq, Repr, Inhabited

structure TokenData where
  kind : Kind
  parent : Nat
  span : Span
  -- How many tokens of trivia stand attached before and behind.
  leading : Nat
  trailing : Nat
  deriving DecidableEq, Repr, Inhabited

structure Place where
  node : Nat
  token : Nat
  offset : Nat
  deriving DecidableEq, Repr

def Place.afterLeaf (p : Place) (l : Leaf) : Place :=
  ⟨p.node, p.token + l.tokenCount, p.offset + l.byteLength⟩

def Place.inside (p : Place) : Place := ⟨p.node + 1, p.token, p.offset⟩

def Place.after (p : Place) (f : Forest) : Place :=
  ⟨p.node + f.nodeCount, p.token + f.tokenCount, p.offset + f.byteLength⟩

def Piece.layout (parent : Nat) : Nat → List Piece → List TokenData
  | _, [] => []
  | offset, p :: pieces =>
      ⟨p.kind.kind, parent, ⟨offset, offset + p.length⟩, 0, 0⟩
        :: Piece.layout parent (offset + p.length) pieces

def Leaf.layout (parent offset : Nat) (l : Leaf) : List TokenData :=
  let start := offset + Piece.lengthOf l.leading
  Piece.layout parent offset l.leading
    ++ ⟨l.kind, parent, ⟨start, start + l.length⟩, l.leading.length, l.trailing.length⟩
      :: Piece.layout parent (start + l.length) l.trailing

-- The nodes and tokens of a forest, and its own elements as children of the node around it.
structure Layout where
  nodes : List NodeData
  tokens : List TokenData
  children : List Child

def NodeData.around (parent : Option Nat) (p : Place) (kind : Kind) (inner : Forest)
    (children : List Child) : NodeData where
  kind := kind
  parent := parent
  children := children
  tokenStart := p.token
  tokenStop := p.token + inner.tokenCount
  subtreeStop := p.node + 1 + inner.nodeCount
  span := ⟨p.offset, p.offset + inner.byteLength⟩

def Forest.layout (parent : Nat) (p : Place) : Forest → Layout
  | nil => ⟨[], [], []⟩
  | leaf l rest =>
      let more := rest.layout parent (p.afterLeaf l)
      ⟨more.nodes, l.layout parent p.offset ++ more.tokens,
        .token (p.token + l.leading.length) :: more.children⟩
  | node kind inner rest =>
      let within := inner.layout p.node p.inside
      let more := rest.layout parent (p.inside.after inner)
      ⟨.around (some parent) p kind inner within.children :: within.nodes ++ more.nodes,
        within.tokens ++ more.tokens, .node p.node :: more.children⟩

structure SyntaxTree where
  text : Text
  nodes : Array NodeData
  tokens : Array TokenData
  deriving DecidableEq

def SyntaxTree.ofRoot (text : Text) (kind : Kind) (inner : Forest) : SyntaxTree :=
  let within := inner.layout 0 ⟨1, 0, 0⟩
  ⟨text, (NodeData.around none ⟨0, 0, 0⟩ kind inner within.children :: within.nodes).toArray,
    within.tokens.toArray⟩

theorem Piece.layout_length (parent offset : Nat) (pieces : List Piece) :
    (Piece.layout parent offset pieces).length = pieces.length := by
  induction pieces generalizing offset with
  | nil => rfl
  | cons p pieces ih => simp [Piece.layout, ih]

theorem Leaf.layout_length (parent offset : Nat) (l : Leaf) :
    (l.layout parent offset).length = l.tokenCount := by
  simp [Leaf.layout, Leaf.tokenCount, Piece.layout_length]
  omega

theorem Forest.layout_nodes_length (parent : Nat) (p : Place) (f : Forest) :
    (f.layout parent p).nodes.length = f.nodeCount := by
  induction f generalizing parent p with
  | nil => rfl
  | leaf l rest ih => simp [layout, nodeCount, ih]
  | node k inner rest hi hr => simp [layout, nodeCount, hi, hr]; omega

theorem Forest.layout_tokens_length (parent : Nat) (p : Place) (f : Forest) :
    (f.layout parent p).tokens.length = f.tokenCount := by
  induction f generalizing parent p with
  | nil => rfl
  | leaf l rest ih => simp [layout, tokenCount, ih, Leaf.layout_length]
  | node k inner rest hi hr => simp [layout, tokenCount, hi, hr]

end LosslessTree
