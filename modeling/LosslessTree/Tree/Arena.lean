import LosslessTree.Tree.Assembly

/-!
# Trees in flat lists

The nodes of a tree in one list, its tokens in another and the children of all nodes in a third, of
which each node names its stretches. The lists are filled by the events as they come: what a node
holds is entered when it is closed.
-/

set_option autoImplicit false

namespace LosslessTree

structure Stretch where
  start : Nat
  stop : Nat
  deriving DecidableEq, Repr, Inhabited

instance : Membership Nat Stretch := ⟨fun s i => s.start ≤ i ∧ i < s.stop⟩

@[simp] theorem Stretch.mem_iff {s : Stretch} {i : Nat} : i ∈ s ↔ s.start ≤ i ∧ i < s.stop := Iff.rfl

/-- Whether trivia is attached before a token and behind it, and how many pieces follow one another:
at a token those before it, at the first piece behind one those behind it. -/
structure Attached where
  before : Bool
  behind : Bool
  count : Nat
  deriving DecidableEq, Repr, Inhabited

def Attached.none : Attached := ⟨false, false, 0⟩

structure ArenaNode where
  kind : Kind
  parent : Option Nat
  children : Stretch
  -- Those of trivia included.
  tokens : Stretch
  subtreeStop : Nat
  deriving DecidableEq, Repr, Inhabited

structure ArenaToken where
  kind : Kind
  attached : Attached
  -- The byte behind the token.
  stop : Nat
  parent : Nat
  deriving DecidableEq, Repr, Inhabited

structure Arena where
  text : Text
  nodes : List ArenaNode
  -- The first one stands for none of the text, and ends where the text begins.
  tokens : List ArenaToken
  children : List Child
  deriving DecidableEq, Repr

def Piece.entries (parent : Nat) : Nat → List Piece → List ArenaToken
  | _, [] => []
  | offset, p :: pieces =>
      ⟨p.kind.kind, .none, offset + p.length, parent⟩ :: entries parent (offset + p.length) pieces

-- Trivia behind a token. The first piece tells how many there are.
def Piece.trailingEntries (parent offset : Nat) : List Piece → List ArenaToken
  | [] => []
  | p :: pieces =>
      ⟨p.kind.kind, ⟨false, false, pieces.length + 1⟩, offset + p.length, parent⟩
        :: entries parent (offset + p.length) pieces

def Leaf.entries (parent offset : Nat) (l : Leaf) : List ArenaToken :=
  let start := offset + Piece.lengthOf l.leading
  Piece.entries parent offset l.leading
    ++ ⟨l.kind, ⟨!l.leading.isEmpty, !l.trailing.isEmpty, l.leading.length⟩, start + l.length, parent⟩
      :: Piece.trailingEntries parent (start + l.length) l.trailing

/-- An arena, the open nodes with the children that each has so far, innermost first, and how many
bytes the tokens cover. -/
structure ArenaBuilder where
  arena : Arena
  opened : List (Nat × List Child)
  covered : Nat
  deriving DecidableEq, Repr

namespace ArenaBuilder

def start (text : Text) : ArenaBuilder :=
  ⟨⟨text, [], [⟨.tombstone, .none, 0, 0⟩], []⟩, [], 0⟩

def counts (b : ArenaBuilder) : Counts :=
  ⟨b.arena.nodes.length, b.arena.tokens.length, b.arena.children.length⟩

def push (b : ArenaBuilder) (kind : Kind) (parent : Option Nat) (outer : List (Nat × List Child)) :
    ArenaBuilder :=
  let next := b.arena.tokens.length
  let node : ArenaNode := ⟨kind, parent, ⟨0, 0⟩, ⟨next, next⟩, b.arena.nodes.length + 1⟩
  { b with
    arena := { b.arena with nodes := b.arena.nodes ++ [node] }
    opened := (b.arena.nodes.length, []) :: outer }

def openNode (b : ArenaBuilder) (kind : Kind) : Except AssemblyError ArenaBuilder :=
  if !kind.isNode then .error (.notNodeKind kind)
  else
    match b.opened with
    | (parent, children) :: outer =>
        (b.counts.openNode false).map fun _ =>
          let children := children ++ [.node b.arena.nodes.length]
          b.push kind (some parent) ((parent, children) :: outer)
    | [] => (b.counts.openNode !b.arena.nodes.isEmpty).map fun _ => b.push kind none []

-- A node as it is when it is closed: it holds all that was added since it was opened.
def close (a : Arena) (children : List Child) (node : ArenaNode) : ArenaNode :=
  { node with
    children := ⟨a.children.length, a.children.length + children.length⟩
    tokens := ⟨node.tokens.start, a.tokens.length⟩
    subtreeStop := a.nodes.length }

def closeNode (b : ArenaBuilder) : Except AssemblyError ArenaBuilder :=
  match b.opened with
  | [] => .error .noOpenNode
  | (n, children) :: outer =>
      (b.counts.closeNode children.length).map fun _ =>
        { b with
          arena := { b.arena with
            nodes := b.arena.nodes.modify n (close b.arena children)
            children := b.arena.children ++ children }
          opened := outer }

def token (b : ArenaBuilder) (l : Leaf) : Except AssemblyError ArenaBuilder :=
  if l.kind.isNode then .error (.notTokenKind l.kind)
  else
    match b.opened with
    | [] => .error .noOpenNode
    | (n, children) :: outer =>
        (b.counts.token b.arena.text b.covered l).map fun (covered, _) =>
          { b with
            arena := { b.arena with tokens := b.arena.tokens ++ l.entries n b.covered }
            opened :=
              (n, children ++ [.token (b.arena.tokens.length + l.leading.length)]) :: outer
            covered := covered }

def step (b : ArenaBuilder) : TreeEvent → Except AssemblyError ArenaBuilder
  | .openNode kind => b.openNode kind
  | .token l => b.token l
  | .closeNode => b.closeNode

def finish (b : ArenaBuilder) : Except AssemblyError Arena :=
  if !b.opened.isEmpty then .error .unbalanced
  else if b.arena.nodes.isEmpty then .error .noRoot
  else if b.covered = b.arena.text.byteLength then .ok b.arena
  else .error (.uncovered b.covered b.arena.text.byteLength)

def run (text : Text) (events : List TreeEvent) : Except AssemblyError Arena := do
  (← events.foldlM step (start text)).finish

end ArenaBuilder

-- A child of which the index does not count the first token of an arena.
def Child.unseeded : Child → Child
  | node n => node n
  | token i => token (i - 1)

-- Tokens from the byte on where the one before them ends.
def ArenaToken.read : Nat → List ArenaToken → List TokenData
  | _, [] => []
  | start, t :: rest =>
      ⟨t.kind, t.parent, ⟨start, t.stop⟩, if t.attached.before then t.attached.count else 0,
          if t.attached.behind then (rest.head?.map fun next => next.attached.count).getD 0 else 0⟩
        :: read t.stop rest

namespace Arena

variable (a : Arena)

def tokenStop (i : Nat) : Nat := (a.tokens.getD i default).stop

def slice (s : Stretch) : List Child := (a.children.drop s.start).take (s.stop - s.start)

def bytes (tokens : Stretch) : Span :=
  let start := a.tokenStop (tokens.start - 1)
  ⟨start, if tokens.start = tokens.stop then start else a.tokenStop (tokens.stop - 1)⟩

def nodeData (node : ArenaNode) : NodeData where
  kind := node.kind
  parent := node.parent
  children := (a.slice node.children).map Child.unseeded
  tokenStart := node.tokens.start - 1
  tokenStop := node.tokens.stop - 1
  subtreeStop := node.subtreeStop
  span := a.bytes node.tokens

def tree : SyntaxTree :=
  ⟨a.text, (a.nodes.map a.nodeData).toArray, (ArenaToken.read 0 a.tokens.tail).toArray⟩

end Arena

end LosslessTree
