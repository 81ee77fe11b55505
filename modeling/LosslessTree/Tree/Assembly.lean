import LosslessTree.Kind.Name
import LosslessTree.Tree.Layout

set_option autoImplicit false

namespace LosslessTree

inductive TreeEvent where
  | openNode (kind : Kind)
  | token (leaf : Leaf)
  | closeNode
  deriving DecidableEq, Repr

def Forest.events : Forest → List TreeEvent
  | nil => []
  | leaf l rest => .token l :: events rest
  | node k inner rest => .openNode k :: events inner ++ .closeNode :: events rest

inductive AssemblyError where
  | notNodeKind (kind : Kind)
  | notTokenKind (kind : Kind)
  | noOpenNode
  | secondRoot
  | tooLarge
  | overflow
  | overrun
  | unbalanced
  | noRoot
  | uncovered (covered total : Nat)
  | unfinished
  deriving DecidableEq, Repr

def AssemblyError.message : AssemblyError → String
  | notNodeKind k => "`" ++ k.rawName ++ "` is a token kind, not a node kind"
  | notTokenKind k => "`" ++ k.rawName ++ "` is a node kind, not a token kind"
  | noOpenNode => "no opened nodes?"
  | secondRoot => "a tree has exactly one root node"
  | tooLarge => "syntax tree is too large: TryFromIntError(())"
  | overflow => "attempt to add with overflow"
  | overrun => "token lengths overrun the source text"
  | unbalanced => "unbalanced `start_node`/`finish_node` calls"
  | noRoot => "a tree needs a root node"
  | uncovered covered total =>
      "assertion `left == right` failed: tokens must cover the whole source text\n  left: "
        ++ toString covered ++ "\n right: " ++ toString total
  | unfinished => "you should call `Builder::finish()`"

structure OpenNode where
  kind : Kind
  inner : Forest
  deriving DecidableEq, Repr

/-- How many nodes have been opened, how many tokens there are behind one that stands for none of
the text, which counts too, and how many elements the closed nodes have. -/
structure Counts where
  nodes : Nat
  tokens : Nat
  children : Nat
  deriving DecidableEq, Repr

structure Assembly where
  text : Text
  opened : List OpenNode
  root : Option OpenNode
  covered : Nat
  counts : Counts

namespace Assembly

-- Offsets are below this, and so are the numbers of nodes, tokens and children.
def offsetLimit : Nat := 0x100000000

/-- The bytes covered once pieces of the given lengths have been added. Each must end at an offset,
and in the text, where a character ends. -/
def cover (text : Text) (covered : Nat) : List Nat → Except AssemblyError Nat
  | [] => .ok covered
  | n :: lengths =>
      if offsetLimit ≤ covered + n then .error .overflow
      else if text.isBoundary (covered + n) then cover text (covered + n) lengths
      else .error .overrun

def pieceLengths (l : Leaf) : List Nat :=
  l.leading.map Piece.length ++ l.length :: l.trailing.map Piece.length

def index (n : Nat) : Except AssemblyError Unit :=
  if n < offsetLimit then .ok () else .error .tooLarge

end Assembly

namespace Counts

open Assembly

def openNode (c : Counts) (isSecond : Bool) : Except AssemblyError Counts := do
  index c.nodes
  if isSecond then .error .secondRoot
  else
    index c.tokens
    -- The number behind the new node is kept with it.
    if c.nodes + 1 < offsetLimit then return { c with nodes := c.nodes + 1 }
    else .error .overflow

def closeNode (c : Counts) (width : Nat) : Except AssemblyError Counts := do
  index c.children
  index c.tokens
  index c.nodes
  index (c.children + width)
  return { c with children := c.children + width }

-- The bytes covered with a token and its trivia behind those so far. The number of the token and
-- the numbers of its pieces are looked at between them.
def token (c : Counts) (text : Text) (covered : Nat) (l : Leaf) : Except AssemblyError (Nat × Counts) := do
  let covered ← cover text covered (l.leading.map Piece.length)
  index (c.tokens + l.leading.length)
  index l.leading.length
  let covered ← cover text covered [l.length]
  index l.trailing.length
  let covered ← cover text covered (l.trailing.map Piece.length)
  return (covered, { c with tokens := c.tokens + l.tokenCount })

end Counts

namespace Assembly

def start (text : Text) : Assembly := ⟨text, [], none, 0, ⟨0, 1, 0⟩⟩

def openNode (a : Assembly) (kind : Kind) : Except AssemblyError Assembly :=
  if !kind.isNode then .error (.notNodeKind kind)
  else
    (a.counts.openNode (a.opened.isEmpty && a.root.isSome)).map fun counts =>
      { a with opened := ⟨kind, .nil⟩ :: a.opened, counts := counts }

def closeNode (a : Assembly) : Except AssemblyError Assembly :=
  match a.opened with
  | [] => .error .noOpenNode
  | closed :: outer =>
      (a.counts.closeNode closed.inner.width).map fun counts =>
        match outer with
        | [] => { a with opened := [], root := some closed, counts := counts }
        | around :: more =>
            let inner := around.inner ++ .node closed.kind closed.inner .nil
            { a with opened := ⟨around.kind, inner⟩ :: more, counts := counts }

def token (a : Assembly) (l : Leaf) : Except AssemblyError Assembly :=
  if l.kind.isNode then .error (.notTokenKind l.kind)
  else
    match a.opened with
    | [] => .error .noOpenNode
    | current :: outer =>
        (a.counts.token a.text a.covered l).map fun (covered, counts) =>
          { a with
            opened := { current with inner := current.inner ++ .leaf l .nil } :: outer
            covered := covered
            counts := counts }

def step (a : Assembly) : TreeEvent → Except AssemblyError Assembly
  | .openNode kind => a.openNode kind
  | .token l => a.token l
  | .closeNode => a.closeNode

def finish (a : Assembly) : Except AssemblyError SyntaxTree :=
  match a.opened, a.root with
  | _ :: _, _ => .error .unbalanced
  | [], none => .error .noRoot
  | [], some root =>
      if a.covered = a.text.byteLength then .ok (.ofRoot a.text root.kind root.inner)
      else .error (.uncovered a.covered a.text.byteLength)

-- Gives the tree up, which is refused while a node is open.
def abandon (a : Assembly) : Except AssemblyError Unit :=
  if a.opened.isEmpty then .ok () else .error .unfinished

def run (text : Text) (events : List TreeEvent) : Except AssemblyError SyntaxTree := do
  (← events.foldlM step (start text)).finish

end Assembly

end LosslessTree
