import LosslessTree.Tree.Layout

set_option autoImplicit false

namespace LosslessTree.SyntaxTree

variable (t : SyntaxTree)

def node (n : Nat) : NodeData := t.nodes.getD n default

def kind (n : Nat) : Kind := (t.node n).kind

/-- The bytes of a node, the trivia of its first and last tokens included. A node without tokens
is empty at the end of the token before it. -/
def span (n : Nat) : Span := (t.node n).span

def parent? (n : Nat) : Option Nat := (t.node n).parent

def children (n : Nat) : List Child := (t.node n).children

def childNodes (n : Nat) : List Nat :=
  (t.children n).filterMap fun | .node m => some m | .token _ => none

def childTokens (n : Nat) : List Nat :=
  (t.children n).filterMap fun | .node _ => none | .token i => some i

-- The nodes strictly below a node in pre-order: a stretch of the list of nodes.
def descendants (n : Nat) : List Nat := List.range' (n + 1) ((t.node n).subtreeStop - (n + 1))

def ancestors (n : Nat) : List Nat :=
  n :: match t.parent? n with
    | some p => if p < n then ancestors p else []
    | none => []
termination_by n

def token (i : Nat) : TokenData := t.tokens.getD i default

def tokenKind (i : Nat) : Kind := (t.token i).kind

def tokenSpan (i : Nat) : Span := (t.token i).span

def leadingTrivia (i : Nat) : List Nat := List.range' (i - (t.token i).leading) (t.token i).leading

def trailingTrivia (i : Nat) : List Nat := List.range' (i + 1) (t.token i).trailing

def attachedSpan (i : Nat) : Span :=
  ⟨(t.tokenSpan (i - (t.token i).leading)).start, (t.tokenSpan (i + (t.token i).trailing)).stop⟩

def previousToken? (_ : SyntaxTree) (i : Nat) : Option Nat := if i = 0 then none else some (i - 1)

def nextToken? (i : Nat) : Option Nat := if i + 1 < t.tokens.size then some (i + 1) else none

def tokensOf (n : Nat) : List Nat :=
  List.range' (t.node n).tokenStart ((t.node n).tokenStop - (t.node n).tokenStart)

def firstToken? (n : Nat) : Option Nat := (t.tokensOf n).head?

def lastToken? (n : Nat) : Option Nat := (t.tokensOf n).getLast?

def significantTokens (n : Nat) : List Nat :=
  (t.tokensOf n).filter fun i => !(t.tokenKind i).isTrivia

-- The bytes of a node from its first to its last token that is not trivia; empty at its start when
-- it has none.
def trimmedSpan (n : Nat) : Span :=
  match (t.significantTokens n).head?, (t.significantTokens n).getLast? with
  | some first, some last => ⟨(t.tokenSpan first).start, (t.tokenSpan last).stop⟩
  | _, _ => .empty (t.span n).start

def childKind : Child → Kind
  | .node n => t.kind n
  | .token i => t.tokenKind i

def childSpan : Child → Span
  | .node n => t.span n
  | .token i => t.attachedSpan i

def textAt (s : Span) : Text := t.text.slice s

def nodeText (n : Nat) : Text := t.textAt (t.span n)

def trimmedText (n : Nat) : Text := t.textAt (t.trimmedSpan n)

def tokenText (i : Nat) : Text := t.textAt (t.tokenSpan i)

end LosslessTree.SyntaxTree
