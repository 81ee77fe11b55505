import LosslessTree.Tree.Search
import LosslessTree.View.Basic

set_option autoImplicit false

namespace LosslessTree.SyntaxTree

variable (t : SyntaxTree) (v : View)

def childrenAs (n : Nat) : List (Typed t v) := (t.childNodes n).filterMap (t.view? v)

def firstChildAs (n : Nat) : Option (Typed t v) := (t.childrenAs v n).head?

def descendantsAs (n : Nat) : List (Typed t v) := (t.descendants n).filterMap (t.view? v)

-- The nodes strictly around a node, nearest first.
def ancestorsAs (n : Nat) : List (Typed t v) := (t.ancestors n).tail.filterMap (t.view? v)

def parentAs (n : Nat) : Option (Typed t v) := (t.ancestorsAs v n).head?

def seekAs (root : Nat) (s : Span) : Except CoverError (Option (Typed t v)) :=
  if (t.span root).contains s then
    (t.innermostNode root s).map fun n => (t.ancestors n).findSome? (t.view? v)
  else .ok none

def innermostAs (root : Nat) (s : Span) : Option (Typed t v) :=
  match t.seekAs v root s with
  | .ok found => found
  | .error _ => none

def tokenChild? (n : Nat) (k : Kind) : Option Nat :=
  (t.childTokens n).find? fun i => t.tokenKind i == k

def tokenChildIn? (n : Nat) (kinds : KindSet) : Option Nat :=
  (t.childTokens n).find? fun i => kinds.contains (t.tokenKind i)

end LosslessTree.SyntaxTree
