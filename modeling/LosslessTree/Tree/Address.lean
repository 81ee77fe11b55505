import LosslessTree.Kind.Name
import LosslessTree.Tree.Search

set_option autoImplicit false

namespace LosslessTree

structure Address where
  kind : Kind
  span : Span
  deriving DecidableEq, Repr

namespace Address

def render (a : Address) : String :=
  "SyntaxNodePtr \x7b kind: " ++ a.kind.rawName ++ ", range: " ++ a.span.render ++ " \x7d"

structure Unresolved where
  address : Address
  deriving DecidableEq, Repr

def Unresolved.message (e : Unresolved) : String :=
  "`" ++ e.address.render ++ "` does not point into the tree"

end Address

namespace SyntaxTree

variable (t : SyntaxTree)

def address (n : Nat) : Address := ⟨t.kind n, t.trimmedSpan n⟩

def resolve? (root : Nat) (a : Address) : Option Nat :=
  if (t.parent? root).isSome then none
  else
    match t.innermostNode root a.span with
    | .error _ => none
    | .ok n => (t.ancestors n).find? fun m => t.address m == a

def resolve (root : Nat) (a : Address) : Except Address.Unresolved Nat :=
  match t.resolve? root a with
  | some n => .ok n
  | none => .error ⟨a⟩

end SyntaxTree

end LosslessTree
