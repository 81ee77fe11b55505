import LosslessTree.Tree.Navigation

set_option autoImplicit false

namespace LosslessTree

inductive Touching where
  | none
  | single (token : Nat)
  | between (left right : Nat)
  deriving DecidableEq, Repr

namespace Touching

def left? : Touching → Option Nat
  | none => .none
  | single i | between i _ => some i

def right? : Touching → Option Nat
  | none => .none
  | single i | between _ i => some i

def map (f : Nat → Nat) : Touching → Touching
  | none => none
  | single i => single (f i)
  | between i j => between (f i) (f j)

end Touching

inductive CoverError where
  | outside
  deriving DecidableEq, Repr

def CoverError.message : CoverError → String
  | outside => "range is not inside the node"

namespace SyntaxTree

variable (t : SyntaxTree)

/-- The tokens of a node at an offset. The start of a token touches the token before it too, if
that is one of the node. -/
def tokensAt (n offset : Nat) : Touching :=
  match (t.tokensOf n).find? fun i => offset < (t.tokenSpan i).stop with
  | none => .none
  | some i =>
      if offset < (t.tokenSpan i).start then .none
      else if (t.node n).tokenStart < i ∧ (t.tokenSpan i).start = offset then .between (i - 1) i
      else .single i

def innermost (n : Nat) (s : Span) : Except CoverError Child :=
  if (t.span n).contains s then
    match (t.tokensAt n s.start).right? with
    | none => .ok (.node n)
    | some i =>
        if (t.tokenSpan i).contains s then .ok (.token i)
        else
          -- The nodes around the token lead up to `n`, which covers the span.
          let outward := t.ancestors (t.token i).parent
          .ok (.node ((outward.find? fun m => m == n || (t.span m).contains s).getD n))
  else .error .outside

def innermostNode (n : Nat) (s : Span) : Except CoverError Nat :=
  (t.innermost n s).map fun
    | .node m => m
    | .token i => (t.token i).parent

end SyntaxTree

end LosslessTree
