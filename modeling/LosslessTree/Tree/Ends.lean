import LosslessTree.Tree.Seeking

set_option autoImplicit false

namespace LosslessTree

namespace Stretch

def next (test : Nat → Bool) (s : Stretch) : Option Nat × Stretch :=
  if s.start < s.stop then
    if test s.start then (some s.start, ⟨s.start + 1, s.stop⟩) else next test ⟨s.start + 1, s.stop⟩
  else (none, s)
termination_by s.stop - s.start

def nextBack (test : Nat → Bool) (s : Stretch) : Option Nat × Stretch :=
  if s.start < s.stop then
    if test (s.stop - 1) then (some (s.stop - 1), ⟨s.start, s.stop - 1⟩)
    else nextBack test ⟨s.start, s.stop - 1⟩
  else (none, s)
termination_by s.stop - s.start

end Stretch

namespace Arena

variable (a : Arena)

def isSignificant (i : Nat) : Bool := !(a.tokens.getD i default).kind.isTrivia

def trimmedSpan (n : Nat) : Except SpanError Span :=
  let tokens := (a.nodes.getD n default).tokens
  let (first?, rest) := tokens.next a.isSignificant
  let (last?, _) := rest.nextBack a.isSignificant
  match first?, last? with
  | some first, some last => Span.between (a.tokenStart first) (a.tokenStop last)
  | some only, none => Span.between (a.tokenStart only) (a.tokenStop only)
  | none, _ =>
      let bytes := a.bytes tokens
      (Span.between bytes.start bytes.stop).map fun bytes => .empty bytes.start

end Arena

end LosslessTree
