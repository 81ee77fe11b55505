import LosslessTree.Tree.Arena
import LosslessTree.Tree.Search

set_option autoImplicit false

namespace LosslessTree

/-- The first index of a stretch that fails a test which holds for all before it and for none from it
on. -/
def Stretch.seek (test : Nat → Bool) (s : Stretch) : Nat :=
  if s.start < s.stop then
    let middle := (s.start + s.stop) / 2
    if test middle then seek test ⟨middle + 1, s.stop⟩ else seek test ⟨s.start, middle⟩
  else s.start
termination_by s.stop - s.start
decreasing_by all_goals omega

namespace Arena

variable (a : Arena)

def tokenStart (i : Nat) : Nat := a.tokenStop (i - 1)

def tokensAt (n offset : Nat) : Touching :=
  let tokens := (a.nodes.getD n default).tokens
  let i := tokens.seek fun j => a.tokenStop j ≤ offset
  if i = tokens.stop then .none
  else if offset < a.tokenStart i then .none
  else if tokens.start < i ∧ a.tokenStart i = offset then .between (i - 1) i
  else .single i

end Arena

end LosslessTree
