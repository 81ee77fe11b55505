import LosslessTree.Text.Span

set_option autoImplicit false

namespace LosslessTree

structure Diagnostic where
  message : String
  span : Span
  deriving DecidableEq, Repr

end LosslessTree
