import LosslessTree.Grammar.Rule

set_option autoImplicit false

namespace LosslessTree.Rule

def name (kept : KindSet) : Rule Unit := do
  if ← sees .ident then node .name take else skipUnless (.expected .ident) kept

def nameRef : Rule Unit := node .nameRef (takeKind .ident)

def segment : Rule Bool := do
  if ← eat .doubleColon then
    if ← sees .ident then
      nameRef
      return true
    else
      report (.expected .ident)
      return false
  else
    return false

def path : Rule Unit :=
  node .path do
    nameRef
    loop segment

end LosslessTree.Rule
