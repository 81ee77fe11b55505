import LosslessTree.Kind.Category

set_option autoImplicit false

namespace LosslessTree

structure UnknownProduction where
  name : String
  deriving DecidableEq, Repr

def UnknownProduction.message (e : UnknownProduction) : String :=
  "unknown production `" ++ e.name ++ "`"

def Kind.lookUp (name : String) : Except UnknownProduction Kind :=
  match Kind.named? name with
  | some k => .ok k
  | none => .error ⟨name⟩

def KindSet.lookUp (name : String) : Except UnknownProduction KindSet :=
  match Category.named? name with
  | some c => .ok c.members
  | none => (Kind.lookUp name).map fun k => .ofList [k]

end LosslessTree
