import LosslessTree.Kind.Set

set_option autoImplicit false

namespace LosslessTree

inductive Category where
  | pat | item | expr | type | stmt
  deriving DecidableEq, Repr

namespace Category

def all : List Category := [pat, item, expr, type, stmt]

def name : Category → String
  | pat => "Pat"
  | item => "Item"
  | expr => "Expr"
  | type => "Type"
  | stmt => "Stmt"

def members : Category → KindSet
  | pat => .ofList [.identPat, .wildcardPat, .tuplePat, .refPat, .literalPat, .restPat]
  | item => .ofList [.fnItem, .structItem, .constItem, .useItem, .modItem]
  | expr =>
      .ofList [.literal, .pathExpr, .tupleExpr, .parenExpr, .binaryExpr, .callExpr, .refExpr,
        .blockExpr]
  | type => .ofList [.pathType, .tupleType, .refType]
  | stmt => .ofList [.letStmt, .exprStmt]

def named? (name : String) : Option Category := all.find? fun c => c.name == name

def ofKind? (k : Kind) : Option Category := all.find? fun c => c.members.contains k

-- The category of a kind is the only one that has it.
theorem ofKind?_eq_some_iff (k : Kind) (c : Category) :
    ofKind? k = some c ↔ c.members.contains k = true := by
  cases c <;> cases k <;> decide

end Category

end LosslessTree
