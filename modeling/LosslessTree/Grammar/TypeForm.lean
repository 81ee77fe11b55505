import LosslessTree.Grammar.Name

set_option autoImplicit false

namespace LosslessTree.Rule

def typeFirst : KindSet := .ofList [.ident, .leftParen, .ampersand]

def innerType : Rule Bool := do
  return (← call .type).isSome

def tupleType : Rule Unit :=
  bracketed .leftParen .rightParen .comma .expectedTupleType typeFirst innerType

def refType : Rule Unit := do
  take
  discard (eat .mutKw)
  if ← innerType then return () else report .expectedType

def type : Rule (Option Kind) := do
  match ← peekKind with
  | .ident => made .pathType path
  | .leftParen => made .tupleType tupleType
  | .ampersand => made .refType refType
  | _ => return none

def expectType : Rule Unit := do
  if (← type).isSome then return () else report .expectedType

def ascription : Rule Unit := do
  takeKind .colon
  expectType

end LosslessTree.Rule
