import LosslessTree.Grammar.Name

set_option autoImplicit false

namespace LosslessTree.Rule

def literalFirst : KindSet :=
  .ofList [.intNumber, .floatNumber, .stringLiteral, .trueKw, .falseKw]

def literal : Rule Unit := node .literal (takeOf literalFirst)

def patternFirst : KindSet :=
  .ofList [.ident, .refKw, .mutKw, .underscore, .doubleDot, .ampersand, .leftParen, .intNumber,
    .floatNumber, .stringLiteral, .trueKw, .falseKw]

def patternKept : KindSet :=
  .ofList [.colon, .equal, .comma, .semicolon, .rightParen, .letKw]

def identPattern : Rule Unit := do
  discard (eat .refKw)
  discard (eat .mutKw)
  name patternKept

def innerPattern : Rule Bool := do
  return (← call .pattern).isSome

def refPattern : Rule Unit := do
  take
  discard (eat .mutKw)
  if ← innerPattern then return () else skipUnless .expectedPattern patternKept

def tuplePattern : Rule Unit :=
  bracketed .leftParen .rightParen .comma .expectedPattern patternFirst innerPattern

def pattern : Rule (Option Kind) := do
  match ← peekKind with
  | .ident | .refKw | .mutKw => made .identPat identPattern
  | .underscore => made .wildcardPat take
  | .doubleDot => made .restPat take
  | .ampersand => made .refPat refPattern
  | .leftParen => made .tuplePat tuplePattern
  | k => if literalFirst.contains k then made .literalPat literal else return none

def expectPattern : Rule Unit := do
  if (← pattern).isSome then return () else skipUnless .expectedPattern patternKept

end LosslessTree.Rule
