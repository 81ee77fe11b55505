import LosslessTree.Grammar.Pattern
import LosslessTree.Grammar.TypeForm

set_option autoImplicit false

namespace LosslessTree.Rule

def expressionFirst : KindSet :=
  literalFirst.union (.ofList [.ident, .leftParen, .leftBrace, .ampersand])

def expressionKept : KindSet := .ofList [.semicolon, .comma, .rightParen, .rightBracket]

def itemFirst : KindSet :=
  .ofList [.hash, .pubKw, .fnKw, .structKw, .constKw, .useKw, .modKw]

def innerExpression : Rule (Option Kind) := call (.expression 1)

def initializer : Rule Unit := do
  if ← eat .equal then discard innerExpression

def letStatement : Rule Unit :=
  node .letStmt do
    takeKind .letKw
    expectPattern
    whenSees .colon ascription
    initializer
    expect .semicolon

def statementEnd (kind : Kind) : Rule Unit := do
  if ← eat .semicolon then return ()
  else if kind == .blockExpr then return ()
  else report (.expected .semicolon)

-- An expression in a block. At the end of the block it stays as it is; elsewhere it becomes a
-- statement.
def expressionStatement : Rule Unit :=
  discard <|
    grow innerExpression (fun kind ahead => if ahead.kind == .rightBrace then none else kind)
      fun kind => do
        statementEnd kind
        return (.exprStmt, none)

def statement : Rule Unit := do
  match ← peekKind with
  | .semicolon => take
  | .letKw => letStatement
  | k =>
      if itemFirst.contains k then discard (call .item)
      else if expressionFirst.contains k then expressionStatement
      else skipToken .expectedStatement

def blockRound : Rule Bool := do
  if ← atEnd .rightBrace then
    return false
  else
    statement
    return true

def block : Rule Unit := do
  takeKind .leftBrace
  loop blockRound
  expect .rightBrace

def expectBlock : Rule Unit := do
  if ← sees .leftBrace then node .blockExpr block else report .expectedBlock

def furtherField : Rule Bool := do
  if ← eat .comma then
    if ← atEnd .rightParen then return false else return (← innerExpression).isSome
  else
    return false

def parenthesizedRest : Rule (Option Kind) := do
  if ← sees .comma then
    loop furtherField
    expect .rightParen
    return some .tupleExpr
  else
    expect .rightParen
    return some .parenExpr

def parenthesized : Rule (Option Kind) :=
  nodeIf do
    takeKind .leftParen
    if ← eat .rightParen then
      return some .tupleExpr
    else
      discard innerExpression
      parenthesizedRest

def primary : Rule (Option Kind) := do
  match ← peekKind with
  | .ident => made .pathExpr path
  | .leftParen => parenthesized
  | .leftBrace => made .blockExpr block
  | k =>
      if literalFirst.contains k then
        made .literal (takeOf literalFirst)
      else
        skipUnless .expectedExpression expressionKept
        return none

def innerArgument : Rule Bool := do
  return (← innerExpression).isSome

def arguments : Rule Unit :=
  node .argList <|
    bracketed .leftParen .rightParen .comma .expectedArgument expressionFirst innerArgument

def postfixed : Rule (Option Kind) :=
  grow primary
    (fun kind ahead => if kind.isSome && ahead.kind == .leftParen then some () else none)
    fun _ => do
      arguments
      return (.callExpr, some .callExpr)

def refExpression : Rule Unit := do
  take
  discard (eat .mutKw)
  discard (call .unary)

def unary : Rule (Option Kind) := do
  if ← sees .ampersand then made .refExpr refExpression else postfixed

/-- Operands between operators of at least the given level. The operand behind an operator
reaches up to the next operator of the same level, so equal levels nest to the left. -/
def expression (least : Nat) : Rule (Option Kind) :=
  grow unary
    (fun kind ahead => if kind.isSome then ahead.level.filter (least ≤ ·) else none)
    fun level => do
      take
      discard (call (.expression (level + 1)))
      return (.binaryExpr, some .binaryExpr)

end LosslessTree.Rule
