import LosslessTree.Grammar.Expression

set_option autoImplicit false

namespace LosslessTree.Rule

def itemKept : KindSet :=
  itemFirst.union (.ofList [.leftParen, .semicolon, .colon, .equal, .arrow])

def expectPath : Rule Unit := do
  if ← sees .ident then path else report .expectedPath

def attrBody : Rule Unit := do
  if ← eat .leftBracket then
    expectPath
    expect .rightBracket
  else
    report (.expected .leftBracket)

def attr : Rule Bool :=
  wrap do
    takeKind .hash
    let inner ← eat .bang
    attrBody
    return (some .attr, inner)

def attrRound : Rule Bool := do
  if ← sees .hash then
    discard attr
    return true
  else
    return false

def prelude : Rule Unit := do
  loop attrRound
  whenSees .pubKw (node .visibility take)

def ascriptionOr (missing : Problem) : Rule Unit := do
  if ← sees .colon then ascription else report missing

def parameter : Rule Bool := do
  if ← seesAny patternFirst then
    node .param do
      discard pattern
      ascriptionOr .untypedParameter
    return true
  else
    return false

def parameters : Rule Unit := do
  if ← sees .leftParen then
    node .paramList <|
      bracketed .leftParen .rightParen .comma .expectedParameter patternFirst parameter
  else
    report .expectedParameters

def returnType : Rule Unit :=
  whenSees .arrow <|
    node .retType do
      take
      expectType

def fnBody : Rule Unit := do
  if ← eat .semicolon then return () else expectBlock

def fnItem : Rule Unit := do
  takeKind .fnKw
  name itemKept
  parameters
  returnType
  fnBody

def fieldFirst : KindSet := .ofList [.ident, .pubKw, .hash]

def field : Rule Bool := do
  if ← seesAny fieldFirst then
    node .field do
      prelude
      name (.ofList [.colon, .comma])
      ascriptionOr .untypedField
    return true
  else
    return false

def fields : Rule Unit :=
  node .fieldList (bracketed .leftBrace .rightBrace .comma .expectedField fieldFirst field)

def structBody : Rule Unit := do
  match ← peekKind with
  | .leftBrace => fields
  | .semicolon => take
  | _ => report .expectedStructBody

def structItem : Rule Unit := do
  takeKind .structKw
  name itemKept
  structBody

def constItem : Rule Unit := do
  takeKind .constKw
  name itemKept
  ascriptionOr .untypedConst
  initializer
  expect .semicolon

def useItem : Rule Unit := do
  takeKind .useKw
  expectPath
  expect .semicolon

def itemRound (closing : Kind) : Rule Bool := do
  if ← atEnd closing then
    return false
  else
    discard (call .item)
    return true

def itemList : Rule Unit :=
  node .itemList do
    take
    loop (itemRound .rightBrace)
    expect .rightBrace

def modBody : Rule Unit := do
  if ← sees .leftBrace then itemList else expect .semicolon

def modItem : Rule Unit := do
  takeKind .modKw
  name itemKept
  modBody

-- An item behind its attributes and visibility, if one is here, and its kind.
def itemCore : Rule (Option Kind) := do
  match ← peekKind with
  | .fnKw =>
      fnItem
      return some .fnItem
  | .structKw =>
      structItem
      return some .structItem
  | .constKw =>
      constItem
      return some .constItem
  | .useKw =>
      useItem
      return some .useItem
  | .modKw =>
      modItem
      return some .modItem
  | _ => return none

-- What is left of an item behind the tokens that were taken for it, and its kind. Attributes or
-- visibility without an item are an error node.
def itemRest (begun : Bool) : Rule (Option Kind) := do
  let begun := begun || (← seesAny (.ofList [.hash, .pubKw]))
  prelude
  let kind ← itemCore
  if begun && kind.isNone then
    report .expectedItem
    return some .error
  else
    return kind

def strayToken : Rule Unit := do
  if ← sees .semicolon then skipToken .strayItemSemicolon else skipToken .expectedItem

-- An item. A token that starts none is an error node.
def item : Rule (Option Kind) := do
  let kind ← nodeIf (itemRest false)
  if kind.isNone then
    strayToken
    return none
  else
    return kind

-- An attribute at the head of a file, and whether it is an inner one. An outer one is part of the
-- first item, which is read with it.
def headAttr : Rule (Option Bool) :=
  grow (do return some (← attr))
    (fun inner _ => if inner = some false then some () else none)
    fun _ => do
      let kind ← itemRest true
      return (kind.getD .error, none)

def headRound : Rule Bool := do
  if ← sees .hash then return (← headAttr).isSome else return false

def file : Rule Unit := do
  loop headRound
  loop (itemRound .eof)

end LosslessTree.Rule
