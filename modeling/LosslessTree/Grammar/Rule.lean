import LosslessTree.Kind.Set
import LosslessTree.Grammar.Problem
import LosslessTree.Token.Basic

/-!
# Grammar rules

A rule is a program over the tokens of a text. It looks one token ahead, takes tokens, reports
problems and puts nodes around what it took. It cannot drop, repeat or reorder a token.
-/

set_option autoImplicit false

namespace LosslessTree

def operatorLevel? (operator : Text) : Option Nat :=
  [(['|', '|'], 1), (['&', '&'], 2), (['=', '='], 3), (['!', '='], 3), (['<'], 3), (['<', '='], 3),
    (['>'], 3), (['>', '='], 3), (['|'], 4), (['^'], 5), (['+'], 6), (['-'], 6), (['*'], 7),
    (['/'], 7), (['%'], 7)].lookup operator

structure Lookahead where
  kind : Kind
  level : Option Nat
  deriving DecidableEq, Repr

def Token.lookahead (t : Token) : Lookahead :=
  ⟨t.kind, if t.kind = .binaryOperator then operatorLevel? t.text else none⟩

inductive Production where
  | item
  | pattern
  | type
  | unary
  | expression (level : Nat)
  deriving DecidableEq, Repr

inductive Rule : Type → Type 1 where
  | pure {α : Type} (a : α) : Rule α
  | bind {α β : Type} (first : Rule α) (next : α → Rule β) : Rule β
  | peek : Rule Lookahead
  -- States that the current token is one of these, which is for the caller to see to.
  | ensure (kinds : KindSet) : Rule Unit
  -- Takes the current token, unless it is the end of the file.
  | take : Rule Unit
  | report (problem : Problem) : Rule Unit
  /-- Runs the body; if it names a kind, a node of that kind goes around all that the body took. -/
  | wrap {α : Type} (body : Rule (Option Kind × α)) : Rule α
  /-- Runs the first rule. As long as its result and the current token ask for more, a node goes
  around all that was taken since the start and what the step takes. -/
  | grow {α β : Type} (first : Rule α) (more : α → Lookahead → Option β)
      (step : β → Rule (Kind × α)) : Rule α
  | loop (body : Rule Bool) : Rule Unit
  | call (production : Production) : Rule (Option Kind)

namespace Rule

instance : Monad Rule where
  pure := .pure
  bind := .bind

def peekKind : Rule Kind := do
  return (← peek).kind

def sees (k : Kind) : Rule Bool := do
  return (← peekKind) == k

def seesAny (kinds : KindSet) : Rule Bool := do
  return kinds.contains (← peekKind)

def atEnd (k : Kind) : Rule Bool := seesAny (.ofList [k, .eof])

def whenSees (k : Kind) (rule : Rule Unit) : Rule Unit := do
  if ← sees k then rule

def takeOf (kinds : KindSet) : Rule Unit := do
  ensure kinds
  take

def takeKind (k : Kind) : Rule Unit := takeOf (.ofList [k])

def eat (k : Kind) : Rule Bool := do
  if ← sees k then
    take
    return true
  else
    return false

def expect (k : Kind) : Rule Unit := do
  if ← sees k then take else report (.expected k)

def discard {α : Type} (rule : Rule α) : Rule Unit := do
  let _ ← rule

def node (k : Kind) (body : Rule Unit) : Rule Unit :=
  wrap do
    body
    return (some k, ())

def made (k : Kind) (body : Rule Unit) : Rule (Option Kind) := do
  node k body
  return some k

def nodeIf (body : Rule (Option Kind)) : Rule (Option Kind) :=
  wrap do
    let kind ← body
    return (kind, kind)

def skipToken (problem : Problem) : Rule Unit :=
  node .error do
    report problem
    take

-- The tokens that are left in place for an enclosing rule, whatever it looks for.
def alwaysKept : KindSet := .ofList [.eof, .leftBrace, .rightBrace]

def skipUnless (problem : Problem) (kept : KindSet) : Rule Unit := do
  if ← seesAny (kept.union alwaysKept) then report problem else skipToken problem

-- Behind an element of a list: a separator, or in front of another element the report that it is
-- missing. Answers whether one of them was there.
def separation (separator : Kind) (first : KindSet) : Rule Bool := do
  if ← eat separator then
    return true
  else if ← seesAny first then
    report (.expected separator)
    return true
  else
    return false

def bracketedRound (closing separator : Kind) (missing : Problem) (first : KindSet)
    (element : Rule Bool) : Rule Bool := do
  if ← atEnd closing then
    return false
  else if ← sees separator then
    skipToken missing
    return true
  else if ← element then
    separation separator first
  else
    return false

/-- A bracketed list from its opening bracket on: elements with separators between them and perhaps
one behind the last. `element` answers whether one was there; `first` holds the kinds that one
starts with. -/
def bracketed (opening closing separator : Kind) (missing : Problem) (first : KindSet)
    (element : Rule Bool) : Rule Unit := do
  takeKind opening
  loop (bracketedRound closing separator missing first element)
  expect closing

end Rule

end LosslessTree
