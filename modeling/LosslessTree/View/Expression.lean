import LosslessTree.View.Production

set_option autoImplicit false

namespace LosslessTree.View

variable {t : SyntaxTree}

def BlockExpr.stmts (x : BlockExpr t) : List (Stmt t) := t.childrenAs (.category .stmt) x.node

def BlockExpr.tailExpr? (x : BlockExpr t) : Option (Expr t) :=
  t.firstChildAs (.category .expr) x.node

def LetStmt.pat? (x : LetStmt t) : Option (Pat t) := t.firstChildAs (.category .pat) x.node

def LetStmt.type? (x : LetStmt t) : Option (Ty t) := t.firstChildAs (.category .type) x.node

def LetStmt.initializer? (x : LetStmt t) : Option (Expr t) :=
  t.firstChildAs (.category .expr) x.node

def ExprStmt.expr? (x : ExprStmt t) : Option (Expr t) := t.firstChildAs (.category .expr) x.node

def ExprStmt.hasSemicolon (x : ExprStmt t) : Bool := (t.tokenChild? x.node .semicolon).isSome

def PathExpr.path? (x : PathExpr t) : Option (Path t) := t.firstChildAs (.production .path) x.node

def TupleExpr.fields (x : TupleExpr t) : List (Expr t) := t.childrenAs (.category .expr) x.node

def ParenExpr.expr? (x : ParenExpr t) : Option (Expr t) := t.firstChildAs (.category .expr) x.node

def BinaryExpr.lhs? (x : BinaryExpr t) : Option (Expr t) := t.firstChildAs (.category .expr) x.node

def BinaryExpr.opToken? (x : BinaryExpr t) : Option Nat := t.tokenChild? x.node .binaryOperator

def CallExpr.callee? (x : CallExpr t) : Option (Expr t) := t.firstChildAs (.category .expr) x.node

def CallExpr.argList? (x : CallExpr t) : Option (ArgList t) :=
  t.firstChildAs (.production .argList) x.node

def ArgList.args (x : ArgList t) : List (Expr t) := t.childrenAs (.category .expr) x.node

def RefExpr.isMut (x : RefExpr t) : Bool := (t.tokenChild? x.node .mutKw).isSome

def RefExpr.expr? (x : RefExpr t) : Option (Expr t) := t.firstChildAs (.category .expr) x.node

-- The operand behind the operator. The left one never stands in for it.
def BinaryExpr.rhs? (x : BinaryExpr t) : Option (Expr t) := do
  let operator ← x.opToken?
  (t.childrenAs (.category .expr) x.node).find? fun e =>
    (t.tokenSpan operator).stop ≤ (t.trimmedSpan e.node).start

inductive LiteralForm where
  | int (token : Nat)
  | float (token : Nat)
  | string (token : Nat)
  | bool (value : Bool)
  deriving DecidableEq, Repr

def literalTokens : KindSet :=
  .ofList [.intNumber, .floatNumber, .stringLiteral, .trueKw, .falseKw]

def Literal.token? (x : Literal t) : Option Nat := t.tokenChildIn? x.node literalTokens

def Literal.form? (x : Literal t) : Option LiteralForm := do
  let token ← x.token?
  match t.tokenKind token with
  | .intNumber => some (.int token)
  | .floatNumber => some (.float token)
  | .stringLiteral => some (.string token)
  | .trueKw => some (.bool true)
  | .falseKw => some (.bool false)
  | _ => none

end LosslessTree.View
