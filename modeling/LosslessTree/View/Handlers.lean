import LosslessTree.Tree.Walk
import LosslessTree.View.Basic

set_option autoImplicit false

namespace LosslessTree

structure Handlers (t : SyntaxTree) (σ : Type) where
  onNode : Nat → σ → σ := fun _ s => s
  onCategory : (c : Category) → Option (Typed t (.category c) → σ → σ) := fun _ => none
  onProduction : (k : Kind) → Option (Typed t (.production k) → σ → σ) := fun _ => none

-- A single handler of nodes whatever their kind, with typed handlers that go before it.
structure Observer (t : SyntaxTree) (σ : Type) where
  onAny : Nat → σ → σ
  typed : Option (Handlers t σ) := none

namespace Kind

def handled : KindSet :=
  .ofList [.sourceFile, .attr, .visibility, .fnItem, .structItem, .constItem, .useItem, .modItem,
    .itemList, .name, .nameRef, .path, .paramList, .param, .retType, .fieldList, .field,
    .blockExpr, .letStmt, .exprStmt, .identPat, .wildcardPat, .tuplePat, .refPat, .literalPat,
    .restPat, .pathType, .tupleType, .refType, .literal, .pathExpr, .tupleExpr, .parenExpr,
    .binaryExpr, .callExpr, .argList, .refExpr]

def fallback? : Kind → Option Category
  | fnItem | structItem | constItem | useItem | modItem => some .item
  | blockExpr => some .expr
  | letStmt | exprStmt => some .stmt
  | identPat | wildcardPat | tuplePat | refPat | literalPat | restPat => some .pat
  | pathType | tupleType | refType => some .type
  | literal | pathExpr | tupleExpr | parenExpr | binaryExpr | callExpr | refExpr => some .expr
  | _ => none

theorem contains_of_fallback? {k : Kind} {c : Category} (h : k.fallback? = some c) :
    c.members.contains k = true := by
  revert h
  cases c <;> cases k <;> decide

end Kind

def Typed.toCategory {t : SyntaxTree} {k : Kind} {c : Category} (h : k.fallback? = some c)
    (x : Typed t (.production k)) : Typed t (.category c) where
  node := x.node
  accepted := by
    have own : k = t.kind x.node := by simpa [View.accepts] using x.accepted
    exact own ▸ Kind.contains_of_fallback? h

namespace Handlers

variable {t : SyntaxTree} {σ : Type}

def handleCategory (hs : Handlers t σ) (c : Category) (x : Typed t (.category c)) : σ → σ :=
  match hs.onCategory c with
  | some handle => handle x
  | none => hs.onNode x.node

def handleProduction (hs : Handlers t σ) (k : Kind) (x : Typed t (.production k)) : σ → σ :=
  match hs.onProduction k with
  | some handle => handle x
  | none =>
      match h : k.fallback? with
      | some c => hs.handleCategory c (x.toCategory h)
      | none => hs.onNode x.node

-- Hands a node to the handler of its production. Other nodes go to that of every node.
def dispatch (hs : Handlers t σ) (n : Nat) : σ → σ :=
  if Kind.handled.contains (t.kind n) then
    hs.handleProduction (t.kind n) ⟨n, by simp [View.accepts]⟩
  else hs.onNode n

def walk (hs : Handlers t σ) (root : Nat) (s : σ) : σ :=
  (t.walk .nodes root).foldl
    (fun s event =>
      match event with
      | .enter n => hs.dispatch n s
      | _ => s)
    s

end Handlers

namespace Observer

variable {t : SyntaxTree} {σ : Type}

def dispatch (o : Observer t σ) (n : Nat) : σ → σ :=
  match o.typed with
  | some typed => typed.dispatch n
  | none => o.onAny n

end Observer

namespace Typed

variable {t : SyntaxTree} {v : View} {σ : Type}

def accept (x : Typed t v) (hs : Handlers t σ) : σ → σ := hs.dispatch x.node

def acceptObserver (x : Typed t v) (o : Observer t σ) : σ → σ := o.dispatch x.node

end Typed

end LosslessTree
