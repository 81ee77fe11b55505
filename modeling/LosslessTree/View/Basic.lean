import LosslessTree.Kind.Category
import LosslessTree.Tree.Layout
import LosslessTree.Tree.Navigation

set_option autoImplicit false

namespace LosslessTree

inductive View where
  | production (kind : Kind)
  | category (category : Category)
  deriving DecidableEq, Repr

namespace View

def accepts : View → Kind → Bool
  | production k, kind => k == kind
  | category c, kind => c.members.contains kind

def isWrapped (k : Kind) : Bool := k.isNode && k != .error

def all : List View :=
  (Kind.nodes.filter isWrapped).map production ++ Category.all.map category

def name : View → String
  | production k => k.displayName
  | category c => c.name

def named? (name : String) : Option View := all.find? fun v => v.name == name

end View

structure Typed (t : SyntaxTree) (v : View) where
  node : Nat
  accepted : v.accepts (t.kind node) = true
  deriving DecidableEq

theorem Typed.eq_of_node {t : SyntaxTree} {v : View} {x y : Typed t v} (same : x.node = y.node) :
    x = y := by
  cases x
  cases y
  cases same
  rfl

namespace SyntaxTree

def view? (t : SyntaxTree) (v : View) (n : Nat) : Option (Typed t v) :=
  if h : v.accepts (t.kind n) = true then some ⟨n, h⟩ else none

theorem view?_eq_some_iff (t : SyntaxTree) (v : View) (n : Nat) (x : Typed t v) :
    t.view? v n = some x ↔ x.node = n := by
  constructor
  · intro h
    unfold view? at h
    split at h
    · cases h
      rfl
    · contradiction
  · rintro rfl
    simp [view?, x.accepted]

structure KindMismatch where
  actual : Kind
  required : Kind
  deriving DecidableEq, Repr

def KindMismatch.message (e : KindMismatch) : String :=
  "assertion `left == right` failed: `" ++ e.required.displayName ++ "` wraps only `"
    ++ e.required.rawName ++ "` nodes\n  left: " ++ e.actual.rawName ++ "\n right: "
    ++ e.required.rawName

def assume (t : SyntaxTree) (k : Kind) (n : Nat) : Except KindMismatch (Typed t (.production k)) :=
  match t.view? (.production k) n with
  | some x => .ok x
  | none => .error ⟨t.kind n, k⟩

end SyntaxTree

end LosslessTree
