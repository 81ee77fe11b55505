import LosslessTree.Proofs.Printing.Written
import LosslessTree.Proofs.View.Operators

set_option autoImplicit false

namespace LosslessTree

/-- The node, read through its accessors and those of the nodes that they give, is the expression. -/
inductive SyntaxTree.ReadsAs (t : SyntaxTree) : Expression → Nat → Prop
  | literal (x : View.Literal t) {token : Nat} (held : x.token? = some token) :
      t.ReadsAs (.literal (t.tokenText token)) x.node
  | path (x : View.PathExpr t) {path : View.Path t} {first : Text} {more : List Text}
      (held : x.path? = some path) (segments : path.segments.map View.NameRef.text = first :: more) :
      t.ReadsAs (.path first more) x.node
  | tuple (x : View.TupleExpr t) {fields : List Expression}
      (each : List.Forall₂ (fun e (y : View.Expr t) => t.ReadsAs e y.node) fields x.fields) :
      t.ReadsAs (.tuple fields) x.node
  | paren (x : View.ParenExpr t) {inner : Expression} {y : View.Expr t} (held : x.expr? = some y)
      (reads : t.ReadsAs inner y.node) : t.ReadsAs (.paren inner) x.node
  | call (x : View.CallExpr t) {callee : Expression} {arguments : List Expression} {y : View.Expr t}
      {list : View.ArgList t} (held : x.callee? = some y) (reads : t.ReadsAs callee y.node)
      (behind : x.argList? = some list)
      (each : List.Forall₂ (fun e (y : View.Expr t) => t.ReadsAs e y.node) arguments list.args) :
      t.ReadsAs (.call callee arguments) x.node
  | reference (x : View.RefExpr t) {operand : Expression} {y : View.Expr t} (held : x.expr? = some y)
      (reads : t.ReadsAs operand y.node) : t.ReadsAs (.reference x.isMut operand) x.node
  | binary (x : View.BinaryExpr t) {left right : Expression} {l r : View.Expr t} {operator : Nat}
      (before : x.lhs? = some l) (reads : t.ReadsAs left l.node) (held : x.opToken? = some operator)
      (behind : x.rhs? = some r) (reads' : t.ReadsAs right r.node) :
      t.ReadsAs (.binary left (t.tokenText operator) right) x.node

variable {t : SyntaxTree} {e e' : Expression} {n m : Nat}

namespace SyntaxTree

theorem ReadsAs.kind (h : t.ReadsAs e n) : t.kind n = e.kind := by
  cases h with
  | literal x => exact x.kind_eq
  | path x => exact x.kind_eq
  | tuple x => exact x.kind_eq
  | paren x => exact x.kind_eq
  | call x => exact x.kind_eq
  | reference x => exact x.kind_eq
  | binary x => exact x.kind_eq

theorem ReadsAs.kind_eq (h : t.ReadsAs e n) (h' : t.ReadsAs e' m) (at_ : n = m) :
    e.kind = e'.kind := by
  rw [← h.kind, ← h'.kind, at_]

end SyntaxTree

namespace Expression

-- Whatever the node of the expression reads as is the expression.
def Sole (t : SyntaxTree) (e : Expression) : Prop :=
  ∀ {e' n m}, t.ReadsAs e n → t.ReadsAs e' m → n = m → e = e'

theorem fields_eq {fields fields' : List Expression} {xs : List (View.Expr t)}
    (each : ∀ e ∈ fields, Sole t e)
    (h : List.Forall₂ (fun e (y : View.Expr t) => t.ReadsAs e y.node) fields xs)
    (h' : List.Forall₂ (fun e (y : View.Expr t) => t.ReadsAs e y.node) fields' xs) : fields = fields' := by
  induction h generalizing fields' with
  | nil =>
      cases h'
      rfl
  | cons here _ ih =>
      obtain ⟨own, others⟩ := List.forall_mem_cons.mp each
      cases h' with
      | cons here' behind => rw [own here here' rfl, ih others behind]

theorem sole (t : SyntaxTree) (e : Expression) : Sole t e := by
  intro e' n m h h' at_
  induction e using induct generalizing e' n m with
  | literal text =>
      have kinds := h.kind_eq h' at_
      cases e' <;> simp only [kind, reduceCtorEq] at kinds
      cases h with | literal x held
      cases h' with | literal x' held'
      obtain rfl := Typed.eq_of_node at_
      cases held.symm.trans held'
      rfl
  | path first more =>
      have kinds := h.kind_eq h' at_
      cases e' <;> simp only [kind, reduceCtorEq] at kinds
      cases h with | path x held segments
      cases h' with | path x' held' segments'
      obtain rfl := Typed.eq_of_node at_
      cases held.symm.trans held'
      cases segments.symm.trans segments'
      rfl
  | tuple fields ih =>
      have kinds := h.kind_eq h' at_
      cases e' <;> simp only [kind, reduceCtorEq] at kinds
      cases h with | tuple x each
      cases h' with | tuple x' each'
      obtain rfl := Typed.eq_of_node at_
      rw [fields_eq ih each each']
  | paren inner ih =>
      have kinds := h.kind_eq h' at_
      cases e' <;> simp only [kind, reduceCtorEq] at kinds
      cases h with | paren x held reads
      cases h' with | paren x' held' reads'
      obtain rfl := Typed.eq_of_node at_
      cases held.symm.trans held'
      rw [ih reads reads' rfl]
  | call callee arguments ih ih_ =>
      have kinds := h.kind_eq h' at_
      cases e' <;> simp only [kind, reduceCtorEq] at kinds
      cases h with | call x held reads behind each
      cases h' with | call x' held' reads' behind' each'
      obtain rfl := Typed.eq_of_node at_
      cases held.symm.trans held'
      cases behind.symm.trans behind'
      rw [ih reads reads' rfl, fields_eq ih_ each each']
  | reference isMut operand ih =>
      have kinds := h.kind_eq h' at_
      cases e' <;> simp only [kind, reduceCtorEq] at kinds
      cases h with | reference x held reads
      cases h' with | reference x' held' reads'
      obtain rfl := Typed.eq_of_node at_
      cases held.symm.trans held'
      rw [ih reads reads' rfl]
  | binary left operator right ih ih_ =>
      have kinds := h.kind_eq h' at_
      cases e' <;> simp only [kind, reduceCtorEq] at kinds
      cases h with | binary x before first held behind second
      cases h' with | binary x' before' first' held' behind' second'
      obtain rfl := Typed.eq_of_node at_
      cases before.symm.trans before'
      cases held.symm.trans held'
      cases behind.symm.trans behind'
      rw [ih first first' rfl, ih_ second second' rfl]

end Expression

end LosslessTree
