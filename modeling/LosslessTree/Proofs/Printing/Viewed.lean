import LosslessTree.Proofs.Printing.Built
import LosslessTree.Proofs.Printing.ReadBack
import LosslessTree.Proofs.Tree.Trimming

set_option autoImplicit false

namespace LosslessTree

namespace SyntaxTree

variable {t : SyntaxTree} {around : Option Nat} {parent : Nat} {p : Place} {k : Kind} {inner : Forest}

theorem Site.typed (site : t.Site around p k inner) : ∃ x : Typed t (.production k), x.node = p.node :=
  ⟨⟨p.node, by simp [View.accepts, site.kind]⟩, rfl⟩

theorem childrenAs_of_nodes {v : View} {n : Nat} {xs : List (Typed t v)}
    (nodes : t.childNodes n = xs.map Typed.node) : t.childrenAs v n = xs := by
  refine childrenAs_eq xs ?_
  rw [nodes, List.filter_eq_self]
  intro m mem
  obtain ⟨x, -, rfl⟩ := List.mem_map.mp mem
  exact x.accepted

end SyntaxTree

namespace Expression

open SyntaxTree

variable {t : SyntaxTree} {around : Option Nat} {parent : Nat} {p : Place} {e : Expression}
  {tokens behind : List Token} {f rest parts : Forest}

theorem accepts_kind (e : Expression) : (View.category .expr).accepts e.kind = true := by
  cases e <;> simp only [kind] <;> decide

theorem expr_of_site (site : t.Site around p e.kind f) : ∃ y : View.Expr t, y.node = p.node :=
  ⟨⟨p.node, by rw [site.kind]; exact e.accepts_kind⟩, rfl⟩

theorem Built.covers (built : Built e tokens f)
    (covers : t.Covers parent p (.node e.kind f rest) (tokens ++ behind)) :
    t.Site (some parent) p e.kind f ∧ t.Covers p.node p.inside f (tokens ++ behind) ∧
      t.Covers parent (p.inside.after f) rest behind := by
  obtain ⟨site, inside, further⟩ := covers.node
  rw [built.leaves, List.length_map, List.drop_left] at further
  exact ⟨site, inside, further⟩

def Viewed (t : SyntaxTree) (e : Expression) : Prop :=
  ∀ {parent p tokens behind f rest}, Built e tokens f →
    t.Covers parent p (.node e.kind f rest) (tokens ++ behind) → t.ReadsAs e p.node

def Shows (t : SyntaxTree) (fields : List Expression) (children : List Child) : Prop :=
  ∃ xs : List (View.Expr t), children.filterMap Child.node? = xs.map Typed.node ∧
    List.Forall₂ (fun e y => t.ReadsAs e y.node) fields xs

section Fields

variable {fields : List Expression} (each : ∀ e ∈ fields, Viewed t e)
include each

theorem Further.shows (h : Further fields tokens parts)
    (covers : t.Covers parent p (parts ++ rest) (tokens ++ behind)) :
    Shows t fields (parts.layout parent p).children := by
  induction fields generalizing p tokens parts with
  | nil =>
      cases h
      exact ⟨[], rfl, .nil⟩
  | cons e more ih =>
      obtain ⟨here, others⟩ := List.forall_mem_cons.mp each
      cases h with
      | cons comma first further =>
          rw [List.cons_append, List.append_assoc] at covers
          have inside := covers.leaf.2.2.2
          obtain ⟨site, -, later⟩ := first.covers inside
          obtain ⟨y, at_⟩ := expr_of_site site
          obtain ⟨xs, nodes, reads⟩ := ih others further later
          refine ⟨y :: xs, ?_, .cons (at_ ▸ here first inside) reads⟩
          simpa [Forest.layout, List.filterMap_cons, Child.node?, at_] using nodes

theorem Fields.shows (h : Fields fields tokens parts)
    (covers : t.Covers parent p (parts ++ rest) (tokens ++ behind)) :
    Shows t fields (parts.layout parent p).children := by
  cases h with
  | nil => exact ⟨[], rfl, .nil⟩
  | cons first further =>
      obtain ⟨here, others⟩ := List.forall_mem_cons.mp each
      rw [List.append_assoc] at covers
      obtain ⟨site, -, later⟩ := first.covers covers
      obtain ⟨y, at_⟩ := expr_of_site site
      obtain ⟨xs, nodes, reads⟩ := further.shows others later
      refine ⟨y :: xs, ?_, .cons (at_ ▸ here first covers) reads⟩
      simpa [Forest.layout, List.filterMap_cons, Child.node?, at_] using nodes

end Fields

theorem Trailing.no_nodes {fields : List Expression} (h : Trailing fields tokens parts) :
    (parts.layout parent p).children.filterMap Child.node? = [] := by
  cases h <;> rfl

theorem viewed_literal (text : Text) : Viewed t (.literal text) := by
  intro parent p tokens behind f rest built covers
  obtain ⟨site, inside, -⟩ := built.covers covers
  cases built with
  | @literal token is =>
      obtain ⟨same, -, text, -⟩ := inside.leaf
      obtain ⟨x, at_⟩ : ∃ x : View.Literal t, x.node = p.node := site.typed
      have children := site.children
      have held : x.token? = some (p.inside.token + token.leaf.leading.length) := by
        have is : View.literalTokens.contains token.kind = true := is
        simp [View.Literal.token?, tokenChildIn?, childTokens, at_, children, Forest.layout, same, is]
      rw [← at_, ← text]
      exact .literal x held

theorem text_of_nameRef {token : Token} (ident : token.kind = .ident)
    (covers : t.Covers parent p (.node .nameRef (.leaf token.leaf .nil) rest) (token :: behind)) :
    ∃ x : View.NameRef t, x.node = p.node ∧ x.text = token.text := by
  obtain ⟨site, inside, -⟩ := covers.node
  obtain ⟨-, span, text, -⟩ := inside.leaf
  obtain ⟨x, at_⟩ := site.typed
  have own : ∀ l ∈ (Forest.leaf token.leaf .nil).leaves, l.kind.isTrivia = false := by
    intro l mem
    rw [Forest.leaves, Forest.leaves, List.mem_singleton] at mem
    rw [mem]
    exact (congrArg Kind.isTrivia ident).trans rfl
  have trimmed : t.trimmedSpan p.node = ⟨token.start, token.stop⟩ :=
    site.trimmedSpan_of_tokens inside own rfl rfl
  refine ⟨x, at_, ?_⟩
  rw [View.NameRef.text, trimmedText, at_, trimmed, ← text, tokenText, span]
  rfl

theorem Segments.shows {more : List Text} (h : Segments more tokens parts)
    (covers : t.Covers parent p parts (tokens ++ behind)) :
    ∃ xs : List (View.NameRef t), (parts.layout parent p).children.filterMap Child.node? =
      xs.map Typed.node ∧ xs.map View.NameRef.text = more := by
  induction h generalizing p with
  | nil => exact ⟨[], rfl, rfl⟩
  | cons _ ident further ih =>
      have inside := covers.leaf.2.2.2
      obtain ⟨x, at_, text⟩ := text_of_nameRef ident inside
      obtain ⟨xs, nodes, texts⟩ := ih inside.node.2.2
      refine ⟨x :: xs, ?_, by rw [List.map_cons, text, texts]⟩
      simpa [Forest.layout, List.filterMap_cons, Child.node?, at_] using nodes

theorem viewed_path (first : Text) (more : List Text) : Viewed t (.path first more) := by
  intro parent p tokens behind f rest built covers
  obtain ⟨site, inside, -⟩ := built.covers covers
  cases built with
  | path is further =>
      obtain ⟨pathSite, segments, -⟩ := inside.node
      obtain ⟨x, at_⟩ : ∃ x : View.PathExpr t, x.node = p.node := site.typed
      obtain ⟨path, pathAt⟩ : ∃ path : View.Path t, path.node = p.inside.node := pathSite.typed
      obtain ⟨y, first_, text⟩ := text_of_nameRef is segments
      obtain ⟨ys, nodes, texts⟩ := further.shows segments.node.2.2
      have pathNodes : t.childNodes x.node = [path].map Typed.node := by
        rw [at_, site.childNodes]
        simp [Forest.layout, Child.node?, pathAt]
      have segmentNodes : t.childNodes path.node = (y :: ys).map Typed.node := by
        rw [pathAt, pathSite.childNodes]
        simpa [Forest.layout, List.filterMap_cons, Child.node?, first_] using nodes
      have held : x.path? = some path := by
        rw [View.PathExpr.path?, firstChildAs, childrenAs_of_nodes pathNodes]
        rfl
      rw [← at_]
      refine .path x held ?_
      rw [View.Path.segments, childrenAs_of_nodes segmentNodes, List.map_cons, text, texts]

theorem viewed_tuple {fields : List Expression} (each : ∀ e ∈ fields, Viewed t e) :
    Viewed t (.tuple fields) := by
  intro parent p tokens behind f rest built covers
  obtain ⟨site, inside, -⟩ := built.covers covers
  cases built with
  | tuple opens closes own comma =>
      obtain ⟨x, at_⟩ : ∃ x : View.TupleExpr t, x.node = p.node := site.typed
      rw [List.cons_append, List.append_assoc] at inside
      obtain ⟨xs, nodes, reads⟩ := own.shows each inside.leaf.2.2.2
      have all : t.childNodes x.node = xs.map Typed.node := by
        rw [at_, site.childNodes]
        simpa [Forest.layout, Forest.layout_append, List.filterMap_cons, Child.node?, comma.no_nodes]
          using nodes
      rw [← at_]
      refine .tuple x ?_
      rwa [View.TupleExpr.fields, childrenAs_of_nodes all]

theorem viewed_paren {inner : Expression} (ih : Viewed t inner) : Viewed t (.paren inner) := by
  intro parent p tokens behind f rest built covers
  obtain ⟨site, inside, -⟩ := built.covers covers
  cases built with
  | paren opens closes own =>
      obtain ⟨x, at_⟩ : ∃ x : View.ParenExpr t, x.node = p.node := site.typed
      rw [List.cons_append, List.append_assoc] at inside
      have below := inside.leaf.2.2.2
      obtain ⟨y, here⟩ := expr_of_site below.node.1
      have all : t.childNodes x.node = [y].map Typed.node := by
        rw [at_, site.childNodes]
        simp [Forest.layout, List.filterMap_cons, Child.node?, here]
      have held : x.expr? = some y := by
        rw [View.ParenExpr.expr?, firstChildAs, childrenAs_of_nodes all]
        rfl
      rw [← at_]
      refine .paren x held ?_
      rw [here]
      exact ih own below

theorem viewed_reference {isMut : Bool} {operand : Expression} (ih : Viewed t operand) :
    Viewed t (.reference isMut operand) := by
  intro parent p tokens behind f rest built covers
  obtain ⟨site, inside, -⟩ := built.covers covers
  obtain ⟨x, at_⟩ : ∃ x : View.RefExpr t, x.node = p.node := site.typed
  have children := site.children
  rw [← at_] at children
  have held {y : View.Expr t} (all : t.childNodes x.node = [y].map Typed.node) : x.expr? = some y := by
    rw [View.RefExpr.expr?, firstChildAs, childrenAs_of_nodes all]
    rfl
  rw [← at_]
  cases built with
  | reference is own =>
      obtain ⟨same, -, -, below⟩ := inside.leaf
      obtain ⟨y, here⟩ := expr_of_site below.node.1
      have flag : x.isMut = false := by
        simp [View.RefExpr.isMut, tokenChild?, childTokens, children, Forest.layout, same, is]
      rw [← flag]
      refine .reference x (held (y := y) ?_) (here ▸ ih own below)
      rw [childNodes_eq, children]
      simp [Forest.layout, List.filterMap_cons, Child.node?, here]
  | mutable is word own =>
      obtain ⟨same, -, -, more⟩ := inside.leaf
      obtain ⟨same', -, -, below⟩ := more.leaf
      obtain ⟨y, here⟩ := expr_of_site below.node.1
      have flag : x.isMut = true := by
        simp [View.RefExpr.isMut, tokenChild?, childTokens, children, Forest.layout, same, is, same',
          word]
      rw [← flag]
      refine .reference x (held (y := y) ?_) (here ▸ ih own below)
      rw [childNodes_eq, children]
      simp [Forest.layout, List.filterMap_cons, Child.node?, here]

section Arranged

variable (arranged : ∀ {n : Nat}, t.kind n ≠ default → t.Arranged n)
include arranged

theorem viewed_call {callee : Expression} {fields : List Expression} (ih : Viewed t callee)
    (each : ∀ e ∈ fields, Viewed t e) : Viewed t (.call callee fields) := by
  intro parent p tokens behind f rest built covers
  obtain ⟨site, inside, -⟩ := built.covers covers
  obtain ⟨x, at_⟩ : ∃ x : View.CallExpr t, x.node = p.node := site.typed
  have children := site.children
  rw [← at_] at children
  cases built with
  | call first opens closes own =>
      obtain ⟨y, list, split, callee?, argList?⟩ :=
        (arranged (by rw [x.kind_eq]; decide)).call x rfl
      rw [split] at children
      simp only [Forest.layout, List.cons.injEq, Child.node.injEq, and_true] at children
      rw [List.append_assoc] at inside
      obtain ⟨-, -, later⟩ := first.covers inside
      obtain ⟨listSite, within, -⟩ := later.node
      rw [List.cons_append, List.append_assoc] at within
      obtain ⟨xs, nodes, reads⟩ := own.shows each within.leaf.2.2.2
      have listed : t.childNodes list.node = xs.map Typed.node := by
        rw [children.2, listSite.childNodes]
        simpa [Forest.layout, Forest.layout_append, List.filterMap_cons, Child.node?] using nodes
      rw [← at_]
      refine .call x callee? (children.1 ▸ ih first inside) argList? ?_
      rwa [View.ArgList.args, childrenAs_of_nodes listed]

theorem viewed_binary {left right : Expression} {operator : Text} (ih : Viewed t left)
    (ih' : Viewed t right) : Viewed t (.binary left operator right) := by
  intro parent p tokens behind f rest built covers
  obtain ⟨site, inside, -⟩ := built.covers covers
  obtain ⟨x, at_⟩ : ∃ x : View.BinaryExpr t, x.node = p.node := site.typed
  have children := site.children
  rw [← at_] at children
  cases built with
  | binary is first second =>
      obtain ⟨l, o, others, split, -, lhs, opToken, operand⟩ :=
        (arranged (by rw [x.kind_eq]; decide)).binary x rfl
      rw [split] at children
      simp only [Forest.layout, List.cons.injEq, Child.node.injEq, Child.token.injEq] at children
      obtain ⟨here, rfl, rfl⟩ := children
      rw [List.append_assoc] at inside
      obtain ⟨-, -, text, further⟩ := (first.covers inside).2.2.leaf
      rw [← at_, ← text]
      rcases operand with ⟨none, -⟩ | ⟨m, single, error, -⟩ | ⟨r, single, rhs, -⟩
      · cases none
      · -- A written operand is no error.
        cases single
        rw [further.node.1.kind] at error
        exact absurd error (by cases right <;> simp [kind])
      · simp only [List.cons.injEq, Child.node.injEq, and_true] at single
        exact .binary x lhs (here ▸ ih first inside) opToken rhs (single ▸ ih' second further)

theorem viewed (e : Expression) : Viewed t e := by
  induction e using induct with
  | literal text => exact viewed_literal text
  | path first more => exact viewed_path first more
  | tuple fields each => exact viewed_tuple each
  | paren inner ih => exact viewed_paren ih
  | call callee fields ih each => exact viewed_call arranged ih each
  | reference isMut operand ih => exact viewed_reference ih
  | binary left operator right ih ih' => exact viewed_binary arranged ih ih'

end Arranged

end Expression

end LosslessTree
