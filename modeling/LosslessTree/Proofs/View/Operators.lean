import LosslessTree.Proofs.Grammar.Ranking
import LosslessTree.Proofs.Tree.Nesting
import LosslessTree.Proofs.View.Arranged

set_option autoImplicit false

namespace LosslessTree

open TokenStream

theorem operatorLevel_of_ahead {eof token : Token} {tokens : List Token} {level : Nat}
    (h : (ahead eof (token :: tokens)).level = some level) :
    operatorLevel? token.text = some level := by
  rw [ahead, Token.lookahead] at h
  split at h
  · exact h
  · cases h

def View.BinaryExpr.level? {t : SyntaxTree} (x : BinaryExpr t) : Option Nat :=
  x.opToken?.bind fun operator => operatorLevel? (t.tokenText operator)

theorem Forest.eq_node_of_children {parent m : Nat} {p : Place} {f : Forest}
    (h : (f.layout parent p).children = [.node m]) :
    ∃ k within, f = .node k within .nil ∧ p.node = m := by
  cases f with
  | nil => cases h
  | leaf l rest => cases h
  | node k within rest =>
      simp only [layout, List.cons.injEq, Child.node.injEq] at h
      cases rest with
      | nil => exact ⟨k, within, rfl, h.1⟩
      | leaf l more => cases h.2
      | node k' within' more => cases h.2

theorem Forest.eq_operation_of_children {parent m i : Nat} {behind : List Child} {p : Place}
    {f : Forest} (h : (f.layout parent p).children = .node m :: .token i :: behind) :
    ∃ kind left operator right, f = .node kind left (.leaf operator right) ∧ p.node = m ∧
      (right.layout parent ((p.inside.after left).afterLeaf operator)).children = behind := by
  cases f with
  | nil => cases h
  | leaf l rest => cases h
  | node kind left rest =>
      simp only [layout, List.cons.injEq, Child.node.injEq] at h
      cases rest with
      | nil => cases h.2
      | leaf operator right => exact ⟨kind, left, operator, right, rfl, h.1, (List.cons.inj h.2).2⟩
      | node k' within' more => cases h.2

namespace SyntaxTree

/-- The operands of a node are such as the levels of operators ask for. A binary expression on the
left counts if it has its right operand. -/
structure Ranked (t : SyntaxTree) (n : Nat) : Prop where
  binary : ∀ x : View.BinaryExpr t, x.node = n → ∃ level, x.level? = some level ∧
    (∀ (r : View.Expr t) (y : View.BinaryExpr t), x.rhs? = some r → y.node = r.node →
      ∃ own, y.level? = some own ∧ level < own) ∧
    ∀ (l : View.Expr t) (y : View.BinaryExpr t), x.lhs? = some l → y.node = l.node →
      y.rhs?.isSome → ∃ own, y.level? = some own ∧ level ≤ own
  reference : ∀ x : View.RefExpr t, x.node = n → ∀ e, x.expr? = some e →
    t.kind e.node ≠ .binaryExpr
  call : ∀ x : View.CallExpr t, x.node = n → ∀ e, x.callee? = some e →
    t.kind e.node ≠ .binaryExpr ∧ t.kind e.node ≠ .refExpr

variable {t : SyntaxTree} {eof : Token} {tokens : List Token}

-- The operator token that the accessor finds is the one that the forest has.
theorem level_of_carries {x : View.BinaryExpr t} (arranged : t.Arranged x.node)
    {around : Option Nat} {p : Place} {k : Kind} {inner : Forest} (at_ : p.node = x.node)
    (site : t.Site around p k inner) (carries : t.Carries p.node p.inside inner tokens) {level : Nat}
    (found : inner.levelAt eof tokens = some level) : x.level? = some level := by
  obtain ⟨l, operator, behind, children, -, -, opToken, -⟩ := arranged.binary x rfl
  rw [← at_, site.children] at children
  match inner, found with
  | .node kind left (.leaf op right), found =>
      obtain ⟨token, after, split, -, text, -⟩ := carries.node.2.leaf
      simp only [Forest.layout, List.cons.injEq, Child.token.injEq] at children
      rw [Forest.levelAt, split] at found
      rw [View.BinaryExpr.level?, opToken, Option.bind_some, ← children.2.1, text,
        operatorLevel_of_ahead found]

section Operands

variable {around : Option Nat} {p : Place} {x : View.BinaryExpr t} {inner : Forest}
  (arranged : t.Arranged x.node) (at_ : p.node = x.node) (site : t.Site around p .binaryExpr inner)
include arranged at_ site

theorem node_of_lhs {l : View.Expr t} (found : x.lhs? = some l) : p.inside.node = l.node := by
  obtain ⟨l', _, _, children, -, lhs, -⟩ := arranged.binary x rfl
  rw [← at_, site.children] at children
  obtain ⟨_, _, _, _, -, first, -⟩ := Forest.eq_operation_of_children children
  rw [found, Option.some.injEq] at lhs
  rw [first, lhs]

theorem forest_of_rhs {r : View.Expr t} (found : x.rhs? = some r) :
    ∃ kind left operator k within, inner = .node kind left (.leaf operator (.node k within .nil)) ∧
      ((p.inside.inside.after left).afterLeaf operator).node = r.node ∧ k ≠ .error := by
  obtain ⟨_, _, behind, children, -, -, -, rest⟩ := arranged.binary x rfl
  obtain ⟨r', rfl, rhs⟩ : ∃ r : View.Expr t, behind = [.node r.node] ∧ x.rhs? = some r := by
    rcases rest with ⟨-, none⟩ | ⟨_, -, -, none⟩ | ⟨r, single, rhs, -⟩
    · simp [found] at none
    · simp [found] at none
    · exact ⟨r, single, rhs⟩
  rw [found, Option.some.injEq] at rhs
  subst rhs
  rw [← at_, site.children] at children
  obtain ⟨kind, left, operator, right, rfl, -, last⟩ := Forest.eq_operation_of_children children
  obtain ⟨k, within, rfl, stands⟩ := Forest.eq_node_of_children last
  refine ⟨kind, left, operator, k, within, rfl, stands, ?_⟩
  rintro rfl
  have error := site.within.node.2.2.leaf.2.site.kind
  rw [stands] at error
  have accepted := r.accepted
  rw [error] at accepted
  exact absurd accepted (by decide)

end Operands

theorem Embeds.outer {parent : Nat} {p : Place} {f : Forest} {P : Kind → Prop}
    (h : t.Embeds parent p f) (outer : f.Outer P) :
    ∀ m, Child.node m ∈ (f.layout parent p).children → P (t.kind m) := by
  induction f generalizing p with
  | nil => simp [Forest.layout]
  | leaf l rest ih =>
      intro m mem
      simp only [Forest.layout, List.mem_cons, reduceCtorEq, false_or] at mem
      exact ih h.leaf.2 outer m mem
  | node k inner rest _ ih =>
      intro m mem
      simp only [Forest.layout, List.mem_cons, Child.node.injEq] at mem
      rcases mem with rfl | mem
      · rw [h.site.kind]
        exact outer.1
      · exact ih h.node.2.2 outer.2 m mem

theorem mem_children_of_firstChildAs {v : View} {n : Nat} {e : Typed t v}
    (found : t.firstChildAs v n = some e) : Child.node e.node ∈ t.children n := by
  have mem := List.mem_of_mem_head? found
  have accepted := List.mem_map_of_mem (f := Typed.node) mem
  rw [childrenAs_nodes] at accepted
  have node := (List.mem_filter.mp accepted).1
  rw [childNodes_eq] at node
  obtain ⟨c, inside, isNode⟩ := List.mem_filterMap.mp node
  cases c with
  | node m =>
      cases isNode
      exact inside
  | token i => cases isNode

end SyntaxTree

section Parses

open SyntaxTree

variable {text : Text}

theorem parse_exists_site {n : Nat} (h : (parse text).tree.kind n ∉ [default, .sourceFile]) :
    ∃ around p k inner tokens, p.node = n ∧ (parse text).tree.Site around p k inner ∧
      LosslessTree.Ranked (ofText text).eof tokens k inner ∧
        (parse text).tree.Carries p.node p.inside inner tokens := by
  have ranked := run_ranked (ofText_eof text) (ofText_plain text)
  simp only [List.mem_cons, List.not_mem_nil, or_false, not_or] at h
  have inside := lt_size_of_kind h.1
  have notRoot : n ≠ 0 := by
    rintro rfl
    exact h.2 (ofRoot_site text .sourceFile (ofText text).forest).kind
  rw [parse_nodes_size] at inside
  obtain ⟨parent, p, k, inner, rest, tokens, at_, has, covers⟩ :=
    (parse_covers text).exists_site ranked.parts (n := n) (by change 1 ≤ n; omega) inside
  exact ⟨some parent, p, k, inner, tokens, at_, covers.node.1, has, covers.node.2.1.carries⟩

theorem arranged_of_kind {n : Nat} (real : (parse text).tree.kind n ≠ default) :
    (parse text).tree.Arranged n := by
  obtain ⟨around, p, k, inner, rfl, site, fits, shaped, plain⟩ := parse_site (lt_size_of_kind real)
  exact site.arranged fits shaped plain

theorem arranged_of_view {k : Kind} (x : Typed (parse text).tree (.production k)) (real : k ≠ default) :
    (parse text).tree.Arranged x.node :=
  arranged_of_kind (by rwa [x.kind_eq])

end Parses

open SyntaxTree in
/-- In every parse operands are such as the levels of operators ask for. -/
theorem parse_ranked (text : Text) (n : Nat) : (parse text).tree.Ranked n where
  binary := by
    rintro x rfl
    have arranged (y : View.BinaryExpr (parse text).tree) := arranged_of_view y (by decide)
    obtain ⟨around, p, k, inner, tokens, at_, site, ranked, carries⟩ :=
      parse_exists_site (n := x.node) (by rw [x.kind_eq]; decide)
    obtain rfl : k = .binaryExpr := by rw [← site.kind, at_, x.kind_eq]
    rcases ranked with none | ⟨-, kind, left, operator, right, level, rfl, found, graded⟩
    · exact none.elim
    refine ⟨level, level_of_carries (arranged x) at_ site carries found, ?_, ?_⟩
    · intro r y rhs same
      obtain ⟨_, _, _, k, within, shape, stands, -⟩ := forest_of_rhs (arranged x) at_ site rhs
      cases shape
      obtain ⟨token, behind, split, -, -, further⟩ := carries.node.2.leaf
      have own := further.embeds.site
      obtain rfl : k = .binaryExpr := by rw [← own.kind, stands, ← same, y.kind_eq]
      obtain ⟨level', found', above⟩ := graded.behind within rfl
      rw [← List.tail_drop, split] at found'
      exact ⟨level', level_of_carries (arranged y) (stands.trans same.symm) own further.node.1 found',
        above⟩
    · intro l y lhs same complete
      have stands := (node_of_lhs (arranged x) at_ site lhs).trans same.symm
      have own := carries.embeds.site
      obtain rfl : kind = .binaryExpr := by rw [← own.kind, stands, y.kind_eq]
      obtain ⟨r, rhs⟩ := Option.isSome_iff_exists.mp complete
      obtain ⟨_, _, _, _, _, rfl, -, notError⟩ := forest_of_rhs (arranged y) stands own rhs
      obtain ⟨level', found', above⟩ := graded.before rfl notError
      exact ⟨level', level_of_carries (arranged y) stands own carries.node.1 found', above⟩
  reference := by
    rintro x rfl e found
    obtain ⟨around, p, k, inner, tokens, at_, site, ranked, carries⟩ :=
      parse_exists_site (n := x.node) (by rw [x.kind_eq]; decide)
    obtain rfl : k = .refExpr := by rw [← site.kind, at_, x.kind_eq]
    have mem := mem_children_of_firstChildAs found
    rw [← at_, site.children] at mem
    rcases ranked with outer | ⟨other, -⟩
    · exact site.within.outer outer _ mem
    · cases other
  call := by
    rintro x rfl e found
    obtain ⟨around, p, k, inner, tokens, at_, site, ranked, carries⟩ :=
      parse_exists_site (n := x.node) (by rw [x.kind_eq]; decide)
    obtain rfl : k = .callExpr := by rw [← site.kind, at_, x.kind_eq]
    obtain ⟨callee, args, children, first, -⟩ :=
      (arranged_of_view x (by decide)).call x rfl
    rw [found, Option.some.injEq] at first
    rw [← at_, site.children] at children
    rcases ranked with ⟨k, within, rest, rfl, notBinary, notRef⟩ | ⟨other, -⟩
    · simp only [Forest.layout, List.cons.injEq, Child.node.injEq] at children
      rw [first, ← children.1, site.within.site.kind]
      exact ⟨notBinary, notRef⟩
    · cases other

end LosslessTree
