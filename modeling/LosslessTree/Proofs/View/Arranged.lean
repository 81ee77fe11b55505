import LosslessTree.Grammar.Conservation
import LosslessTree.Proofs.Grammar.Files
import LosslessTree.Proofs.Token.Lexing
import LosslessTree.Proofs.View.Reading
import LosslessTree.View.Expression
import LosslessTree.View.Item
import LosslessTree.View.Pattern

set_option autoImplicit false

namespace LosslessTree

open Form

def Leaf.Plain (l : Leaf) : Prop := l.kind.isNode = false ∧ (l.kind ≠ .eof → 0 < l.length)

theorem Token.Lexed.plain {t : Token} (h : t.Lexed) : t.leaf.Plain :=
  ⟨h.isNode, fun _ => Text.byteLength_pos h.text_ne_nil⟩

theorem TokenStream.forest_plain (text : Text) :
    ∀ l ∈ (ofText text).forest.leaves, l.Plain := by
  intro l mem
  have kept := (ofText text).run_keeps Rule.file
  rcases List.mem_append.mp (Forest.leaves_append _ _ ▸ mem) with taken | last
  · have mem : l ∈ (ofText text).tokens.map Token.leaf := kept ▸ List.mem_append_left _ taken
    obtain ⟨token, inStream, rfl⟩ := List.mem_map.mp mem
    exact (ofText_lexed text token inStream).plain
  · obtain rfl := List.mem_singleton.mp last
    have kind : (ofText text).eof.leaf.kind = .eof := ofText_eof text
    exact ⟨by rw [kind]; rfl, fun other => absurd kind other⟩

namespace Forest

theorem Shaped.hasNode {f : Forest} (h : f.Shaped true) {k : Kind} {inner : Forest}
    (has : f.HasNode k inner) : (k.shape true).Matches inner.tops ∧ inner.Shaped true := by
  induction f with
  | nil => exact has.elim
  | leaf l rest ih => exact ih h has
  | node k' inner' rest hi hr =>
      obtain ⟨_, fits, below, behind⟩ := h
      rcases has with ⟨rfl, rfl⟩ | has | has
      · exact ⟨fits, below⟩
      · exact hi below has
      · exact hr behind has

end Forest

theorem parse_site {text : Text} {n : Nat} (h : n < (parse text).tree.nodes.size) :
    ∃ around p k inner, p.node = n ∧ (parse text).tree.Site around p k inner ∧
      (k.shape true).Matches inner.tops ∧ inner.Shaped true ∧ ∀ l ∈ inner.leaves, l.Plain := by
  obtain ⟨around, p, k, inner, at_, site, has⟩ := SyntaxTree.ofRoot_exists_site h
  have shaped := TokenStream.forest_shaped (TokenStream.ofText_eof text)
    (TokenStream.ofText_plain text) Step.quiet_broken
  refine ⟨around, p, k, inner, at_, site, (shaped.hasNode has).1, (shaped.hasNode has).2, ?_⟩
  intro l mem
  refine TokenStream.forest_plain text l ?_
  simpa [Forest.leaves] using has.leaves_sublist.subset mem

theorem Typed.kind_eq {t : SyntaxTree} {k : Kind} (x : Typed t (.production k)) :
    t.kind x.node = k := by
  have accepted := x.accepted
  simp only [View.accepts, beq_iff_eq] at accepted
  exact accepted.symm

namespace SyntaxTree

variable {t : SyntaxTree}

theorem Site.formed {around : Option Nat} {p : Place} {k : Kind} {inner : Forest}
    (site : t.Site around p k inner) (fits : (k.shape true).Matches inner.tops)
    (shaped : inner.Shaped true)
    (plain : ∀ l ∈ inner.leaves, l.Plain) : t.Formed p.node := by
  constructor
  · rw [site.kind, site.children, site.within.children_kinds]
    exact fits
  · rw [site.children]
    exact site.within.children_told shaped fun l mem => (plain l mem).1

/-- The children of a node stand as its kind asks for, and the queries of its view find each part
in its place. -/
structure Arranged (t : SyntaxTree) (n : Nat) : Prop where
  shape : ((t.kind n).shape true).Matches ((t.children n).map t.childKind)
  block : ∀ x : View.BlockExpr t, x.node = n →
    (t.childrenAs (.category .expr) n = [] ∧ x.tailExpr? = none) ∨
      ∃ (e : View.Expr t) (before : List Child) (closing : Nat),
        t.childrenAs (.category .expr) n = [e] ∧ x.tailExpr? = some e ∧
          t.children n = before ++ [.node e.node, .token closing] ∧
            t.tokenKind closing = .rightBrace
  binary : ∀ x : View.BinaryExpr t, x.node = n →
    ∃ (l : View.Expr t) (operator : Nat) (behind : List Child),
      t.children n = .node l.node :: .token operator :: behind ∧
        t.tokenKind operator = .binaryOperator ∧ x.lhs? = some l ∧ x.opToken? = some operator ∧
        ((behind = [] ∧ x.rhs? = none) ∨
          (∃ m, behind = [.node m] ∧ t.kind m = .error ∧ x.rhs? = none) ∨
          ∃ r : View.Expr t, behind = [.node r.node] ∧ x.rhs? = some r ∧ r.node ≠ l.node)
  call : ∀ x : View.CallExpr t, x.node = n → ∃ (callee : View.Expr t) (args : View.ArgList t),
    t.children n = [.node callee.node, .node args.node] ∧ x.callee? = some callee ∧
      x.argList? = some args
  exprStmt : ∀ x : View.ExprStmt t, x.node = n → ∃ e : View.Expr t,
    t.childNodes n = [e.node] ∧ x.expr? = some e
  letStmt : ∀ x : View.LetStmt t, x.node = n →
    t.parts n = nodesOf x.pat?.toList ++ nodesOf x.type?.toList ++ nodesOf x.initializer?.toList
  param : ∀ x : View.Param t, x.node = n → ∃ pat : View.Pat t,
    t.childNodes n = pat.node :: nodesOf x.type?.toList ∧ x.pat? = some pat
  constItem : ∀ x : View.ConstItem t, x.node = n →
    t.parts n = nodesOf x.attrs ++ nodesOf x.visibility?.toList ++ nodesOf x.name?.toList ++
      nodesOf x.type?.toList ++ nodesOf x.body?.toList
  fnItem : ∀ x : View.FnItem t, x.node = n →
    t.parts n = nodesOf x.attrs ++ nodesOf x.visibility?.toList ++ nodesOf x.name?.toList ++
      nodesOf x.paramList?.toList ++ nodesOf x.retType?.toList ++ nodesOf x.body?.toList
  name : ∀ x : View.Name t, x.node = n → ∃ i,
    t.children n = [.token i] ∧ t.tokenKind i = .ident ∧ x.identToken? = some i
  nameRef : ∀ x : View.NameRef t, x.node = n → ∃ i,
    t.children n = [.token i] ∧ t.tokenKind i = .ident ∧ x.identToken? = some i

theorem no_nodes_of_children {v : View} {children : List Child}
    (h : ∀ c ∈ children, v.accepts (t.childKind c) = false) :
    ((children.filterMap Child.node?).filter fun m => v.accepts (t.kind m)) = [] := by
  rw [List.filter_eq_nil_iff]
  intro m mem accepted
  obtain ⟨c, inside, isNode⟩ := List.mem_filterMap.mp mem
  cases c with
  | token i => cases isNode
  | node m' =>
      cases isNode
      simpa [childKind, accepted] using h _ inside

theorem childrenAs_eq_nil {v : View} {n : Nat}
    (h : ∀ c ∈ t.children n, v.accepts (t.childKind c) = false) : t.childrenAs v n = [] := by
  apply childrenAs_eq []
  rw [childNodes_eq, no_nodes_of_children h]
  rfl

theorem childrenAs_of_children {v : View} {n m : Nat} (before after : List Child)
    (h : t.children n = before ++ .node m :: after)
    (ahead : ∀ c ∈ before, v.accepts (t.childKind c) = false)
    (here : v.accepts (t.kind m) = true)
    (behind : ∀ c ∈ after, v.accepts (t.childKind c) = false) :
    t.childrenAs v n = [⟨m, here⟩] := by
  apply childrenAs_eq [⟨m, here⟩]
  have split : (Child.node m :: after).filterMap Child.node? =
      m :: after.filterMap Child.node? := rfl
  rw [childNodes_eq, h, List.filterMap_append, split, List.filter_append,
    no_nodes_of_children ahead, List.filter_cons_of_pos (by exact here),
    no_nodes_of_children behind]
  rfl

section Fields

theorem formed_name {k : Kind} (x : Typed t (.production k)) (shape : k.shape true = Form.token .ident)
    (h : t.Formed x.node) :
    ∃ i, t.children x.node = [.token i] ∧ t.tokenKind i = .ident ∧
      t.tokenChild? x.node .ident = some i := by
  have row := h.row
  rw [x.kind_eq, shape] at row
  obtain ⟨c, only, kind⟩ := List.map_eq_singleton_iff.mp (derives_token.mp row)
  obtain ⟨i, rfl⟩ := h.token_of (c := c) (by simp [only]) (by rw [kind]; rfl)
  have kind : t.tokenKind i = .ident := kind
  refine ⟨i, only, kind, ?_⟩
  simp [tokenChild?, childTokens, only, kind]

theorem formed_call (x : View.CallExpr t) (h : t.Formed x.node) :
    ∃ (callee : View.Expr t) (args : View.ArgList t),
      t.children x.node = [.node callee.node, .node args.node] ∧ x.callee? = some callee ∧
        x.argList? = some args := by
  have row := h.row
  rw [x.kind_eq] at row
  obtain ⟨_, _, split, first, second⟩ := derives_seq.mp row
  obtain ⟨k, member, rfl⟩ := matches_category.mp first
  rw [derives_token.mp second] at split
  obtain ⟨c, _, only, rfl, rest⟩ := List.map_eq_cons_iff.mp split
  obtain ⟨d, rfl, kind⟩ := List.map_eq_singleton_iff.mp rest
  obtain ⟨m, rfl⟩ := h.node_of (c := c) (by simp [only]) (Category.isNode_of_contains member)
  obtain ⟨a, rfl⟩ := h.node_of (c := d) (by simp [only]) (by rw [kind]; rfl)
  have callee : (View.category .expr).accepts (t.kind m) = true := member
  have args : (View.production .argList).accepts (t.kind a) = true := by
    simpa [View.accepts, childKind] using kind.symm
  refine ⟨⟨m, callee⟩, ⟨a, args⟩, only, ?_, ?_⟩
  · have single := childrenAs_of_children [] _ only (by simp) callee (by
      intro c mem
      rw [List.mem_singleton.mp mem, kind]
      rfl)
    rw [View.CallExpr.callee?, firstChildAs, single]
    rfl
  · have other : (View.production .argList).accepts (t.kind m) = false := by
      by_cases same : t.kind m = .argList
      · rw [View.accepts, same] at callee
        exact absurd callee (by decide)
      · simpa [View.accepts] using Ne.symm same
    have single := childrenAs_of_children [.node m] [] only (by
      simpa [childKind] using other) args (by simp)
    rw [View.CallExpr.argList?, firstChildAs, single]
    rfl

theorem formed_exprStmt (x : View.ExprStmt t) (h : t.Formed x.node) :
    ∃ e : View.Expr t, t.childNodes x.node = [e.node] ∧ x.expr? = some e := by
  have row := h.row
  rw [x.kind_eq] at row
  obtain ⟨k, member, single⟩ : ∃ k, Category.expr.members.contains k = true ∧
      (((t.children x.node).map t.childKind) = [k] ∨
        ((t.children x.node).map t.childKind) = [k, .semicolon]) := by
    rcases derives_alt.mp row with row | row
    · obtain ⟨_, closing, split, first, second⟩ := derives_seq.mp row
      obtain ⟨k, member, rfl⟩ := matches_category.mp first
      rw [derives_token.mp second] at split
      exact ⟨k, member, .inr split⟩
    · rcases derives_alt.mp row with row | row
      · exact ⟨.blockExpr, rfl, .inl (derives_token.mp row)⟩
      · obtain ⟨k, member, only⟩ := matches_category.mp row
        exact ⟨k, member, .inl only⟩
  obtain ⟨m, only, rfl⟩ : ∃ m, t.childNodes x.node = [m] ∧ t.kind m = k := by
    apply List.map_eq_singleton_iff.mp
    have isNode := Category.isNode_of_contains member
    rw [h.nodeKinds]
    rcases single with single | single
    · rw [single, List.filter_cons_of_pos isNode, List.filter_nil]
    · rw [single, List.filter_cons_of_pos isNode]
      rfl
  have accepted : (View.category .expr).accepts (t.kind m) = true := member
  refine ⟨⟨m, accepted⟩, only, ?_⟩
  have single := childrenAs_eq [⟨m, accepted⟩] (by rw [only]; simp [accepted])
  rw [View.ExprStmt.expr?, firstChildAs, single]
  rfl

theorem formed_letStmt (x : View.LetStmt t) (h : t.Formed x.node) :
    t.parts x.node =
      nodesOf x.pat?.toList ++ nodesOf x.type?.toList ++ nodesOf x.initializer?.toList := by
  have parts := h.parts_eq [] [.category .pat, .category .type, .category .expr]
    (by rw [x.kind_eq]; decide +kernel)
  rw [parts]
  simp only [List.flatMap_cons, List.flatMap_nil, List.nil_append, List.append_nil,
    List.append_assoc]
  rfl

theorem formed_param (x : View.Param t) (h : t.Formed x.node) : ∃ pat : View.Pat t,
    t.childNodes x.node = pat.node :: nodesOf x.type?.toList ∧ x.pat? = some pat := by
  have row := h.row
  rw [x.kind_eq] at row
  obtain ⟨_, more, split, first, second⟩ := derives_seq.mp row
  obtain ⟨k, member, rfl⟩ := matches_category.mp first
  have kinds := h.nodeKinds
  rw [split, List.singleton_append, List.filter_cons_of_pos (Category.isNode_of_contains member)] at kinds
  obtain ⟨m, behind, only, rfl, rest⟩ := List.map_eq_cons_iff.mp kinds
  have accepted : (View.category .pat).accepts (t.kind m) = true := member
  have pat : x.pat? = some ⟨m, accepted⟩ := by
    rw [View.Param.pat?, firstChildAs, childrenAs, only]
    simp [view?, accepted]
  refine ⟨⟨m, accepted⟩, ?_, pat⟩
  have parts := h.parts_eq [] [.category .pat, .category .type]
    (by rw [x.kind_eq]; decide +kernel)
  have no_errors : t.parts x.node = t.childNodes x.node := by
    apply List.filter_eq_self.mpr
    intro child mem
    have inRow : t.kind child ∈ ((t.children x.node).map t.childKind).filter Kind.isNode := by
      rw [← h.nodeKinds]
      exact List.mem_map_of_mem mem
    have lacking := h.row.not_of_lacks (p := fun k => k == .error)
      (by rw [x.kind_eq]; decide +kernel) _ (List.mem_filter.mp inRow).1
    simpa using lacking
  rw [← no_errors, parts]
  change _ ++ (nodesOf x.pat?.toList ++ (nodesOf x.type?.toList ++ [])) = _
  rw [pat, List.append_nil]
  rfl

theorem formed_constItem (x : View.ConstItem t) (h : t.Formed x.node) :
    t.parts x.node = nodesOf x.attrs ++ nodesOf x.visibility?.toList ++ nodesOf x.name?.toList ++
      nodesOf x.type?.toList ++ nodesOf x.body?.toList := by
  have parts := h.parts_eq [.production .attr] [.production .visibility,
    .production .name, .category .type, .category .expr] (by rw [x.kind_eq]; decide +kernel)
  rw [parts]
  simp only [List.flatMap_cons, List.flatMap_nil, List.append_nil, List.append_assoc]
  rfl

theorem formed_fnItem (x : View.FnItem t) (h : t.Formed x.node) :
    t.parts x.node = nodesOf x.attrs ++ nodesOf x.visibility?.toList ++ nodesOf x.name?.toList ++
      nodesOf x.paramList?.toList ++ nodesOf x.retType?.toList ++ nodesOf x.body?.toList := by
  have parts := h.parts_eq [.production .attr] [.production .visibility,
    .production .name, .production .paramList, .production .retType, .production .blockExpr]
    (by rw [x.kind_eq]; decide +kernel)
  rw [parts]
  simp only [List.flatMap_cons, List.flatMap_nil, List.append_nil, List.append_assoc]
  rfl

theorem formed_block (x : View.BlockExpr t) (h : t.Formed x.node) :
    (t.childrenAs (.category .expr) x.node = [] ∧ x.tailExpr? = none) ∨
      ∃ (e : View.Expr t) (before : List Child) (closing : Nat),
        t.childrenAs (.category .expr) x.node = [e] ∧ x.tailExpr? = some e ∧
          t.children x.node = before ++ [.node e.node, .token closing] ∧
            t.tokenKind closing = .rightBrace := by
  have row := h.row
  rw [x.kind_eq] at row
  obtain ⟨opening, more, split, first, row⟩ := derives_seq.mp row
  obtain ⟨statements, tail, rfl, inside, last⟩ := derives_seq.mp row
  rw [← List.append_assoc] at split
  have missing (lacking : ∀ k ∈ (t.children x.node).map t.childKind,
      (View.category .expr).accepts k = false) :
      t.childrenAs (.category .expr) x.node = [] ∧ x.tailExpr? = none := by
    have empty := childrenAs_eq_nil fun c mem => lacking _ (List.mem_map_of_mem mem)
    refine ⟨empty, ?_⟩
    rw [View.BlockExpr.tailExpr?, firstChildAs, empty]
    rfl
  have ahead : ∀ k ∈ opening ++ statements, (View.category .expr).accepts k = false := by
    have none := Derives.not_of_lacks (p := (View.category .expr).accepts)
      (f := .seq (Form.token .leftBrace) (many (statementShape true))) (.seq first inside)
      (by decide +kernel)
    exact none
  rcases derives_opt.mp last with last | rfl
  · obtain ⟨final, closing, rfl, final_, closing_⟩ := derives_seq.mp last
    rw [derives_token.mp closing_] at split
    rcases derives_opt.mp final_ with final_ | rfl
    · obtain ⟨k, member, rfl⟩ := matches_category.mp final_
      obtain ⟨before, behind, only, beforeKinds, behindKinds⟩ := List.map_eq_append_iff.mp split
      obtain ⟨c, _, rfl, rfl, rest⟩ := List.map_eq_cons_iff.mp behindKinds
      obtain ⟨d, rfl, kind⟩ := List.map_eq_singleton_iff.mp rest
      obtain ⟨m, rfl⟩ := h.node_of (c := c) (by simp [only]) (Category.isNode_of_contains member)
      obtain ⟨i, rfl⟩ := h.token_of (c := d) (by simp [only]) (by rw [kind]; rfl)
      have accepted : (View.category .expr).accepts (t.kind m) = true := member
      have single := childrenAs_of_children _ _ only
        (fun c mem => ahead _ (beforeKinds ▸ List.mem_map_of_mem mem)) accepted (by
          intro c mem
          rw [List.mem_singleton.mp mem, kind]
          rfl)
      refine .inr ⟨⟨m, accepted⟩, before, i, single, ?_, only, kind⟩
      rw [View.BlockExpr.tailExpr?, firstChildAs, single]
      rfl
    · refine .inl (missing fun k mem => ?_)
      rw [split] at mem
      rcases List.mem_append.mp mem with mem | mem
      · exact ahead k mem
      · obtain rfl := List.mem_singleton.mp mem
        rfl
  · refine .inl (missing fun k mem => ?_)
    rw [split, List.append_nil] at mem
    exact ahead k mem

end Fields

theorem site_operands {around : Option Nat} {p : Place} {inner : Forest}
    (site : t.Site around p .binaryExpr inner) (fits : (Kind.binaryExpr.shape true).Matches inner.tops)
    (shaped : inner.Shaped true) (plain : ∀ l ∈ inner.leaves, l.Plain) :
    ∃ m operator behind, t.children p.node = .node m :: .token operator :: behind ∧
      (View.category .expr).accepts (t.kind m) = true ∧
      t.tokenKind operator = .binaryOperator ∧
      (t.trimmedSpan m).start < (t.tokenSpan operator).stop ∧
      (behind = [] ∨ ∃ r, behind = [.node r] ∧ (t.kind r = .error ∨
        (View.category .expr).accepts (t.kind r) = true ∧
          (t.tokenSpan operator).stop ≤ (t.trimmedSpan r).start)) := by
  obtain ⟨_, row, split, first, fits⟩ := derives_seq.mp fits
  obtain ⟨k, member, rfl⟩ := matches_category.mp first
  obtain ⟨_, tail, rfl, operator, last⟩ := derives_seq.mp fits
  rw [derives_token.mp operator] at split
  obtain ⟨left, rest, rfl, behind⟩ :=
    Forest.eq_node_of_tops (fun l mem => (plain l mem).1) split (Category.isNode_of_contains member)
  obtain ⟨op, right, rfl, opKind, tailKinds⟩ :=
    Forest.eq_leaf_of_tops (k := .binaryOperator) shaped.2.2.2 behind rfl
  have rightPlain : ∀ l ∈ right.leaves, l.Plain := fun l mem =>
    plain l (List.mem_append_right _ (List.mem_cons_of_mem _ mem))
  have opLength : 0 < op.length :=
    (plain op (List.mem_append_right _ List.mem_cons_self)).2 (by rw [opKind]; decide)
  obtain ⟨opPlace, rightPlace⟩ := site.within.node.2.2.leaf
  have leftSite := site.within.site
  have opToken := leaf_token opPlace
  refine ⟨_, _, _, site.children, ?_, ?_, ?_, ?_⟩
  · rw [leftSite.kind]
    exact member
  · rw [tokenKind, opToken]
    exact opKind
  · have started := leftSite.trimmedSpan_start.2
    rw [tokenSpan, opToken]
    simp only [Place.inside, Place.after] at started ⊢
    omega
  · have found {r : Kind} (kinds : tail = [r]) (isNode : r.isNode = true) :
        ∃ a, right = .node r a .nil := by
      obtain ⟨a, none, rfl, nothing⟩ := Forest.eq_node_of_tops
        (fun l mem => (rightPlain l mem).1) (tailKinds.trans kinds) isNode
      obtain rfl := Forest.eq_nil_of_tops nothing
      exact ⟨a, rfl⟩
    rcases derives_part.mp last with operand | ⟨-, error | rfl⟩
    · obtain ⟨r, operand, kinds⟩ := matches_category.mp operand
      obtain ⟨a, rfl⟩ := found kinds (Category.isNode_of_contains operand)
      have started := rightPlace.site.trimmedSpan_start.1
      refine .inr ⟨_, rfl, .inr ⟨?_, ?_⟩⟩
      · rw [rightPlace.site.kind]
        exact operand
      · refine Nat.le_trans ?_ started
        rw [tokenSpan, opToken]
        simp only [Place.afterLeaf, Leaf.byteLength]
        omega
    · obtain ⟨a, rfl⟩ := found error rfl
      exact .inr ⟨_, rfl, .inl rightPlace.site.kind⟩
    · cases right with
      | nil => exact .inl rfl
      | leaf => cases tailKinds
      | node => cases tailKinds

theorem site_binary {around : Option Nat} {p : Place} {inner : Forest} (x : View.BinaryExpr t)
    (at_ : p.node = x.node) (site : t.Site around p .binaryExpr inner)
    (fits : (Kind.binaryExpr.shape true).Matches inner.tops) (shaped : inner.Shaped true)
    (plain : ∀ l ∈ inner.leaves, l.Plain) :
    ∃ (l : View.Expr t) (operator : Nat) (behind : List Child),
      t.children x.node = .node l.node :: .token operator :: behind ∧
        t.tokenKind operator = .binaryOperator ∧ x.lhs? = some l ∧ x.opToken? = some operator ∧
        ((behind = [] ∧ x.rhs? = none) ∨
          (∃ m, behind = [.node m] ∧ t.kind m = .error ∧ x.rhs? = none) ∨
          ∃ r : View.Expr t, behind = [.node r.node] ∧ x.rhs? = some r ∧ r.node ≠ l.node) := by
  obtain ⟨m, operator, behind, children, accepted, kind, before, operand⟩ :=
    site_operands site fits shaped plain
  rw [at_] at children
  have token : x.opToken? = some operator := by
    simp [View.BinaryExpr.opToken?, tokenChild?, childTokens, children, kind]
  have first : x.lhs? = some ⟨m, accepted⟩ := by
    rw [View.BinaryExpr.lhs?, firstChildAs, childrenAs, childNodes_eq, children]
    simp [Child.node?, view?, accepted]
  have rhs : x.rhs? = (t.childrenAs (.category .expr) x.node).find? fun e =>
      (t.tokenSpan operator).stop ≤ (t.trimmedSpan e.node).start := by
    rw [View.BinaryExpr.rhs?, token]
    rfl
  have passed : ¬(t.tokenSpan operator).stop ≤ (t.trimmedSpan m).start := Nat.not_le.mpr before
  refine ⟨⟨m, accepted⟩, operator, behind, children, kind, first, token, ?_⟩
  rw [rhs, childrenAs, childNodes_eq, children]
  rcases operand with rfl | ⟨r, rfl, error | ⟨operand, after⟩⟩
  · refine .inl ⟨rfl, ?_⟩
    simp [Child.node?, view?, accepted, passed]
  · refine .inr (.inl ⟨r, rfl, error, ?_⟩)
    have rejected : ¬(View.category .expr).accepts (t.kind r) = true := by
      rw [error]
      decide
    simp [Child.node?, view?, accepted, passed, rejected]
  · refine .inr (.inr ⟨⟨r, operand⟩, rfl, ?_, ?_⟩)
    · simp [Child.node?, view?, accepted, passed, operand, after]
    · rintro rfl
      exact passed after

theorem Site.arranged {around : Option Nat} {p : Place} {k : Kind} {inner : Forest}
    (site : t.Site around p k inner) (fits : (k.shape true).Matches inner.tops)
    (shaped : inner.Shaped true) (plain : ∀ l ∈ inner.leaves, l.Plain) : t.Arranged p.node := by
  have formed := site.formed fits shaped plain
  constructor
  case shape => exact formed.row
  case block => exact fun x at_ => at_ ▸ formed_block x (at_ ▸ formed)
  case binary =>
    intro x at_
    obtain rfl : k = .binaryExpr := by rw [← site.kind, ← at_, x.kind_eq]
    exact at_ ▸ site_binary x at_.symm site fits shaped plain
  case call => exact fun x at_ => at_ ▸ formed_call x (at_ ▸ formed)
  case exprStmt => exact fun x at_ => at_ ▸ formed_exprStmt x (at_ ▸ formed)
  case letStmt => exact fun x at_ => at_ ▸ formed_letStmt x (at_ ▸ formed)
  case param => exact fun x at_ => at_ ▸ formed_param x (at_ ▸ formed)
  case constItem => exact fun x at_ => at_ ▸ formed_constItem x (at_ ▸ formed)
  case fnItem => exact fun x at_ => at_ ▸ formed_fnItem x (at_ ▸ formed)
  case name => exact fun x at_ => at_ ▸ formed_name x rfl (at_ ▸ formed)
  case nameRef => exact fun x at_ => at_ ▸ formed_name x rfl (at_ ▸ formed)

end SyntaxTree

/-- Every node of every parse has its parts in place. -/
theorem parse_arranged {text : Text} {n : Nat} (h : n < (parse text).tree.nodes.size) :
    (parse text).tree.Arranged n := by
  obtain ⟨around, p, k, inner, rfl, site, fits, shaped, plain⟩ := parse_site h
  exact site.arranged fits shaped plain

-- An operator without an operand behind it, at the end of a block.
theorem parse_arranged_missing_operand :
    let t := (parse ['f', 'n', ' ', 'f', '(', ')', '\x7b', '1', '+', '\x7d']).tree
    (5 < t.nodes.size ∧ t.kind 5 = .binaryExpr) ∧ t.Arranged 5 :=
  ⟨by decide +kernel, parse_arranged (by decide +kernel)⟩

end LosslessTree
