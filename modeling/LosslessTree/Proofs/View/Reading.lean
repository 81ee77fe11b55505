import LosslessTree.Proofs.Grammar.Shape
import LosslessTree.Proofs.Tree.Site
import LosslessTree.View.Selection

set_option autoImplicit false

namespace LosslessTree

theorem filter_or_of_pairwise {α : Type} {p q : α → Bool} {l : List α}
    (order : l.Pairwise fun x y => ¬(q x = true ∧ p y = true))
    (apart : ∀ x ∈ l, ¬(p x = true ∧ q x = true)) :
    l.filter (fun x => p x || q x) = l.filter p ++ l.filter q := by
  induction l with
  | nil => rfl
  | cons x l ih =>
      obtain ⟨first, order⟩ := List.pairwise_cons.mp order
      obtain ⟨here, apart⟩ := List.forall_mem_cons.mp apart
      have rest := ih order apart
      by_cases hq : q x = true
      · -- Behind an element of the second class there is none of the first.
        have none : l.filter p = [] := by
          rw [List.filter_eq_nil_iff]
          intro y mem hp
          exact first y mem ⟨hq, hp⟩
        simp_all
      · by_cases hp : p x = true <;> simp_all

def Child.node? : Child → Option Nat
  | .node m => some m
  | .token _ => none

theorem SyntaxTree.childNodes_eq (t : SyntaxTree) (n : Nat) :
    t.childNodes n = (t.children n).filterMap Child.node? := by
  unfold childNodes
  congr

namespace View

-- Each view stands in every row of the form behind the views in front of it in the list, and no
-- kind belongs to two of them.
def inOrder (f : Form Empty) : List View → Bool
  | [] => true
  | v :: vs => inOrder f vs && vs.all fun u =>
      f.never u.accepts v.accepts && Kind.all.all fun k => !(v.accepts k && u.accepts k)

-- In every row of the form stand nodes of the first views, then at most one of each other view,
-- and otherwise none but errors.
def covers (f : Form Empty) (several single : List View) : Bool :=
  inOrder f (several ++ single) && single.all (fun v => f.never v.accepts v.accepts) &&
    f.lacks fun k => k.isNode && (k != .error) != (several ++ single).any fun v => v.accepts k

end View

namespace SyntaxTree

def parts (t : SyntaxTree) (n : Nat) : List Nat :=
  (t.childNodes n).filter fun m => t.kind m != .error

def nodesOf {t : SyntaxTree} {v : View} (xs : List (Typed t v)) : List Nat := xs.map Typed.node

-- The kinds of a node's children are a row of its shape, and tell its nodes from its tokens.
structure Formed (t : SyntaxTree) (n : Nat) : Prop where
  row : ((t.kind n).shape true).Matches ((t.children n).map t.childKind)
  told : ∀ c ∈ t.children n, (t.childKind c).isNode = c.node?.isSome

variable {t : SyntaxTree} {n : Nat} {v : View}

theorem Embeds.children_kinds {parent : Nat} {p : Place} {f : Forest} (h : t.Embeds parent p f) :
    (f.layout parent p).children.map t.childKind = f.tops := by
  induction f generalizing p with
  | nil => rfl
  | leaf l rest ih =>
      have kind : t.tokenKind (p.token + l.leading.length) = l.kind := by
        rw [tokenKind, leaf_token h.leaf.1]
      simp only [Forest.layout, List.map_cons, childKind, kind, ih h.leaf.2, Forest.tops]
  | node k inner rest _ ih =>
      simp only [Forest.layout, List.map_cons, childKind, h.site.kind, ih h.node.2.2, Forest.tops]

theorem Embeds.children_told {parent : Nat} {p : Place} {f : Forest} (h : t.Embeds parent p f)
    (shaped : f.Shaped true) (plain : ∀ l ∈ f.leaves, l.kind.isNode = false) :
    ∀ c ∈ (f.layout parent p).children, (t.childKind c).isNode = c.node?.isSome := by
  induction f generalizing p with
  | nil => simp [Forest.layout]
  | leaf l rest ih =>
      intro c mem
      rcases List.mem_cons.mp mem with rfl | mem
      · rw [childKind, tokenKind, leaf_token h.leaf.1]
        exact plain l List.mem_cons_self
      · exact ih h.leaf.2 shaped (fun l mem => plain l (List.mem_cons_of_mem _ mem)) c mem
  | node k inner rest _ ih =>
      intro c mem
      rcases List.mem_cons.mp mem with rfl | mem
      · rw [childKind, h.site.kind]
        exact shaped.1
      · exact ih h.node.2.2 shaped.2.2.2
          (fun l mem => plain l (List.mem_append_right _ mem)) c mem

theorem Site.childNodes {around : Option Nat} {p : Place} {k : Kind} {inner : Forest}
    (site : t.Site around p k inner) :
    t.childNodes p.node = (inner.layout p.node p.inside).children.filterMap Child.node? := by
  rw [childNodes_eq, site.children]

theorem childrenAs_nodes (v : View) (n : Nat) :
    (t.childrenAs v n).map Typed.node =
      (t.childNodes n).filter fun m => v.accepts (t.kind m) := by
  rw [childrenAs]
  induction t.childNodes n with
  | nil => rfl
  | cons m nodes ih =>
      by_cases accepted : v.accepts (t.kind m) = true
      · simp [view?, accepted, ih]
      · simp [view?, accepted, ih]

theorem childrenAs_eq (xs : List (Typed t v))
    (h : ((t.childNodes n).filter fun m => v.accepts (t.kind m)) = xs.map Typed.node) :
    t.childrenAs v n = xs := by
  rw [← childrenAs_nodes] at h
  refine List.map_inj_right ?_ |>.mp h
  rintro ⟨a, _⟩ ⟨b, _⟩ same
  cases same
  rfl

theorem map_firstChildAs (v : View) (n : Nat) :
    (t.firstChildAs v n).map Typed.node = (t.childNodes n).find? fun m => v.accepts (t.kind m) := by
  rw [firstChildAs, ← List.head?_map, childrenAs_nodes, List.head?_filter]

theorem firstChildAs_toList (one : (t.childrenAs v n).length ≤ 1) :
    (t.firstChildAs v n).toList = t.childrenAs v n := by
  rw [firstChildAs]
  match h : t.childrenAs v n with
  | [] => rfl
  | [_] => rfl
  | _ :: _ :: _ => simp [h] at one

section Rows

variable (h : t.Formed n)
include h

theorem Formed.node_of {c : Child} (mem : c ∈ t.children n)
    (isNode : (t.childKind c).isNode = true) : ∃ m, c = .node m := by
  have told := h.told c mem
  cases c with
  | node m => exact ⟨m, rfl⟩
  | token i => simp_all [Child.node?]

theorem Formed.token_of {c : Child} (mem : c ∈ t.children n)
    (isToken : (t.childKind c).isNode = false) : ∃ i, c = .token i := by
  have told := h.told c mem
  cases c with
  | node m => simp_all [Child.node?]
  | token i => exact ⟨i, rfl⟩

theorem Formed.nodeKinds :
    (t.childNodes n).map t.kind = ((t.children n).map t.childKind).filter Kind.isNode := by
  have told := h.told
  rw [childNodes_eq]
  generalize t.children n = children at told ⊢
  induction children with
  | nil => rfl
  | cons c children ih =>
      obtain ⟨here, rest⟩ := List.forall_mem_cons.mp told
      rw [List.map_cons, List.filter_cons, here, ← ih rest]
      cases c <;> rfl

theorem Formed.pairwise {p q : Kind → Bool} (apart : ((t.kind n).shape true).never p q = true) :
    (t.childNodes n).Pairwise fun x y => ¬(p (t.kind x) = true ∧ q (t.kind y) = true) := by
  have row := (h.row.pairwise_of_never apart).filter Kind.isNode
  rw [← h.nodeKinds] at row
  exact List.pairwise_map.mp row

theorem Formed.childrenAs_length
    (once : ((t.kind n).shape true).never v.accepts v.accepts = true) :
    (t.childrenAs v n).length ≤ 1 := by
  have apart := (h.pairwise once).filter fun m => v.accepts (t.kind m)
  have all : ∀ m ∈ (t.childNodes n).filter fun m => v.accepts (t.kind m),
      v.accepts (t.kind m) = true := by simp
  rw [← List.length_map Typed.node, childrenAs_nodes]
  generalize (t.childNodes n).filter (fun m => v.accepts (t.kind m)) = nodes at apart all
  match nodes with
  | [] => simp
  | [_] => simp
  | a :: b :: _ =>
      have both := (List.pairwise_cons.mp apart).1 b List.mem_cons_self
      exact absurd ⟨all a List.mem_cons_self, all b (by simp)⟩ both

theorem Formed.filter_any {vs : List View} (order : View.inOrder ((t.kind n).shape true) vs = true) :
    ((t.childNodes n).filter fun m => vs.any fun v => v.accepts (t.kind m)) =
      vs.flatMap fun v => (t.childrenAs v n).map Typed.node := by
  induction vs with
  | nil => simp
  | cons v vs ih =>
      simp only [View.inOrder, Bool.and_eq_true, List.all_eq_true, Bool.not_eq_true',
        Bool.and_eq_false_iff] at order
      obtain ⟨later, ahead⟩ := order
      have split := filter_or_of_pairwise (l := t.childNodes n)
        (p := fun m => v.accepts (t.kind m)) (q := fun m => vs.any fun u => u.accepts (t.kind m))
      simp only [List.any_cons, List.flatMap_cons]
      rw [split, childrenAs_nodes, ih later]
      · have each : ∀ u ∈ vs, (t.childNodes n).Pairwise fun x y =>
            ¬(u.accepts (t.kind x) = true ∧ v.accepts (t.kind y) = true) :=
          fun u mem => h.pairwise (ahead u mem).1
        rw [List.pairwise_iff_forall_sublist]
        rintro x y sub ⟨any, accepted⟩
        obtain ⟨u, mem, other⟩ := List.any_eq_true.mp any
        exact List.pairwise_iff_forall_sublist.mp (each u mem) sub ⟨other, accepted⟩
      · rintro x - ⟨accepted, any⟩
        obtain ⟨u, mem, other⟩ := List.any_eq_true.mp any
        rcases (ahead u mem).2 (t.kind x) (Kind.mem_all _) with none | none
        · rw [none] at accepted
          cases accepted
        · rw [none] at other
          cases other

theorem Formed.parts_eq (several single : List View)
    (covered : View.covers ((t.kind n).shape true) several single = true) :
    t.parts n = several.flatMap (fun v => nodesOf (t.childrenAs v n)) ++
      single.flatMap fun v => nodesOf (t.firstChildAs v n).toList := by
  simp only [View.covers, Bool.and_eq_true, List.all_eq_true] at covered
  obtain ⟨⟨order, once⟩, whole⟩ := covered
  have firsts : (single.flatMap fun v => nodesOf (t.firstChildAs v n).toList) =
      single.flatMap fun v => nodesOf (t.childrenAs v n) := by
    refine congrArg List.flatten (List.map_congr_left fun v mem => ?_)
    rw [firstChildAs_toList (h.childrenAs_length (once v mem))]
  rw [firsts, ← List.flatMap_append]
  refine Eq.trans ?_ (h.filter_any order)
  apply List.filter_congr
  intro m mem
  have inRow : t.kind m ∈ ((t.children n).map t.childKind).filter Kind.isNode := by
    rw [← h.nodeKinds]
    exact List.mem_map_of_mem mem
  obtain ⟨inRow, isNode⟩ := List.mem_filter.mp inRow
  have same := h.row.not_of_lacks whole _ inRow
  simpa [isNode] using same

end Rows

end SyntaxTree

end LosslessTree
