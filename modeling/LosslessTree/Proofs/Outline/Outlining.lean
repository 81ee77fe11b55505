import LosslessTree.Proofs.Outline.Collecting
import LosslessTree.Proofs.Outline.Reaching

set_option autoImplicit false

namespace LosslessTree

namespace Outline

variable (t : SyntaxTree)

def keyword : Kind → String
  | .fnItem => "fn"
  | .structItem => "struct"
  | .constItem => "const"
  | .useItem => "use"
  | .modItem => "mod"
  | _ => "field"

def caption (n : Nat) : Text :=
  match t.kind n with
  | .fnItem =>
      nameText t (t.firstChildAs (.production .name) n)
        ++ ((t.firstChildAs (.production .paramList) n).map fun x => t.trimmedText x.node).getD []
        ++ ((t.firstChildAs (.production .retType) n).map fun x => ' ' :: t.trimmedText x.node).getD []
  | .structItem | .constItem | .modItem => nameText t (t.firstChildAs (.production .name) n)
  | .useItem => textOr t (t.firstChildAs (.production .path) n)
  | _ =>
      nameText t (t.firstChildAs (.production .name) n) ++ [':', ' ']
        ++ textOr t (t.firstChildAs (.category .type) n)

def entryOf (r : Outline.Row) : Entry :=
  ⟨r.depth, keyword (t.kind r.node), caption t r.node, t.trimmedSpan r.node⟩

end Outline

namespace SyntaxTree

open Outline

variable {t : SyntaxTree} {n m : Nat}

theorem listedIn_eq {list : Kind} {v : View} (once : (t.childrenAs (.production list) n).length ≤ 1) :
    t.listedIn list v n = match t.firstChildAs (.production list) n with
      | some l => (t.childrenAs v l.node).map Typed.node
      | none => [] := by
  have lists : ((t.childNodes n).filter fun l => (View.production list).accepts (t.kind l)) =
      (t.firstChildAs (.production list) n).toList.map Typed.node := by
    rw [firstChildAs_toList once, childrenAs_nodes]
  rw [listedIn, lists]
  cases t.firstChildAs (.production list) n with
  | none => rfl
  | some l => simp [childrenAs_nodes]

theorem entryOf_field (depth : Nat) (f : View.Field t) :
    entryOf t ⟨depth, f.node⟩ = fieldEntry t depth f := by
  simp [entryOf, fieldEntry, entry, keyword, caption, f.kind_eq, View.Field.name?, View.Field.type?]

theorem entryOf_item (depth : Nat) (x : View.Item t) :
    entryOf t ⟨depth, x.node⟩ = match x.form with
      | .fn f => entry t depth "fn" (signature t f) x
      | .struct s => entry t depth "struct" (nameText t s.name?) x
      | .const c => entry t depth "const" (nameText t c.name?) x
      | .use u => entry t depth "use" (textOr t u.path?) x
      | .mod m => entry t depth "mod" (nameText t m.name?) x := by
  rcases View.item_kinds x.accepted with kind | kind | kind | kind | kind
  · simp [View.Item.form, kind, entryOf, keyword, caption, entry, signature, View.FnItem.name?,
      View.FnItem.paramList?, View.FnItem.retType?]
  · simp [View.Item.form, kind, entryOf, keyword, caption, entry, View.StructItem.name?]
  · simp [View.Item.form, kind, entryOf, keyword, caption, entry, View.ConstItem.name?]
  · simp [View.Item.form, kind, entryOf, keyword, caption, entry, View.UseItem.path?]
  · simp [View.Item.form, kind, entryOf, keyword, caption, entry, View.ModItem.name?]

theorem outlinedIn_eq_nil (isModule : t.kind n ≠ .modItem) (isStruct : t.kind n ≠ .structItem) :
    t.outlinedIn n = [] := by
  rw [outlinedIn, if_neg isModule, if_neg isStruct]

theorem keyword_of_outlined (mem : m ∈ t.outlinedIn n) :
    keyword (t.kind n) = "mod" ∨ keyword (t.kind n) = "struct" := by
  obtain ⟨_, -, -, -, kind | kind⟩ := outlinedIn_cases mem
  · exact .inl (congrArg keyword kind)
  · exact .inr (congrArg keyword kind)

section Formed

variable (formed : ∀ n < t.nodes.size, t.Formed n)
include formed

theorem fieldsIn_eq (s : View.StructItem t) :
    t.fieldsIn s.node = (fields t s).map Typed.node := by
  have once : (t.childrenAs (.production .fieldList) s.node).length ≤ 1 := by
    refine (formed s.node (lt_size_of_kind ?_)).childrenAs_length ?_
    · rw [s.kind_eq]
      decide
    · rw [s.kind_eq]
      decide +kernel
  rw [fieldsIn, listedIn_eq once, fields, View.StructItem.fieldList?]
  cases t.firstChildAs (.production .fieldList) s.node <;> rfl

theorem itemsIn_eq (m : View.ModItem t) :
    t.outlinedIn m.node = (items t m).map Typed.node := by
  have once : (t.childrenAs (.production .itemList) m.node).length ≤ 1 := by
    refine (formed m.node (lt_size_of_kind ?_)).childrenAs_length ?_
    · rw [m.kind_eq]
      decide
    · rw [m.kind_eq]
      decide +kernel
  rw [outlinedIn, if_pos m.kind_eq, listedIn_eq once, items, View.ModItem.itemList?]
  cases t.firstChildAs (.production .itemList) m.node <;> rfl

end Formed

section Sequence

variable (h : t.Sequenced)
include h

theorem Sequenced.rows_of_fields {k depth : Nat} (isStruct : t.kind n = .structItem)
    (enough : t.Enough (k + 1) n) :
    (t.outlinedIn n).flatMap (t.outlineRows k depth) = (t.fieldsIn n).map (Outline.Row.mk depth) := by
  have own : t.outlinedIn n = t.fieldsIn n := by
    rw [outlinedIn, if_neg (by rw [isStruct]; decide), if_pos isStruct]
  rw [own, List.map_eq_flatMap]
  refine List.flatMap_congr fun m mem => ?_
  -- There is a level left for the field itself, and nothing is inside it.
  obtain ⟨some_, -⟩ := (h.inside_of_outlined (own ▸ mem)).enough enough
  obtain ⟨k, rfl⟩ := Nat.exists_eq_succ_of_ne_zero (Nat.ne_of_gt some_)
  obtain ⟨l, -, -, -, isField⟩ := mem_listedIn.mp mem
  rw [accepts_production] at isField
  rw [outlineRows, outlinedIn_eq_nil (by rw [isField]; decide) (by rw [isField]; decide)]
  rfl

theorem Sequenced.fields_infix {k depth : Nat} (enough : t.Enough k n) {r : Outline.Row}
    (mem : r ∈ t.outlineRows k depth n) (isStruct : t.kind r.node = .structItem) :
    (r :: (t.fieldsIn r.node).map (Outline.Row.mk (r.depth + 1))) <:+: t.outlineRows k depth n := by
  induction k generalizing depth n with
  | zero => cases mem
  | succ k ih =>
      rcases List.mem_cons.mp mem with rfl | mem
      · simp only [outlineRows, h.rows_of_fields isStruct enough, List.infix_refl]
      · obtain ⟨m, among, inner⟩ := List.mem_flatMap.mp mem
        have deeper := ih ((h.inside_of_outlined among).enough enough).2 inner
        have part : t.outlineRows k (depth + 1) m <:+:
            (t.outlinedIn n).flatMap (t.outlineRows k (depth + 1)) := by
          rw [List.flatMap_def]
          exact List.infix_of_mem_flatten (List.mem_map_of_mem among)
        exact (deeper.trans part).trans (List.suffix_cons _ _).isInfix

theorem Sequenced.levels_eq (formed : ∀ n < t.nodes.size, t.Formed n) {k depth : Nat} (x : View.Item t)
    (enough : t.Enough k x.node) :
    levels t k depth x = (t.outlineRows k depth x.node).map (entryOf t) := by
  induction k generalizing depth x with
  | zero => rfl
  | succ k ih =>
      rw [levels, itemEntries, outlineRows, List.map_cons, entryOf_item]
      -- The first entries are the same. Only a struct and a module have rows inside.
      rcases View.item_kinds x.accepted with kind | kind | kind | kind | kind
      · rw [outlinedIn_eq_nil (by rw [kind]; decide) (by rw [kind]; decide)]
        simp [View.Item.form, kind]
      · obtain ⟨s, form, same⟩ : ∃ s : View.StructItem t, x.form = .struct s ∧ s.node = x.node :=
          ⟨⟨x.node, by simp [View.accepts, kind]⟩, by simp [View.Item.form, kind], rfl⟩
        rw [h.rows_of_fields kind enough, ← same, fieldsIn_eq formed s, List.map_map, List.map_map]
        simp only [form]
        exact congrArg _ (List.map_congr_left fun f _ => (entryOf_field _ f).symm)
      · rw [outlinedIn_eq_nil (by rw [kind]; decide) (by rw [kind]; decide)]
        simp [View.Item.form, kind]
      · rw [outlinedIn_eq_nil (by rw [kind]; decide) (by rw [kind]; decide)]
        simp [View.Item.form, kind]
      · obtain ⟨m, form, same⟩ : ∃ m : View.ModItem t, x.form = .mod m ∧ m.node = x.node :=
          ⟨⟨x.node, by simp [View.accepts, kind]⟩, by simp [View.Item.form, kind], rfl⟩
        have inner := itemsIn_eq formed m
        rw [← same, inner, List.flatMap_map, List.map_flatMap]
        simp only [form]
        refine congrArg _ (List.flatMap_congr fun y mem => ih y ?_)
        have among : y.node ∈ t.outlinedIn x.node := same ▸ inner ▸ List.mem_map_of_mem mem
        exact ((h.inside_of_outlined among).enough enough).2

theorem Sequenced.start_lt_row (below : 0 < n) (lies : n < t.nodes.size) {k depth : Nat} {r : Outline.Row}
    (mem : r ∈ (t.outlinedIn n).flatMap (t.outlineRows k depth)) :
    (t.trimmedSpan n).start < (t.trimmedSpan r.node).start := by
  obtain ⟨m, among, -, own⟩ := h.rows_below mem
  have inside := h.inside_of_outlined among
  have first := h.start_lt_start below lies among
  rcases own with same | deeper
  · rw [← same] at first
    exact first
  · have contains := h.contains m (below.trans inside.below) (h.lt_size inside lies) r.node deeper
    exact first.trans_le ((Span.contains_iff _ _).mp contains).1

theorem Sequenced.stop_le_row {n' : Nat} (below : 0 < n) (lies : n < t.nodes.size)
    (lies' : n' < t.nodes.size) (behind : t.Behind n n') {k depth : Nat} {r : Outline.Row}
    (mem : r ∈ t.outlineRows (k + 1) depth n') :
    (t.trimmedSpan n).stop ≤ (t.trimmedSpan r.node).start := by
  have after := (h.rows_behind behind (r := ⟨depth, n⟩) List.mem_cons_self mem).1
  have inTree : r.node < t.nodes.size := by
    rcases h.rows_inside mem with same | inside
    · exact same ▸ lies'
    · exact h.lt_size inside lies'
  exact h.apart n below lies r.node inTree after

theorem Sequenced.indented (k depth : Nat) {nodes : List Nat} (order : nodes.Pairwise t.Behind)
    (lies : ∀ n ∈ nodes, 0 < n ∧ n < t.nodes.size) :
    Indented depth ((nodes.flatMap (t.outlineRows k depth)).map (entryOf t)) := by
  induction k generalizing depth nodes with
  | zero =>
      have none : nodes.flatMap (t.outlineRows 0 depth) = [] := List.flatMap_eq_nil_iff.mpr fun _ _ => rfl
      rw [none]
      exact .nil depth
  | succ k ih =>
      -- With the levels left, the rows of the nodes one by one.
      induction nodes with
      | nil => exact .nil depth
      | cons n nodes more =>
          obtain ⟨behind, order⟩ := List.pairwise_cons.mp order
          obtain ⟨⟨below, inTree⟩, lies⟩ := List.forall_mem_cons.mp lies
          have deeper := ih (depth + 1) (h.outlinedIn_behind n) fun m mem =>
            ⟨below.trans (h.inside_of_outlined mem).below, h.lt_size (h.inside_of_outlined mem) inTree⟩
          rw [List.flatMap_cons, List.map_append, outlineRows, List.map_cons, List.cons_append]
          refine .cons rfl (h.wide n below inTree) deeper ?begins ?contains ?holds ?behind (more order lies)
          case begins =>
            exact List.forall_mem_map.mpr fun r mem => h.start_lt_row below inTree mem
          case contains =>
            refine List.forall_mem_map.mpr fun r mem => ?_
            obtain ⟨_, -, inside, -⟩ := h.rows_below mem
            exact h.contains n below inTree r.node inside
          case holds =>
            intro some_
            obtain ⟨e, mem⟩ := List.exists_mem_of_ne_nil _ some_
            obtain ⟨r, mem, -⟩ := List.mem_map.mp mem
            obtain ⟨m, among, -⟩ := h.rows_below mem
            exact keyword_of_outlined among
          case behind =>
            refine List.forall_mem_map.mpr fun r mem => ?_
            obtain ⟨n', among, own⟩ := List.mem_flatMap.mp mem
            exact h.stop_le_row below inTree (lies n' among).2 (behind n' among) own

end Sequence

/-- The outline has the rows: one for each node that it reaches, in the order of the numbers. An entry that is
not at depth zero is inside the nearest one before it that is a level above it, and entries under the same one
do not overlap. -/
structure OutlinedAs (t : SyntaxTree) (rows : List Outline.Row) : Prop where
  entries : t.outline = rows.map (entryOf t)
  reached : ∀ r, r ∈ rows ↔ t.Outlined r.depth r.node
  preorder : (rows.map Outline.Row.node).Pairwise (· < ·)
  -- The fields of a struct are right behind it.
  fields : ∀ r ∈ rows, t.kind r.node = .structItem →
    (r :: (t.fieldsIn r.node).map (Outline.Row.mk (r.depth + 1))) <:+: rows
  first : ∀ e ∈ t.outline.head?, e.depth = 0
  grows : t.outline.IsChain fun e e' => e'.depth ≤ e.depth + 1
  -- Behind each item of the file the counter is zero, and the next entry is at depth zero.
  returns : ∀ before after, t.childrenAs (.category .item) 0 = before ++ after →
    before.foldlM (Collector.visitLevels t.nodes.size) ⟨[], 0⟩ =
        some ⟨before.flatMap (levels t t.nodes.size 0), 0⟩ ∧
      t.outline = before.flatMap (levels t t.nodes.size 0) ++ after.flatMap (levels t t.nodes.size 0) ∧
        ∀ e ∈ (after.flatMap (levels t t.nodes.size 0)).head?, e.depth = 0
  starts : t.outline.Pairwise fun e e' => e.span.start < e'.span.start
  inside : ∀ before e after, t.outline = before ++ e :: after → 0 < e.depth →
    ∃ o, enclosing before e = some o ∧ (o.keyword = "mod" ∨ o.keyword = "struct") ∧
      o.span.contains e.span = true
  -- Entries under the same one are of one depth.
  apart : t.outline.Pairwise fun e e' => e'.depth ≤ e.depth → e.span.stop ≤ e'.span.start

section File

variable (h : t.Sequenced)
include h

theorem Sequenced.items_behind {items : List (View.Item t)}
    (part : items.Sublist (t.childrenAs (.category .item) 0)) :
    (items.map Typed.node).Pairwise t.Behind ∧ ∀ n ∈ items.map Typed.node, 0 < n ∧ n < t.nodes.size := by
  have nodes : (items.map Typed.node).Sublist (t.childNodes 0) := by
    refine (part.map Typed.node).trans ?_
    rw [childrenAs_nodes]
    exact List.filter_sublist
  refine ⟨(h.behind 0).sublist nodes, fun n mem => ?_⟩
  have child := nodes.subset mem
  have inside := h.inside 0 n child
  exact ⟨inside.below, h.lt_size inside (lt_size_of_child child)⟩

theorem Sequenced.enough (lies : n < t.nodes.size) : t.Enough t.nodes.size n :=
  (h.own n lies).2.trans (Nat.le_add_left _ _)

theorem Sequenced.flatMap_levels (formed : ∀ n < t.nodes.size, t.Formed n) {items : List (View.Item t)}
    (part : items.Sublist (t.childrenAs (.category .item) 0)) :
    items.flatMap (levels t t.nodes.size 0) =
      ((items.map Typed.node).flatMap (t.outlineRows t.nodes.size 0)).map (entryOf t) := by
  rw [List.flatMap_map, List.map_flatMap]
  refine List.flatMap_congr fun x mem => h.levels_eq formed x (h.enough ?_)
  exact ((h.items_behind part).2 x.node (List.mem_map_of_mem mem)).2

theorem Sequenced.outlinedAs (formed : ∀ n < t.nodes.size, t.Formed n) (some_ : 0 < t.nodes.size) :
    ∃ rows, t.OutlinedAs rows := by
  have whole := List.Sublist.refl (t.childrenAs (.category .item) 0)
  obtain ⟨order, lies⟩ := h.items_behind whole
  have entries := h.flatMap_levels formed whole
  have indented := h.indented t.nodes.size 0 order lies
  rw [← entries] at indented
  rw [childrenAs_nodes] at order lies entries
  refine ⟨_, entries, fun r => ?reached, h.rows_ascending order fun n mem => (lies n mem).2, ?fields,
    indented.head, indented.grows, ?returns, indented.starts, fun _ _ _ split => indented.exists_enclosing split,
    indented.apart⟩
  case reached => exact h.mem_rows some_ fun n mem => h.enough (lies n mem).2
  case fields =>
    intro r mem isStruct
    obtain ⟨n, among, own⟩ := List.mem_flatMap.mp mem
    have part := h.fields_infix (h.enough (lies n among).2) own isStruct
    rw [List.flatMap_def]
    exact part.trans (List.infix_of_mem_flatten (List.mem_map_of_mem among))
  case returns =>
    intro before after split
    refine ⟨Collector.foldlM_visitLevels _ before, ?_, ?_⟩
    · rw [outline, split, List.flatMap_append]
    · have part : after.Sublist (t.childrenAs (.category .item) 0) :=
        split ▸ List.sublist_append_right before after
      obtain ⟨order, lies⟩ := h.items_behind part
      rw [h.flatMap_levels formed part]
      exact (h.indented _ _ order lies).head

end File

/-- The outline of any text has the items and fields that are reached from the file, each once, and shows by
its depths which of them are inside which. -/
theorem parse_outline (text : Text) : ∃ rows, (parse text).tree.OutlinedAs rows :=
  (parse_sequenced text).outlinedAs (parse_family text).formed (by rw [parse_nodes_size]; omega)

end SyntaxTree

end LosslessTree
