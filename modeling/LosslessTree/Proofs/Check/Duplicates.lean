import LosslessTree.Check
import LosslessTree.Proofs.Grammar.Reporting
import LosslessTree.Proofs.Tree.Numbering
import LosslessTree.Proofs.View.Arranged

set_option autoImplicit false

namespace LosslessTree

namespace SyntaxTree

section Meaning

variable (t : SyntaxTree)

def IsScope (scope : Nat) : Prop :=
  scope = 0 ∨ t.kind scope = .itemList ∧ ∃ m, t.kind m = .modItem ∧ scope ∈ t.childNodes m

-- The items that declare a name, unless they lack it; an import declares none.
def declaring : List Kind := [.fnItem, .structItem, .constItem, .modItem]

def Declares (item name : Nat) : Prop :=
  t.kind item ∈ declaring ∧ name ∈ t.childNodes item ∧ t.kind name = .name

def Redeclares (item name : Nat) : Prop :=
  ∃ scope earlier first before between after, t.IsScope scope ∧
    t.childNodes scope = before ++ earlier :: (between ++ item :: after) ∧
      t.Declares item name ∧ t.Declares earlier first ∧
        t.trimmedText first = t.trimmedText name

end Meaning

variable {t : SyntaxTree}

theorem mem_childrenAs {v : View} {n : Nat} {x : Typed t v} :
    x ∈ t.childrenAs v n ↔ x.node ∈ t.childNodes n := by
  rw [childrenAs, List.mem_filterMap]
  constructor
  · rintro ⟨m, mem, seen⟩
    rwa [(t.view?_eq_some_iff v m x).mp seen]
  · exact fun mem => ⟨x.node, mem, (t.view?_eq_some_iff v _ x).mpr rfl⟩

theorem firstChildAs_eq_some {v : View} {n : Nat} {x : Typed t v}
    (once : (t.childrenAs v n).length ≤ 1) :
    t.firstChildAs v n = some x ↔ x.node ∈ t.childNodes n := by
  rw [← mem_childrenAs, ← firstChildAs_toList once, Option.mem_toList]

theorem name?_eq (x : View.Item t) : x.name? =
    if t.kind x.node = .useItem then none else t.firstChildAs (.production .name) x.node := by
  rcases View.item_kinds x.accepted with kind | kind | kind | kind | kind <;>
    simp [View.Item.name?, View.Item.form, kind, View.FnItem.name?, View.StructItem.name?,
      View.ConstItem.name?, View.ModItem.name?]

def declared? (t : SyntaxTree) (n : Nat) : Option (View.Name t) :=
  (t.view? (.category .item) n).bind View.Item.name?

theorem declaredNames_eq (scope : Nat) :
    t.declaredNames scope = (t.childNodes scope).filterMap t.declared? := by
  rw [declaredNames, childrenAs, List.filterMap_filterMap]
  rfl

section Named

variable {item : Nat} (isItem : t.kind item ∈ declaring)
include isItem

theorem lt_size_of_declaring : item < t.nodes.size := by
  refine lt_size_of_kind fun none => ?_
  rw [none] at isItem
  revert isItem
  decide

theorem names_once (formed : ∀ n < t.nodes.size, t.Formed n) :
    (t.childrenAs (.production .name) item).length ≤ 1 := by
  have once : ∀ k ∈ declaring, (k.shape true).never (View.production .name).accepts
      (View.production .name).accepts = true := by
    decide +kernel
  exact (formed item (lt_size_of_declaring isItem)).childrenAs_length (once _ isItem)

end Named

theorem mem_declaring {k : Kind} :
    k ∈ declaring ↔ (View.category .item).accepts k = true ∧ k ≠ .useItem := by
  cases k <;> decide

theorem declared?_eq_some (formed : ∀ n < t.nodes.size, t.Formed n) {item : Nat}
    {x : View.Name t} : t.declared? item = some x ↔ t.Declares item x.node := by
  constructor
  · intro found
    obtain ⟨y, seen, named⟩ := Option.bind_eq_some_iff.mp found
    obtain rfl := (t.view?_eq_some_iff _ _ y).mp seen
    rw [name?_eq] at named
    split at named
    · cases named
    · next other =>
      have isItem : t.kind y.node ∈ declaring := mem_declaring.mpr ⟨y.accepted, other⟩
      exact ⟨isItem, (firstChildAs_eq_some (names_once isItem formed)).mp named, x.kind_eq⟩
  · rintro ⟨isItem, child, -⟩
    obtain ⟨accepted, other⟩ := mem_declaring.mp isItem
    rw [declared?, (t.view?_eq_some_iff _ _ ⟨item, accepted⟩).mpr rfl, Option.bind_some, name?_eq,
      if_neg other, firstChildAs_eq_some (names_once isItem formed)]
    exact child

theorem repeatedNames_sublist (seen : List Text) (names : List (View.Name t)) :
    (t.repeatedNames seen names).Sublist names := by
  induction names generalizing seen with
  | nil => exact .slnil
  | cons name names ih =>
    rw [repeatedNames]
    split
    · exact (ih seen).cons_cons name
    · exact (ih _).cons name

theorem mem_repeatedNames {seen : List Text} {names : List (View.Name t)} {x : View.Name t} :
    x ∈ t.repeatedNames seen names ↔ ∃ before after, names = before ++ x :: after ∧
      (x.text ∈ seen ∨ ∃ y ∈ before, y.text = x.text) := by
  induction names generalizing seen with
  | nil => simp [repeatedNames]
  | cons name names ih =>
    -- The name is the first one, or it is behind the first one.
    have cut : (∃ before after, name :: names = before ++ x :: after ∧
        (x.text ∈ seen ∨ ∃ y ∈ before, y.text = x.text)) ↔
        name = x ∧ x.text ∈ seen ∨ x ∈ t.repeatedNames (name.text :: seen) names := by
      rw [ih]
      constructor
      · rintro ⟨_ | ⟨first, before⟩, after, split, again⟩
        · obtain ⟨rfl, -⟩ := List.cons.inj split
          exact .inl ⟨rfl, by simpa using again⟩
        · rw [List.cons_append, List.cons.injEq] at split
          obtain ⟨rfl, rfl⟩ := split
          refine .inr ⟨before, after, rfl, ?_⟩
          rcases again with again | ⟨y, mem, same⟩
          · exact .inl (List.mem_cons_of_mem _ again)
          rcases List.mem_cons.mp mem with rfl | mem
          · exact .inl (same ▸ List.mem_cons_self)
          · exact .inr ⟨y, mem, same⟩
      · rintro (⟨rfl, again⟩ | ⟨before, after, rfl, again⟩)
        · exact ⟨[], names, rfl, .inl again⟩
        · refine ⟨name :: before, after, rfl, ?_⟩
          rcases again with again | ⟨y, mem, same⟩
          · rcases List.mem_cons.mp again with same | again
            · exact .inr ⟨name, List.mem_cons_self, same.symm⟩
            · exact .inl again
          · exact .inr ⟨y, List.mem_cons_of_mem _ mem, same⟩
    rw [cut, repeatedNames]
    split
    · next known =>
      have known : name.text ∈ seen := by simpa using known
      have same : x.text ∈ name.text :: seen ↔ x.text ∈ seen := by
        rw [List.mem_cons, or_iff_right_of_imp]
        exact fun same => same ▸ known
      rw [List.mem_cons, ih, ih, same, eq_comm]
      refine or_congr_left (and_iff_left_of_imp ?_).symm
      rintro rfl
      exact known
    · next fresh =>
      have fresh : name.text ∉ seen := by simpa using fresh
      constructor
      · exact .inr
      · rintro (⟨rfl, again⟩ | later)
        · exact absurd again fresh
        · exact later

/-- The nodes of a file: each is a child of one node at most, once, and is formed as its kind asks for. -/
structure Family (t : SyntaxTree) : Prop where
  file : t.kind 0 = .sourceFile
  root : t.parent? 0 = none
  below : ∀ n < t.nodes.size, n ≠ 0 → n ∈ t.descendants 0
  parent : ∀ n, ∀ m ∈ t.childNodes n, t.parent? m = some n
  once : ∀ n, (t.childNodes n).Nodup
  formed : ∀ n < t.nodes.size, t.Formed n

theorem lt_size_of_child {n m : Nat} (mem : m ∈ t.childNodes n) : n < t.nodes.size := by
  refine Nat.lt_of_not_le fun out => ?_
  rw [childNodes, children, node, Array.getD_eq_getD_getElem?, Array.getElem?_eq_none out] at mem
  cases mem

theorem parse_family (text : Text) : (parse text).tree.Family := by
  have root : (parse text).tree.Rooted .sourceFile _ := ofRoot_rooted text .sourceFile _
  have size := nodes_size_parse text
  constructor
  case file => exact root.site.kind
  case root => exact root.parent_zero
  case below =>
    intro n inside other
    exact root.site.mem_descendants.mpr ⟨Nat.pos_of_ne_zero other, size ▸ inside⟩
  case parent =>
    intro n m mem
    obtain ⟨_, p, _, inner, rfl, site, -⟩ := root.exists_site (size ▸ lt_size_of_child mem)
    rw [site.childNodes_heads] at mem
    exact site.within.parent_of_heads m mem
  case once =>
    intro n
    by_cases inside : n < (parse text).tree.nodes.size
    · obtain ⟨_, p, _, inner, rfl, site, -⟩ := root.exists_site (size ▸ inside)
      rw [site.childNodes_heads]
      exact Forest.heads_ascending.imp fun less => Nat.ne_of_lt less
    · have none : (parse text).tree.childNodes n = [] :=
        List.eq_nil_iff_forall_not_mem.mpr fun m mem => inside (lt_size_of_child mem)
      rw [none]
      exact List.nodup_nil
  case formed =>
    intro n inside
    obtain ⟨_, p, _, inner, rfl, site, fits, shaped, plain⟩ := parse_site inside
    exact site.formed fits shaped plain

theorem map_filterMap_sublist {α β : Type} {pick : α → Option β} {source : β → α}
    (told : ∀ a b, pick a = some b → source b = a) (l : List α) :
    ((l.filterMap pick).map source).Sublist l := by
  induction l with
  | nil => exact .slnil
  | cons a l ih =>
    cases picked : pick a with
    | none => simpa [picked] using ih.cons a
    | some b => simpa [picked, told a b picked] using ih.cons_cons a

section Scopes

variable (h : t.Family)
include h

def around (t : SyntaxTree) (n : Nat) : Nat := (t.parent? n).getD 0

theorem Family.around_eq {n m : Nat} (mem : m ∈ t.childNodes n) : t.around m = n := by
  rw [around, h.parent n m mem, Option.getD_some]

def itemListOf (t : SyntaxTree) (n : Nat) : Option Nat :=
  (t.view? (.production .modItem) n).bind fun (m : View.ModItem t) => m.itemList?.map Typed.node

omit h in
theorem moduleScopes_eq : t.moduleScopes = (t.descendants 0).filterMap t.itemListOf := by
  rw [moduleScopes, descendantsAs, List.filterMap_filterMap]
  rfl

theorem Family.itemListOf_eq_some {n scope : Nat} : t.itemListOf n = some scope ↔
    t.kind n = .modItem ∧ t.kind scope = .itemList ∧ scope ∈ t.childNodes n := by
  have once (isModule : t.kind n = .modItem) :
      (t.childrenAs (.production .itemList) n).length ≤ 1 := by
    refine (h.formed n (lt_size_of_kind ?_)).childrenAs_length ?_
    · rw [isModule]
      decide
    · rw [isModule]
      decide +kernel
  constructor
  · intro found
    obtain ⟨m, seen, list⟩ := Option.bind_eq_some_iff.mp found
    obtain rfl := (t.view?_eq_some_iff _ _ m).mp seen
    obtain ⟨l, first, rfl⟩ := Option.map_eq_some_iff.mp list
    exact ⟨m.kind_eq, l.kind_eq, (firstChildAs_eq_some (once m.kind_eq)).mp first⟩
  · rintro ⟨isModule, isList, child⟩
    have accepted : (View.production .modItem).accepts (t.kind n) = true := by
      rw [isModule]
      rfl
    have list : (View.production .itemList).accepts (t.kind scope) = true := by
      rw [isList]
      rfl
    have first : t.firstChildAs (.production .itemList) n = some ⟨scope, list⟩ :=
      (firstChildAs_eq_some (once isModule)).mpr child
    rw [itemListOf, (t.view?_eq_some_iff _ _ ⟨n, accepted⟩).mpr rfl, Option.bind_some,
      View.ModItem.itemList?, first]
    rfl

theorem Family.scopes_nodup : (0 :: t.moduleScopes).Nodup := by
  have told : ∀ n scope, t.itemListOf n = some scope → t.around scope = n :=
    fun n scope found => h.around_eq (h.itemListOf_eq_some.mp found).2.2
  have picked := map_filterMap_sublist told (t.descendants 0)
  have below : (t.descendants 0).Nodup := List.nodup_range'
  rw [← moduleScopes_eq] at picked
  refine List.nodup_cons.mpr ⟨fun mem => ?_, (picked.nodup below).of_map⟩
  rw [moduleScopes_eq] at mem
  obtain ⟨n, -, found⟩ := List.mem_filterMap.mp mem
  have around := h.parent n 0 (h.itemListOf_eq_some.mp found).2.2
  rw [h.root] at around
  cases around

theorem Family.mem_scopes {scope : Nat} : scope ∈ 0 :: t.moduleScopes ↔ t.IsScope scope := by
  rw [List.mem_cons, IsScope, moduleScopes_eq, List.mem_filterMap]
  refine or_congr_right ⟨?_, ?_⟩
  · rintro ⟨m, -, found⟩
    obtain ⟨isModule, isList, child⟩ := h.itemListOf_eq_some.mp found
    exact ⟨isList, m, isModule, child⟩
  · rintro ⟨isList, m, isModule, child⟩
    refine ⟨m, h.below m (lt_size_of_kind ?_) ?_, h.itemListOf_eq_some.mpr ⟨isModule, isList, child⟩⟩
    · rw [isModule]
      decide
    · rintro rfl
      rw [h.file] at isModule
      cases isModule

end Scopes

def redeclared (t : SyntaxTree) (scope : Nat) : List (Nat × Nat) :=
  (t.repeatedNames [] (t.declaredNames scope)).map fun x => (t.around x.node, x.node)

variable (h : t.Family)
include h

theorem Family.mem_redeclared {scope item name : Nat} : (item, name) ∈ t.redeclared scope ↔
    ∃ earlier first before between after,
      t.childNodes scope = before ++ earlier :: (between ++ item :: after) ∧
        t.Declares item name ∧ t.Declares earlier first ∧
          t.trimmedText first = t.trimmedText name := by
  rw [redeclared, List.mem_map, declaredNames_eq]
  constructor
  · rintro ⟨x, mem, same⟩
    obtain ⟨before, after, split, again⟩ := mem_repeatedNames.mp mem
    obtain ⟨y, earlier, text⟩ : ∃ y ∈ before, y.text = x.text := by simpa using again
    obtain ⟨front, behind, nodes, rfl, later⟩ := List.filterMap_eq_append_iff.mp split
    obtain ⟨between, item', after', rfl, -, found, -⟩ := List.filterMap_eq_cons_iff.mp later
    obtain ⟨n, mem, found'⟩ := List.mem_filterMap.mp earlier
    obtain ⟨front, between', rfl⟩ := List.append_of_mem mem
    have declares := (declared?_eq_some h.formed).mp found
    have own := h.around_eq declares.2.1
    obtain ⟨rfl, rfl⟩ := Prod.mk.inj same
    rw [own]
    refine ⟨n, y.node, front, between' ++ between, after', ?_, declares,
      (declared?_eq_some h.formed).mp found', text⟩
    rw [nodes]
    simp
  · rintro ⟨earlier, first, before, between, after, nodes, declares, declares', text⟩
    have view {n : Nat} (isName : t.kind n = .name) :
        (View.production .name).accepts (t.kind n) = true := by
      rw [isName]
      rfl
    have found : t.declared? item = some ⟨name, view declares.2.2⟩ :=
      (declared?_eq_some h.formed).mpr declares
    have found' : t.declared? earlier = some ⟨first, view declares'.2.2⟩ :=
      (declared?_eq_some h.formed).mpr declares'
    refine ⟨⟨name, view declares.2.2⟩, mem_repeatedNames.mpr ?_, ?_⟩
    · refine ⟨(before ++ earlier :: between).filterMap t.declared?, after.filterMap t.declared?, ?_,
        .inr ⟨⟨first, view declares'.2.2⟩, ?_, text⟩⟩
      · rw [nodes, ← List.cons_append, ← List.append_assoc, List.filterMap_append,
          List.filterMap_cons_some found]
      · exact List.mem_filterMap.mpr ⟨earlier, by simp, found'⟩
    · rw [h.around_eq declares.2.1]

theorem Family.redeclared_sublist (scope : Nat) :
    ((t.redeclared scope).map Prod.fst).Sublist (t.childNodes scope) := by
  have told : ∀ n x, t.declared? n = some x → t.around x.node = n :=
    fun n x found => h.around_eq ((declared?_eq_some h.formed).mp found).2.1
  have picked := map_filterMap_sublist told (t.childNodes scope)
  rw [← declaredNames_eq] at picked
  rw [redeclared, List.map_map]
  exact ((repeatedNames_sublist [] _).map _).trans picked

theorem Family.redeclared_nodup :
    (((0 :: t.moduleScopes).flatMap t.redeclared).map Prod.fst).Nodup := by
  rw [List.map_flatMap, List.nodup_flatMap]
  refine ⟨fun scope _ => (h.redeclared_sublist scope).nodup (h.once scope), ?_⟩
  refine h.scopes_nodup.imp fun {a b} apart => ?_
  intro item here there
  have first := h.around_eq ((h.redeclared_sublist a).subset here)
  have second := h.around_eq ((h.redeclared_sublist b).subset there)
  exact apart (first.symm.trans second)

end SyntaxTree

end LosslessTree
