import LosslessTree.Kind.Lookup
import LosslessTree.Proofs.Tree.Numbering
import LosslessTree.Tree.Walk
import LosslessTree.View.Selection

set_option autoImplicit false

namespace LosslessTree

def Kind.names (k : Kind) : List String := k.production?.toList ++ [k.rawName]

def View.names : View → List String
  | production k => k.names
  | category c => [c.name]

def KindSet.IsName (name : String) : Prop :=
  (∃ c : Category, name = c.name) ∨ ∃ k : Kind, k.isNode = true ∧ name ∈ k.names

theorem Category.named?_name (c : Category) : named? c.name = some c := by
  cases c <;> decide

theorem Category.named?_eq_some_iff (name : String) (c : Category) :
    named? name = some c ↔ name = c.name := by
  constructor
  · intro found
    have same := List.find?_some found
    exact (beq_iff_eq.mp same).symm
  · rintro rfl
    exact named?_name c

theorem Kind.named?_rawName {k : Kind} (isNode : k.isNode = true) : named? k.rawName = some k := by
  revert isNode
  cases k <;> decide

theorem Kind.named?_eq_some_iff (name : String) (k : Kind) :
    named? name = some k ↔ k.isNode = true ∧ name ∈ k.names := by
  constructor
  · intro found
    have isNode := List.mem_of_find?_eq_some found
    have same := List.find?_some found
    simp only [nodes, List.mem_filter] at isNode
    simp only [Bool.or_eq_true, beq_iff_eq] at same
    refine ⟨isNode.2, ?_⟩
    rcases same with raw | production
    · simp [names, raw]
    · simp [names, production]
  · rintro ⟨isNode, mem⟩
    simp only [names, List.mem_append, Option.mem_toList, List.mem_singleton] at mem
    rcases mem with production | rfl
    · exact named?_production production
    · exact named?_rawName isNode

theorem Category.named?_of_mem_names {k : Kind} {name : String} (isNode : k.isNode = true)
    (mem : name ∈ k.names) : named? name = none := by
  revert name
  revert isNode
  cases k <;> decide

namespace KindSet

theorem lookUp_category (c : Category) : lookUp c.name = .ok c.members := by
  simp [lookUp, Category.named?_name]

theorem lookUp_kind {k : Kind} {name : String} (isNode : k.isNode = true) (mem : name ∈ k.names) :
    lookUp name = .ok (ofList [k]) := by
  have kind := (Kind.named?_eq_some_iff name k).mpr ⟨isNode, mem⟩
  simp [lookUp, Category.named?_of_mem_names isNode mem, Kind.lookUp, kind, Except.map]

theorem lookUp_other {name : String} (other : ¬ IsName name) : lookUp name = .error ⟨name⟩ := by
  have category : Category.named? name = none :=
    Option.eq_none_iff_forall_ne_some.mpr fun c found =>
      other (.inl ⟨c, (Category.named?_eq_some_iff name c).mp found⟩)
  have kind : Kind.named? name = none :=
    Option.eq_none_iff_forall_ne_some.mpr fun k found =>
      other (.inr ⟨k, (Kind.named?_eq_some_iff name k).mp found⟩)
  simp [lookUp, Kind.lookUp, category, kind, Except.map]

theorem exists_lookUp_iff (name : String) : (∃ kinds, lookUp name = .ok kinds) ↔ IsName name := by
  constructor
  · rintro ⟨kinds, ok⟩
    by_contra other
    simp [lookUp_other other] at ok
  · rintro (⟨c, rfl⟩ | ⟨k, isNode, mem⟩)
    · exact ⟨_, lookUp_category c⟩
    · exact ⟨_, lookUp_kind isNode mem⟩

end KindSet

theorem View.exists_lookUp {v : View} {name : String} (listed : v ∈ all) (mem : name ∈ v.names) :
    ∃ kinds, KindSet.lookUp name = .ok kinds ∧ ∀ k, kinds.contains k = v.accepts k := by
  cases v with
  | category c =>
      obtain rfl := List.mem_singleton.mp mem
      exact ⟨_, KindSet.lookUp_category c, fun k => rfl⟩
  | production k =>
      have isNode : k.isNode = true := by simp_all [all, Kind.nodes]
      refine ⟨_, KindSet.lookUp_kind isNode mem, fun k' => ?_⟩
      rw [KindSet.contains_ofList, List.contains_cons, List.contains_nil, Bool.or_false]
      exact Bool.beq_comm

def WalkEvent.entered? : WalkEvent → Option Nat
  | enter n => some n
  | _ => none

namespace SyntaxTree

variable {t : SyntaxTree} {nodes below : List Nat}

theorem Enumerates.take_walk (h : t.Enumerates nodes below) :
    ∃ events : List WalkEvent, events.filterMap WalkEvent.entered? = below ∧
      ∀ (more n : Nat) (later : List Child) (outer : List (Nat × List Child)),
        Walk.take t .nodes (2 * below.length + more)
            ⟨none, (n, nodes.map Child.node ++ later) :: outer⟩ =
          events ++ Walk.take t .nodes more ⟨none, (n, later) :: outer⟩ := by
  induction h with
  | nil => exact ⟨[], rfl, fun more n later outer => by simp⟩
  | @cons m nodes below behind _ _ hi hr =>
      obtain ⟨inside, inner, through⟩ := hi
      obtain ⟨rest, entered, past⟩ := hr
      refine ⟨.enter m :: inside ++ .leave m :: rest, ?_, fun more n later outer => ?_⟩
      · simp only [List.cons_append, List.filterMap_cons, List.filterMap_append, WalkEvent.entered?, inner,
          entered]
      · have steps : 2 * (m :: (below ++ behind)).length + more =
            2 * below.length + (2 * behind.length + more + 1) + 1 := by
          simp only [List.length_cons, List.length_append]
          omega
        have within := through (2 * behind.length + more + 1) m []
          ((n, nodes.map Child.node ++ later) :: outer)
        rw [List.append_nil] at within
        rw [steps, Walk.take]
        simp only [List.map_cons, List.cons_append, Walk.next, Walk.childrenIn, within]
        rw [Walk.take]
        simp only [Walk.next, past, List.append_assoc, List.cons_append]

theorem Enumerates.entered {n bound : Nat} (h : t.Enumerates (t.childNodes n) below)
    (enough : 2 * (below.length + 1) ≤ bound) :
    ((Walk.start n).take t .nodes bound).filterMap WalkEvent.entered? = n :: below := by
  obtain ⟨events, entered, through⟩ := h.take_walk
  obtain ⟨more, rfl⟩ := Nat.exists_eq_add_of_le enough
  have steps : 2 * (below.length + 1) + more = 2 * below.length + (more + 1) + 1 := by omega
  have within := through (more + 1) n [] []
  rw [List.append_nil] at within
  rw [steps, Walk.take]
  simp only [Walk.start, Walk.next, Walk.childrenIn, Option.map_some, within]
  cases more <;> simp [Walk.take, Walk.next, WalkEvent.entered?, entered]

theorem ofRoot_entered (text : Text) (k : Kind) (f : Forest) {n bound : Nat} (lies : n < 1 + f.nodeCount)
    (enough : (ofRoot text k f).walkBound ≤ bound) :
    ((Walk.start n).take (ofRoot text k f) .nodes bound).filterMap WalkEvent.entered? =
      n :: (ofRoot text k f).descendants n := by
  have root := ofRoot_rooted text k f
  obtain ⟨around, q, k', inner, rfl, site, fits⟩ := root.exists_site lies
  apply (root.enumerates_descendants lies).entered
  rw [walkBound, ofRoot_nodes_size] at enough
  rw [site.descendants, List.length_range']
  omega

theorem filter_contains_eq {v : View} {kinds : KindSet} (agree : ∀ k, kinds.contains k = v.accepts k)
    (listed : List Nat) :
    listed.filter (fun m => kinds.contains (t.kind m)) =
      (listed.filterMap (t.view? v)).map Typed.node := by
  simp only [agree]
  induction listed with
  | nil => rfl
  | cons m listed ih =>
      by_cases accepted : v.accepts (t.kind m) = true
      · simp [view?, accepted, ih]
      · simp [view?, accepted, ih]

end SyntaxTree

/-- What is found below a node of a built tree by a name of a view is what is found by the view, and
what a walk through the node enters after it and the view takes. The names of categories and of the
kinds of nodes are all names that there are. -/
theorem lookUp_selects_view {text : Text} {events : List TreeEvent} {t : SyntaxTree}
    (built : Assembly.run text events = .ok t) :
    (∀ n < t.nodes.size, ∀ v ∈ View.all, ∀ name ∈ v.names,
      ∃ kinds, KindSet.lookUp name = .ok kinds ∧
        (t.descendants n).filter (fun m => kinds.contains (t.kind m)) =
          (t.descendantsAs v n).map Typed.node ∧
        ∀ bound, t.walkBound ≤ bound →
          t.descendantsAs v n =
            (((Walk.start n).take t .nodes bound).filterMap WalkEvent.entered?).tail.filterMap
              (t.view? v)) ∧
      ∀ name, ((∃ kinds, KindSet.lookUp name = .ok kinds) ↔ KindSet.IsName name) ∧
        (¬ KindSet.IsName name → KindSet.lookUp name = .error ⟨name⟩) := by
  obtain ⟨k, f, rfl, rfl, -, -, -, -⟩ := Assembly.root_of_run built
  constructor
  · intro n lies v listed name mem
    rw [SyntaxTree.ofRoot_nodes_size] at lies
    obtain ⟨kinds, found, agree⟩ := View.exists_lookUp listed mem
    refine ⟨kinds, found, SyntaxTree.filter_contains_eq agree _, fun bound enough => ?_⟩
    rw [SyntaxTree.ofRoot_entered text k f lies enough, List.tail_cons]
    rfl
  · intro name
    exact ⟨KindSet.exists_lookUp_iff name, KindSet.lookUp_other⟩

-- Expressions inside each other, of which a query by the name of their category gives both. The
-- name of a kind of tokens stands for nothing.
theorem lookUp_selects_view_nested :
    let text := ['(', 'a', ')']
    let events := [.openNode .exprStmt, .openNode .parenExpr, .token ⟨[], .leftParen, 1, []⟩,
      .openNode .pathExpr, .openNode .path, .openNode .nameRef, .token ⟨[], .ident, 1, []⟩, .closeNode,
      .closeNode, .closeNode, .token ⟨[], .rightParen, 1, []⟩, .closeNode, .closeNode]
    let t := SyntaxTree.ofRoot text .exprStmt
      (.node .parenExpr
        (.leaf ⟨[], .leftParen, 1, []⟩
          (.node .pathExpr (.node .path (.node .nameRef (.leaf ⟨[], .ident, 1, []⟩ .nil) .nil) .nil)
            (.leaf ⟨[], .rightParen, 1, []⟩ .nil))) .nil)
    Assembly.run text events = .ok t ∧
      (t.descendantsAs (.category .expr) 0).map Typed.node = [1, 2] ∧
      (∃ kinds, KindSet.lookUp "Expr" = .ok kinds ∧
        (t.descendants 0).filter (fun m => kinds.contains (t.kind m)) =
          (t.descendantsAs (.category .expr) 0).map Typed.node ∧
        ∀ bound, t.walkBound ≤ bound →
          t.descendantsAs (.category .expr) 0 =
            (((Walk.start 0).take t .nodes bound).filterMap WalkEvent.entered?).tail.filterMap
              (t.view? (.category .expr))) ∧
      KindSet.lookUp "IDENT" = .error ⟨"IDENT"⟩ := by
  intro text events t
  have built : Assembly.run text events = .ok t := rfl
  obtain ⟨selects, names⟩ := lookUp_selects_view built
  have listed : View.category .expr ∈ View.all := by decide
  have other : ¬ KindSet.IsName "IDENT" := by
    rintro (⟨c, same⟩ | ⟨k, isNode, mem⟩)
    · revert same
      cases c <;> decide
    · revert isNode mem
      cases k <;> decide
  exact ⟨built, by decide, selects 0 (by decide) _ listed "Expr" (by decide), (names "IDENT").2 other⟩

end LosslessTree
