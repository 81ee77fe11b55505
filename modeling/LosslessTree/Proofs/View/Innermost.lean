import LosslessTree.Proofs.Tree.Covering
import LosslessTree.View.Selection

set_option autoImplicit false

namespace LosslessTree.SyntaxTree

/-- The node can be seen as the view and covers the span, and all nodes of which that is true are around
it. -/
structure Innermost (t : SyntaxTree) (v : View) (s : Span) (n : Nat) : Prop where
  lies : n < t.nodes.size
  accepted : v.accepts (t.kind n) = true
  covers : (t.span n).contains s = true
  least : ∀ m < t.nodes.size, v.accepts (t.kind m) = true → (t.span m).contains s = true →
    m ∈ t.ancestors n

variable {t : SyntaxTree} {v : View} {s : Span}

theorem Innermost.unique {n m : Nat} (h : t.Innermost v s n) (h' : t.Innermost v s m) : n = m := by
  have le := le_of_mem_ancestors (h'.least n h.lies h.accepted h.covers)
  have ge := le_of_mem_ancestors (h.least m h'.lies h'.accepted h'.covers)
  exact Nat.le_antisymm le ge

theorem view?_eq_none_iff {n : Nat} : t.view? v n = none ↔ v.accepts (t.kind n) = false := by
  by_cases accepted : v.accepts (t.kind n) = true <;> simp [view?, accepted]

section Ways

variable {m : Nat} (inside : m < t.nodes.size)
  (around : ∀ q < t.nodes.size, q ∈ t.ancestors m ↔ (t.span q).contains s = true)
include inside around

theorem innermost_of_findSome? {x : Typed t v} (found : (t.ancestors m).findSome? (t.view? v) = some x) :
    t.Innermost v s x.node := by
  obtain ⟨front, q, behind, way, own, before⟩ := List.findSome?_eq_some_iff.mp found
  rw [view?_eq_some_iff] at own
  subst own
  have mem : x.node ∈ t.ancestors m := by simp [way]
  have lies : x.node < t.nodes.size := Nat.lt_of_le_of_lt (le_of_mem_ancestors mem) inside
  constructor
  case lies => exact lies
  case accepted => exact x.accepted
  case covers => exact (around x.node lies).mp mem
  case least =>
    -- A node in front of the first one on the way out is not accepted, one behind it is around it.
    intro q lies' accepted covers
    have above := (around q lies').mpr covers
    rw [way, ← ancestors_of_split way] at above
    rcases List.mem_append.mp above with passed | outside
    · have refused := view?_eq_none_iff.mp (before q passed)
      rw [accepted] at refused
      cases refused
    · exact outside

theorem findSome?_eq_none_iff : (t.ancestors m).findSome? (t.view? v) = none ↔
    ∀ n < t.nodes.size, v.accepts (t.kind n) = true → (t.span n).contains s = false := by
  simp only [List.findSome?_eq_none_iff, view?_eq_none_iff]
  constructor
  · intro none n lies accepted
    by_contra covers
    have refused := none n ((around n lies).mpr (by simpa using covers))
    rw [accepted] at refused
    cases refused
  · intro none n mem
    have lies : n < t.nodes.size := Nat.lt_of_le_of_lt (le_of_mem_ancestors mem) inside
    by_contra accepted
    have short := none n lies (by simpa using accepted)
    rw [(around n lies).mp mem] at short
    cases short

theorem findSome?_eq_some_iff {x : Typed t v} :
    (t.ancestors m).findSome? (t.view? v) = some x ↔ t.Innermost v s x.node := by
  constructor
  · exact innermost_of_findSome? inside around
  · intro least
    cases found : (t.ancestors m).findSome? (t.view? v) with
    | none =>
        have short := (findSome?_eq_none_iff inside around).mp found x.node least.lies least.accepted
        rw [least.covers] at short
        cases short
    | some y =>
        -- Another one that is found would be innermost, too.
        have least' := innermost_of_findSome? inside around found
        exact congrArg some (Typed.eq_of_node (least'.unique least))

end Ways

theorem eq_of_around {m m' : Nat} (inside : m < t.nodes.size) (inside' : m' < t.nodes.size)
    (around : ∀ q < t.nodes.size, q ∈ t.ancestors m ↔ (t.span q).contains s = true)
    (around' : ∀ q < t.nodes.size, q ∈ t.ancestors m' ↔ (t.span q).contains s = true) : m = m' := by
  have covers := (around m inside).mp (mem_ancestors_self t m)
  have covers' := (around' m' inside').mp (mem_ancestors_self t m')
  have le := le_of_mem_ancestors ((around' m inside).mpr covers)
  have ge := le_of_mem_ancestors ((around m' inside').mpr covers')
  exact Nat.le_antisymm le ge

theorem seekAs_eq_ok (n : Nat) : t.seekAs v n s = .ok (t.innermostAs v n s) := by
  -- The span is judged before it is sought, so the search is never asked for one outside.
  by_cases covers : (t.span n).contains s = true
  · have ends : ∃ e, t.innermost n s = .ok e := by
      rw [innermost, if_pos covers]
      split
      · exact ⟨_, rfl⟩
      · split <;> exact ⟨_, rfl⟩
    obtain ⟨e, ends⟩ := ends
    simp only [innermostAs, seekAs, if_pos covers, innermostNode, ends, Except.map]
  · simp only [innermostAs, seekAs, if_neg covers]

theorem ofRoot_exists_way {text : Text} {k : Kind} {f : Forest} (v : View) {n : Nat}
    (lies : n < (ofRoot text k f).nodes.size) (bytes : s.start < s.stop)
    (covers : ((ofRoot text k f).span n).contains s = true) :
    ∃ m < (ofRoot text k f).nodes.size,
      (ofRoot text k f).innermostAs v n s =
          ((ofRoot text k f).ancestors m).findSome? ((ofRoot text k f).view? v) ∧
        ∀ q < (ofRoot text k f).nodes.size,
          q ∈ (ofRoot text k f).ancestors m ↔ ((ofRoot text k f).span q).contains s = true := by
  rw [ofRoot_nodes_size] at lies ⊢
  obtain ⟨m, inside, ends, around⟩ := (ofRoot_rooted text k f).exists_innermostNode lies bytes covers
  refine ⟨m, inside, ?_, around⟩
  rw [innermostAs, seekAs, if_pos covers, ends]
  rfl

/-- Bytes inside the node sought from are found in the innermost node of the whole tree that can be seen
as the view, so the same node is found from each node around them. A span that is not inside the node is
answered too. -/
theorem innermostAs_innermost {text : Text} {events : List TreeEvent}
    (built : Assembly.run text events = .ok t) (v : View) {n : Nat} (lies : n < t.nodes.size) (s : Span) :
    ((t.span n).contains s = true → s.start < s.stop →
      (∀ x, t.seekAs v n s = .ok (some x) ↔ t.Innermost v s x.node) ∧
        (t.seekAs v n s = .ok none ↔
          ∀ m < t.nodes.size, v.accepts (t.kind m) = true → (t.span m).contains s = false) ∧
        ∀ m < t.nodes.size, (t.span m).contains s = true → t.seekAs v m s = t.seekAs v n s) ∧
      ((t.span n).contains s = false → t.seekAs v n s = .ok none) ∧
      t.seekAs v n s = .ok (t.innermostAs v n s) := by
  obtain ⟨k, f, rfl, rfl, -, -, -, -⟩ := Assembly.root_of_run built
  refine ⟨fun covers bytes => ?_, fun outside => by simp [seekAs, outside], seekAs_eq_ok n⟩
  obtain ⟨m, inside, found, around⟩ := ofRoot_exists_way v lies bytes covers
  simp only [seekAs_eq_ok, Except.ok.injEq]
  refine ⟨fun x => ?_, ?_, fun n' lies' covers' => ?_⟩
  · rw [found]
    exact findSome?_eq_some_iff inside around
  · rw [found]
    exact findSome?_eq_none_iff inside around
  · obtain ⟨m', inside', found', around'⟩ := ofRoot_exists_way v lies' bytes covers'
    rw [found, found', eq_of_around inside inside' around around']

-- A name inside parentheses: sought from the node of the name, an expression around it is found.
theorem innermostAs_innermost_outside :
    let text := ['(', 'a', ')']
    let events := [.openNode .exprStmt, .openNode .parenExpr, .token ⟨[], .leftParen, 1, []⟩,
      .openNode .pathExpr, .openNode .path, .openNode .nameRef, .token ⟨[], .ident, 1, []⟩, .closeNode,
      .closeNode, .closeNode, .token ⟨[], .rightParen, 1, []⟩, .closeNode, .closeNode]
    let t := SyntaxTree.ofRoot text .exprStmt
      (.node .parenExpr
        (.leaf ⟨[], .leftParen, 1, []⟩
          (.node .pathExpr (.node .path (.node .nameRef (.leaf ⟨[], .ident, 1, []⟩ .nil) .nil) .nil)
            (.leaf ⟨[], .rightParen, 1, []⟩ .nil))) .nil)
    Assembly.run text events = .ok t ∧
      (∃ x, t.seekAs (.category .expr) 4 ⟨1, 2⟩ = .ok (some x) ∧ x.node = 2 ∧
        t.Innermost (.category .expr) ⟨1, 2⟩ x.node) ∧
      t.seekAs (.category .expr) 0 ⟨1, 2⟩ = t.seekAs (.category .expr) 4 ⟨1, 2⟩ ∧
      t.seekAs (.category .expr) 4 ⟨1, 3⟩ = .ok none := by
  intro text events t
  have built : Assembly.run text events = .ok t := rfl
  obtain ⟨within, -, -⟩ := innermostAs_innermost built (.category .expr) (n := 4) (by decide) ⟨1, 2⟩
  obtain ⟨-, outside, -⟩ := innermostAs_innermost built (.category .expr) (n := 4) (by decide) ⟨1, 3⟩
  obtain ⟨least, -, same⟩ := within (by decide) (by decide)
  have found : t.seekAs (.category .expr) 4 ⟨1, 2⟩ = .ok (some ⟨2, by decide⟩) := by decide +kernel
  exact ⟨built, ⟨_, found, rfl, (least _).mp found⟩, same 0 (by decide) (by decide), outside (by decide)⟩

end LosslessTree.SyntaxTree
