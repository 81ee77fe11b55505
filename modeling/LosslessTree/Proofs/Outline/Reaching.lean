import LosslessTree.Proofs.Outline.Indented
import LosslessTree.Proofs.Tree.Sequence

set_option autoImplicit false

namespace LosslessTree

structure Outline.Row where
  depth : Nat
  node : Nat

namespace SyntaxTree

def isItem (t : SyntaxTree) (n : Nat) : Bool := (View.category .item).accepts (t.kind n)

/-- The outline has the node at the depth: an item of the file, an item in the braces of a module of the
outline, or a field of a struct of the outline. -/
inductive Outlined (t : SyntaxTree) : Nat → Nat → Prop where
  | top {n : Nat} (child : n ∈ t.childNodes 0) (isItem : t.isItem n = true) : t.Outlined 0 n
  | item {depth n list m : Nat} (outer : t.Outlined depth n) (isModule : t.kind n = .modItem)
      (lists : list ∈ t.childNodes n) (isList : t.kind list = .itemList) (child : m ∈ t.childNodes list)
      (isItem : t.isItem m = true) : t.Outlined (depth + 1) m
  | field {depth n list m : Nat} (outer : t.Outlined depth n) (isStruct : t.kind n = .structItem)
      (lists : list ∈ t.childNodes n) (isList : t.kind list = .fieldList) (child : m ∈ t.childNodes list)
      (isField : t.kind m = .field) : t.Outlined (depth + 1) m

def listedIn (t : SyntaxTree) (list : Kind) (v : View) (n : Nat) : List Nat :=
  ((t.childNodes n).filter fun l => (View.production list).accepts (t.kind l)).flatMap fun l =>
    (t.childNodes l).filter fun m => v.accepts (t.kind m)

def fieldsIn (t : SyntaxTree) : Nat → List Nat := t.listedIn .fieldList (.production .field)

def outlinedIn (t : SyntaxTree) (n : Nat) : List Nat :=
  if t.kind n = .modItem then t.listedIn .itemList (.category .item) n
  else if t.kind n = .structItem then t.fieldsIn n
  else []

def outlineRows (t : SyntaxTree) : Nat → Nat → Nat → List Outline.Row
  | 0, _, _ => []
  | k + 1, depth, n => ⟨depth, n⟩ :: (t.outlinedIn n).flatMap (t.outlineRows k (depth + 1))

variable {t : SyntaxTree} {n m : Nat}

theorem accepts_production {k kind : Kind} : (View.production k).accepts kind = true ↔ kind = k := by
  rw [View.accepts, beq_iff_eq, eq_comm]

theorem mem_listedIn {list : Kind} {v : View} : m ∈ t.listedIn list v n ↔
    ∃ l ∈ t.childNodes n, t.kind l = list ∧ m ∈ t.childNodes l ∧ v.accepts (t.kind m) = true := by
  simp [listedIn, accepts_production, and_assoc]

theorem outlinedIn_cases (mem : m ∈ t.outlinedIn n) : ∃ l ∈ t.childNodes n, t.kind l ∈ braced ∧
    m ∈ t.childNodes l ∧ (t.kind n = .modItem ∨ t.kind n = .structItem) := by
  rw [outlinedIn] at mem
  split at mem
  · next isModule =>
      obtain ⟨l, lists, isList, child, -⟩ := mem_listedIn.mp mem
      exact ⟨l, lists, isList ▸ by decide, child, .inl isModule⟩
  split at mem
  · next isStruct =>
      obtain ⟨l, lists, isList, child, -⟩ := mem_listedIn.mp mem
      exact ⟨l, lists, isList ▸ by decide, child, .inr isStruct⟩
  · cases mem

theorem Outlined.inner {depth : Nat} (outer : t.Outlined depth n) (mem : m ∈ t.outlinedIn n) :
    t.Outlined (depth + 1) m := by
  rw [outlinedIn] at mem
  split at mem
  · next isModule =>
      obtain ⟨l, lists, isList, child, isItem⟩ := mem_listedIn.mp mem
      exact .item outer isModule lists isList child isItem
  split at mem
  · next isStruct =>
      obtain ⟨l, lists, isList, child, isField⟩ := mem_listedIn.mp mem
      exact .field outer isStruct lists isList child (accepts_production.mp isField)
  · cases mem

theorem outlined_cases {depth : Nat} (h : t.Outlined depth m) :
    (depth = 0 ∧ m ∈ (t.childNodes 0).filter t.isItem) ∨
      ∃ outer n, depth = outer + 1 ∧ t.Outlined outer n ∧ m ∈ t.outlinedIn n := by
  cases h with
  | top child isItem => exact .inl ⟨rfl, List.mem_filter.mpr ⟨child, isItem⟩⟩
  | item outer isModule lists isList child isItem =>
      refine .inr ⟨_, _, rfl, outer, ?_⟩
      rw [outlinedIn, if_pos isModule]
      exact mem_listedIn.mpr ⟨_, lists, isList, child, isItem⟩
  | field outer isStruct lists isList child isField =>
      refine .inr ⟨_, _, rfl, outer, ?_⟩
      rw [outlinedIn, if_neg (by rw [isStruct]; decide), if_pos isStruct]
      exact mem_listedIn.mpr ⟨_, lists, isList, child, accepts_production.mpr isField⟩

theorem Outlined.rows {k depth : Nat} (reached : t.Outlined depth n) :
    ∀ r ∈ t.outlineRows k depth n, t.Outlined r.depth r.node := by
  induction k generalizing depth n with
  | zero => simp [outlineRows]
  | succ k ih =>
      refine List.forall_mem_cons.mpr ⟨reached, fun r mem => ?_⟩
      obtain ⟨m, among, inner⟩ := List.mem_flatMap.mp mem
      exact ih (reached.inner among) r inner

def Enough (t : SyntaxTree) (k n : Nat) : Prop := (t.node n).subtreeStop ≤ n + k

theorem Inside.enough {k : Nat} (inside : t.Inside n m) (enough : t.Enough (k + 1) n) :
    0 < k ∧ t.Enough k m := by
  have below := inside.below
  have own := inside.own
  have nodes := inside.nodes
  unfold Enough at *
  omega

section Sequence

variable (h : t.Sequenced)
include h

theorem Sequenced.inside_of_outlined (mem : m ∈ t.outlinedIn n) : t.Inside n m := by
  obtain ⟨l, lists, -, child, -⟩ := outlinedIn_cases mem
  exact (h.inside n l lists).trans (h.inside l m child)

theorem Sequenced.listedIn_behind (list : Kind) (v : View) (n : Nat) :
    (t.listedIn list v n).Pairwise t.Behind := by
  rw [listedIn, List.pairwise_flatMap]
  refine ⟨fun l _ => (h.behind l).filter _, ?_⟩
  refine ((h.behind n).filter _).imp fun {l l'} behind => ?_
  intro m mem m' mem'
  have inside := h.inside l m (List.mem_filter.mp mem).1
  have inside' := h.inside l' m' (List.mem_filter.mp mem').1
  exact inside.behind (behind.of_inside inside')

theorem Sequenced.outlinedIn_behind (n : Nat) : (t.outlinedIn n).Pairwise t.Behind := by
  rw [outlinedIn]
  split
  · exact h.listedIn_behind _ _ n
  split
  · exact h.listedIn_behind _ _ n
  · exact .nil

theorem Sequenced.lt_size (inside : t.Inside n m) (lies : n < t.nodes.size) : m < t.nodes.size :=
  inside.own.trans_le (inside.nodes.trans (h.own n lies).2)

theorem Sequenced.start_lt_start (below : 0 < n) (lies : n < t.nodes.size) (mem : m ∈ t.outlinedIn n) :
    (t.trimmedSpan n).start < (t.trimmedSpan m).start := by
  obtain ⟨l, lists, isList, child, -⟩ := outlinedIn_cases mem
  exact h.braced n below lies l (h.inside n l lists) isList m child

theorem Sequenced.rows_inside {k depth : Nat} {r : Outline.Row} (mem : r ∈ t.outlineRows k depth n) :
    r.node = n ∨ t.Inside n r.node := by
  induction k generalizing depth n with
  | zero => cases mem
  | succ k ih =>
      rcases List.mem_cons.mp mem with rfl | mem
      · exact .inl rfl
      · obtain ⟨m, among, inner⟩ := List.mem_flatMap.mp mem
        have inside := h.inside_of_outlined among
        rcases ih inner with same | deeper
        · exact .inr (same ▸ inside)
        · exact .inr (inside.trans deeper)

theorem Sequenced.rows_below {k depth : Nat} {r : Outline.Row}
    (mem : r ∈ (t.outlinedIn n).flatMap (t.outlineRows k depth)) :
    ∃ m ∈ t.outlinedIn n, t.Inside n r.node ∧ (r.node = m ∨ t.Inside m r.node) := by
  obtain ⟨m, among, inner⟩ := List.mem_flatMap.mp mem
  have inside := h.inside_of_outlined among
  refine ⟨m, among, ?_, h.rows_inside inner⟩
  rcases h.rows_inside inner with same | deeper
  · exact same ▸ inside
  · exact inside.trans deeper

theorem Sequenced.rows_behind {k depth : Nat} {n n' : Nat} (behind : t.Behind n n') {r r' : Outline.Row}
    (mem : r ∈ t.outlineRows k depth n) (mem' : r' ∈ t.outlineRows k depth n') :
    t.Behind n r'.node ∧ t.Behind r.node r'.node := by
  have after : t.Behind n r'.node := by
    rcases h.rows_inside mem' with same | inside
    · exact same ▸ behind
    · exact behind.of_inside inside
  refine ⟨after, ?_⟩
  rcases h.rows_inside mem with same | inside
  · exact same ▸ after
  · exact inside.behind after

theorem Sequenced.rows_ordered {k depth : Nat} {nodes : List Nat} (order : nodes.Pairwise t.Behind) :
    (nodes.flatMap (t.outlineRows k depth)).Pairwise fun r r' =>
      t.Inside r.node r'.node ∨ t.Behind r.node r'.node := by
  induction k generalizing depth nodes with
  | zero =>
      have none : nodes.flatMap (t.outlineRows 0 depth) = [] := List.flatMap_eq_nil_iff.mpr fun _ _ => rfl
      rw [none]
      exact .nil
  | succ k ih =>
      refine List.pairwise_flatMap.mpr ⟨fun n _ => ?_, order.imp fun behind r mem r' mem' => ?_⟩
      · refine .cons (fun r mem => ?_) (ih (h.outlinedIn_behind n))
        obtain ⟨_, -, inside, -⟩ := h.rows_below mem
        exact .inl inside
      · exact .inr (h.rows_behind behind mem mem').2

theorem Sequenced.rows_ascending {k depth : Nat} {nodes : List Nat} (order : nodes.Pairwise t.Behind)
    (lies : ∀ n ∈ nodes, n < t.nodes.size) :
    ((nodes.flatMap (t.outlineRows k depth)).map Outline.Row.node).Pairwise (· < ·) := by
  rw [List.pairwise_map]
  have inTree : ∀ r ∈ nodes.flatMap (t.outlineRows k depth), r.node < t.nodes.size := by
    intro r mem
    obtain ⟨n, among, own⟩ := List.mem_flatMap.mp mem
    rcases h.rows_inside own with same | inside
    · exact same ▸ lies n among
    · exact h.lt_size inside (lies n among)
  refine (h.rows_ordered order).imp_of_mem fun {r r'} mem _ ordered => ?_
  rcases ordered with inside | behind
  · exact inside.below
  · exact (h.own _ (inTree r mem)).1.trans_le behind.nodes

theorem Sequenced.rows_closed {k depth : Nat} (enough : t.Enough k n) {r : Outline.Row}
    (mem : r ∈ t.outlineRows k depth n) (among : m ∈ t.outlinedIn r.node) :
    ⟨r.depth + 1, m⟩ ∈ t.outlineRows k depth n := by
  induction k generalizing depth n with
  | zero => cases mem
  | succ k ih =>
      rcases List.mem_cons.mp mem with rfl | mem
      · -- The subtree has a level left for `m`, which is in it.
        obtain ⟨some_, -⟩ := (h.inside_of_outlined among).enough enough
        obtain ⟨k, rfl⟩ := Nat.exists_eq_succ_of_ne_zero (Nat.ne_of_gt some_)
        exact List.mem_cons_of_mem _ (List.mem_flatMap.mpr ⟨m, among, List.mem_cons_self⟩)
      · obtain ⟨n', among', inner⟩ := List.mem_flatMap.mp mem
        obtain ⟨-, enough'⟩ := (h.inside_of_outlined among').enough enough
        exact List.mem_cons_of_mem _ (List.mem_flatMap.mpr ⟨n', among', ih enough' inner⟩)

theorem Sequenced.mem_rows {k : Nat} (some_ : 0 < k)
    (enough : ∀ n ∈ (t.childNodes 0).filter t.isItem, t.Enough k n) {r : Outline.Row} :
    r ∈ ((t.childNodes 0).filter t.isItem).flatMap (t.outlineRows k 0) ↔ t.Outlined r.depth r.node := by
  constructor
  · intro mem
    obtain ⟨n, among, own⟩ := List.mem_flatMap.mp mem
    obtain ⟨child, isItem⟩ := List.mem_filter.mp among
    exact (Outlined.top child isItem).rows r own
  · obtain ⟨depth, n⟩ := r
    intro reached
    -- What is reached a level higher has a row, and so has what is right inside it.
    induction depth generalizing n with
    | zero =>
        rcases outlined_cases reached with ⟨-, among⟩ | ⟨_, _, succ, -⟩
        · obtain ⟨k, rfl⟩ := Nat.exists_eq_succ_of_ne_zero (Nat.ne_of_gt some_)
          exact List.mem_flatMap.mpr ⟨n, among, List.mem_cons_self⟩
        · cases succ
    | succ depth ih =>
        rcases outlined_cases reached with ⟨zero, -⟩ | ⟨_, n', succ, outer, among⟩
        · cases zero
        · cases succ
          obtain ⟨first, isFirst, own⟩ := List.mem_flatMap.mp (ih n' outer)
          exact List.mem_flatMap.mpr ⟨first, isFirst, h.rows_closed (enough first isFirst) own among⟩

end Sequence

end SyntaxTree

end LosslessTree
