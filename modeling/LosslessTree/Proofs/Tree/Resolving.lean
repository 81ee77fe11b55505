import LosslessTree.Proofs.Tree.Trimming
import LosslessTree.Tree.Address

set_option autoImplicit false

namespace LosslessTree

theorem Piece.layout_parent {parent offset : Nat} {pieces : List Piece} :
    ∀ d ∈ Piece.layout parent offset pieces, d.parent = parent := by
  induction pieces generalizing offset with
  | nil => simp [layout]
  | cons piece pieces ih =>
      intro d mem
      rcases List.mem_cons.mp mem with rfl | mem
      · rfl
      · exact ih d mem

theorem Leaf.layout_parent {parent offset : Nat} {l : Leaf} :
    ∀ d ∈ l.layout parent offset, d.parent = parent := by
  intro d mem
  rcases List.mem_append.mp mem with before | mem
  · exact Piece.layout_parent d before
  rcases List.mem_cons.mp mem with rfl | behind
  · rfl
  · exact Piece.layout_parent d behind

def Span.HasByte (s : Span) (offset : Nat) : Prop := s.start ≤ offset ∧ offset < s.stop

def TokenData.Before (d d' : TokenData) : Prop := d.span.stop ≤ d'.span.start

theorem Piece.layout_ordered {parent offset : Nat} {pieces : List Piece} :
    (Piece.layout parent offset pieces).Pairwise TokenData.Before := by
  induction pieces generalizing offset with
  | nil => exact .nil
  | cons piece pieces ih =>
      refine .cons (fun d mem => ?_) ih
      exact (Piece.layout_within d mem).1

theorem Leaf.layout_ordered {parent offset : Nat} {l : Leaf} :
    (l.layout parent offset).Pairwise TokenData.Before := by
  refine List.pairwise_append.mpr ⟨Piece.layout_ordered, .cons ?_ Piece.layout_ordered, ?_⟩
  · exact fun d mem => (Piece.layout_within d mem).1
  · intro d before d' mem
    have stops := (Piece.layout_within d before).2.1
    rcases List.mem_cons.mp mem with rfl | behind
    · exact stops
    · have starts := (Piece.layout_within d' behind).1
      simp only [TokenData.Before]
      omega

theorem Forest.layout_ordered {parent : Nat} {p : Place} {f : Forest} :
    (f.layout parent p).tokens.Pairwise TokenData.Before := by
  induction f generalizing parent p with
  | nil => exact .nil
  | leaf l rest ih =>
      refine List.pairwise_append.mpr ⟨Leaf.layout_ordered, ih, fun d mem d' mem' => ?_⟩
      exact Nat.le_trans (Leaf.layout_within d mem).2.1 (Forest.layout_within d' mem').1
  | node k inner rest hi hr =>
      refine List.pairwise_append.mpr ⟨hi, hr, fun d mem d' mem' => ?_⟩
      exact Nat.le_trans (Forest.layout_within d mem).2.1 (Forest.layout_within d' mem').1

namespace SyntaxTree

variable {t : SyntaxTree} {parent : Nat} {p : Place} {f : Forest}

theorem Embeds.ordered (h : t.Embeds parent p f) :
    (List.range' p.token f.tokenCount).Pairwise fun i j =>
      (t.tokenSpan i).stop ≤ (t.tokenSpan j).start := by
  have order : (f.layout parent p).tokens.Pairwise TokenData.Before := Forest.layout_ordered
  rw [← h.tokens_eq] at order
  exact List.pairwise_map.mp order

theorem ancestors_cons (t : SyntaxTree) (n : Nat) : ∃ outer, t.ancestors n = n :: outer := by
  rw [ancestors]
  exact ⟨_, rfl⟩

theorem mem_ancestors_self (t : SyntaxTree) (n : Nat) : n ∈ t.ancestors n := by
  obtain ⟨outer, here⟩ := ancestors_cons t n
  rw [here]
  exact List.mem_cons_self

theorem ancestors_of_parent {n : Nat} (around : t.parent? n = some parent) (outer : parent < n) :
    t.ancestors n = n :: t.ancestors parent := by
  rw [ancestors]
  simp [around, outer]

theorem Embeds.ancestors_node (h : t.Embeds parent p f) (outer : parent < p.node) {n : Nat}
    (first : p.node ≤ n) (last : n < p.node + f.nodeCount) :
    ∃ inside, t.ancestors n = inside ++ t.ancestors parent ∧
      ∀ m ∈ inside, p.node ≤ m ∧ m < p.node + f.nodeCount := by
  induction f generalizing parent p with
  | nil => exact absurd last (by simpa [Forest.nodeCount] using first)
  | leaf l rest ih => exact ih (p := p.afterLeaf l) h.leaf.2 outer first last
  | node k inner rest hi hr =>
      obtain ⟨data, within, behind⟩ := h.node
      simp only [Forest.nodeCount] at last ⊢
      have around : t.parent? p.node = some parent := by
        rw [parent?, data]
        rfl
      have here := ancestors_of_parent around outer
      by_cases at_ : n = p.node
      · subst at_
        refine ⟨[p.node], here, ?_⟩
        simp only [List.mem_singleton, forall_eq]
        omega
      by_cases below : n < p.node + 1 + inner.nodeCount
      · obtain ⟨inside, chain, lies⟩ := hi within (Nat.lt_succ_self _)
          (by change p.node + 1 ≤ n; omega) below
        refine ⟨inside ++ [p.node], by rw [chain, here, List.append_assoc]; rfl, ?_⟩
        intro m mem
        rcases List.mem_append.mp mem with mem | mem
        · have := lies m mem
          simp only [Place.inside] at this
          omega
        · rw [List.mem_singleton.mp mem]
          omega
      · obtain ⟨inside, chain, lies⟩ := hr behind (by simp only [Place.after, Place.inside]; omega)
          (by simp only [Place.after, Place.inside]; omega)
          (by simp only [Place.after, Place.inside]; omega)
        refine ⟨inside, chain, fun m mem => ?_⟩
        have := lies m mem
        simp only [Place.after, Place.inside] at this
        omega

theorem Embeds.token_parent (h : t.Embeds parent p f) {i : Nat}
    (mem : i ∈ List.range' p.token f.tokenCount) :
    (t.token i).parent = parent ∨
      p.node ≤ (t.token i).parent ∧ (t.token i).parent < p.node + f.nodeCount := by
  have inside : t.token i ∈ (f.layout parent p).tokens := by
    rw [← h.tokens_eq]
    exact List.mem_map_of_mem mem
  clear h mem
  generalize t.token i = d at inside
  induction f generalizing parent p with
  | nil => cases inside
  | leaf l rest ih =>
      rcases List.mem_append.mp inside with own | behind
      · exact .inl (Leaf.layout_parent d own)
      · exact ih (p := p.afterLeaf l) behind
  | node k inner rest hi hr =>
      simp only [Forest.nodeCount]
      rcases List.mem_append.mp inside with below | behind
      · rcases hi below with own | lies
        · omega
        · simp only [Place.inside] at lies
          omega
      · rcases hr behind with own | lies
        · exact .inl own
        · simp only [Place.after, Place.inside] at lies
          omega

theorem trimmedSpan_of_ends {n first last : Nat}
    (head : (t.significantTokens n).head? = some first)
    (final : (t.significantTokens n).getLast? = some last) :
    t.trimmedSpan n = ⟨(t.tokenSpan first).start, (t.tokenSpan last).stop⟩ := by
  simp [trimmedSpan, head, final]

section Sites

variable {around : Option Nat} {k : Kind} {inner : Forest} (site : t.Site around p k inner)
include site

theorem Site.descendants : t.descendants p.node = List.range' (p.node + 1) inner.nodeCount := by
  rw [SyntaxTree.descendants, site.data]
  simp [NodeData.around]

theorem Site.mem_descendants {n : Nat} :
    n ∈ t.descendants p.node ↔ p.node + 1 ≤ n ∧ n < p.node + 1 + inner.nodeCount := by
  rw [site.descendants, List.mem_range'_1]

theorem Site.ancestors_below {n : Nat} (below : n = p.node ∨ n ∈ t.descendants p.node) :
    ∃ inside, t.ancestors n = inside ++ t.ancestors p.node ∧
      ∀ m ∈ inside, m ∈ t.descendants p.node := by
  rcases below with rfl | below
  · exact ⟨[], rfl, by simp⟩
  · obtain ⟨first, last⟩ := site.mem_descendants.mp below
    obtain ⟨inside, chain, lies⟩ := site.within.ancestors_node (Nat.lt_succ_self _) first last
    exact ⟨inside, chain, fun m mem => site.mem_descendants.mpr (lies m mem)⟩

theorem Site.token_parent {i : Nat} (mem : i ∈ t.tokensOf p.node) :
    (t.token i).parent = p.node ∨ (t.token i).parent ∈ t.descendants p.node := by
  rw [site.tokensOf] at mem
  rcases site.within.token_parent mem with own | lies
  · exact .inl own
  · exact .inr (site.mem_descendants.mpr lies)

theorem Site.span_contains {i j : Nat} (first : i ∈ t.tokensOf p.node) (last : j ∈ t.tokensOf p.node) :
    (t.span p.node).contains ⟨(t.tokenSpan i).start, (t.tokenSpan j).stop⟩ = true := by
  rw [site.tokensOf] at first last
  rw [site.span, Span.contains_iff]
  exact ⟨(site.within.token_within first).1, (site.within.token_within last).2.1⟩

theorem Site.tokensAt_eq {i o : Nat} (mem : i ∈ t.tokensOf p.node) (holds : (t.tokenSpan i).HasByte o) :
    (t.tokensAt p.node o).right? = some i := by
  have order := site.within.ordered
  have first : (t.tokensOf p.node).find? (fun j => o < (t.tokenSpan j).stop) = some i := by
    obtain ⟨before, after, split⟩ := List.append_of_mem mem
    rw [List.find?_eq_some_iff_append]
    refine ⟨by simpa using holds.2, before, after, split, fun j inside => ?_⟩
    change (List.range' p.token inner.tokenCount).Pairwise _ at order
    rw [← site.tokensOf, split] at order
    have ends := (List.pairwise_append.mp order).2.2 j inside i List.mem_cons_self
    simpa using Nat.le_trans ends holds.1
  have starts : ¬ o < (t.tokenSpan i).start := Nat.not_lt.mpr holds.1
  simp only [tokensAt, first, if_neg starts]
  split <;> rfl

end Sites

structure Rooted (t : SyntaxTree) (k : Kind) (f : Forest) : Prop where
  site : t.Site none ⟨0, 0, 0⟩ k f
  size : t.tokens.size = f.tokenCount

theorem ofRoot_rooted (text : Text) (k : Kind) (f : Forest) : (ofRoot text k f).Rooted k f :=
  ⟨ofRoot_site text k f, ofRoot_tokens_size text k f⟩

section Search

variable {rootKind : Kind} {all : Forest} (root : t.Rooted rootKind all)
include root

theorem Rooted.mem_tokensOf_zero {i : Nat} : i ∈ t.tokensOf 0 ↔ i < all.tokenCount := by
  have whole : t.tokensOf 0 = List.range' 0 all.tokenCount := root.site.tokensOf
  rw [whole, List.mem_range'_1]
  omega

variable {around : Option Nat} {k : Kind} {inner : Forest} (site : t.Site around p k inner)
include site

theorem Rooted.tokensOf_subset : t.tokensOf p.node ⊆ t.tokensOf 0 := by
  intro i mem
  have inside := site.within.tokens.length_le
  rw [Forest.layout_tokens_length, List.length_drop, Array.length_toList, root.size] at inside
  rw [site.tokensOf, List.mem_range'_1] at mem
  rw [root.mem_tokensOf_zero]
  simp only [Place.inside] at inside
  omega

theorem Rooted.innermost_below {first last : Nat}
    (start : (t.significantTokens p.node).head? = some first)
    (stop : (t.significantTokens p.node).getLast? = some last)
    (solid : (t.tokenSpan first).start < (t.tokenSpan first).stop) :
    ∃ n, t.innermostNode 0 ⟨(t.tokenSpan first).start, (t.tokenSpan last).stop⟩ = .ok n ∧
      (n = p.node ∨ n ∈ t.descendants p.node) := by
  have own := (List.mem_filter.mp (List.mem_of_mem_head? start)).1
  have own' := (List.mem_filter.mp (List.mem_of_getLast? stop)).1
  have subset := root.tokensOf_subset site
  have covers : (t.span 0).contains ⟨(t.tokenSpan first).start, (t.tokenSpan last).stop⟩ = true :=
    root.site.span_contains (subset own) (subset own')
  have token := root.site.tokensAt_eq (subset own) ⟨Nat.le_refl _, solid⟩
  have below := site.token_parent own
  rw [innermostNode, innermost, if_pos covers, token]
  by_cases fits : (t.tokenSpan first).contains ⟨(t.tokenSpan first).start, (t.tokenSpan last).stop⟩ = true
  · simp only [fits, if_true]
    exact ⟨_, rfl, below⟩
  · simp only [fits]
    refine ⟨_, rfl, ?_⟩
    -- The node covers the span, so the way out is not followed past it.
    obtain ⟨inside, chain, lies⟩ := site.ancestors_below below
    obtain ⟨outer, here⟩ := t.ancestors_cons p.node
    rw [chain, here, List.find?_append, List.find?_cons_of_pos (by simp [site.span_contains own own'])]
    cases found : inside.find? fun m =>
        m == 0 || (t.span m).contains ⟨(t.tokenSpan first).start, (t.tokenSpan last).stop⟩ with
    | none => exact .inl rfl
    | some m => exact .inr (lies m (List.mem_of_find?_eq_some found))

-- The address of a node leads back to it, unless a node below has the same.
theorem Rooted.resolve_address {first : Nat}
    (start : (t.significantTokens p.node).head? = some first)
    (solid : (t.tokenSpan first).start < (t.tokenSpan first).stop)
    (apart : ∀ m ∈ t.descendants p.node, t.address m ≠ t.address p.node) :
    t.resolve 0 (t.address p.node) = .ok p.node := by
  have some_ := List.ne_nil_of_mem (List.mem_of_mem_head? start)
  have stop := List.getLast?_eq_some_getLast some_
  obtain ⟨n, innermost, below⟩ := root.innermost_below site start stop solid
  obtain ⟨inside, chain, lies⟩ := site.ancestors_below below
  have top : t.parent? 0 = none := by
    have data := root.site.data
    rw [parent?]
    exact congrArg NodeData.parent data
  have trimmed : (t.address p.node).span =
      ⟨(t.tokenSpan first).start, (t.tokenSpan ((t.significantTokens p.node).getLast some_)).stop⟩ := by
    simp [address, trimmedSpan, start, stop]
  obtain ⟨outer, here⟩ := t.ancestors_cons p.node
  have passed : inside.find? (fun m => t.address m == t.address p.node) = none := by
    rw [List.find?_eq_none]
    exact fun m mem => by simpa using apart m (lies m mem)
  have found : t.resolve? 0 (t.address p.node) = some p.node := by
    rw [resolve?, top, trimmed, innermost]
    simp [chain, List.find?_append, passed, here]
  rw [resolve, found]

end Search

theorem mem_significantTokens {n first last : Nat}
    (head : (t.significantTokens n).head? = some first)
    (final : (t.significantTokens n).getLast? = some last) {i : Nat} :
    i ∈ t.significantTokens n ↔ (first ≤ i ∧ i ≤ last) ∧ (t.tokenKind i).isTrivia = false := by
  have order : (t.significantTokens n).Pairwise (· < ·) :=
    List.Pairwise.filter _ List.pairwise_lt_range'
  have low := List.mem_of_mem_head? head
  have high := List.mem_of_getLast? final
  constructor
  · intro mem
    refine ⟨⟨?_, ?_⟩, by simpa using (List.mem_filter.mp mem).2⟩
    · obtain ⟨rest, split⟩ := List.head?_eq_some_iff.mp head
      rw [split] at mem order
      rcases List.mem_cons.mp mem with rfl | behind
      · exact Nat.le_refl _
      · exact Nat.le_of_lt ((List.pairwise_cons.mp order).1 i behind)
    · obtain ⟨front, split⟩ := List.getLast?_eq_some_iff.mp final
      rw [split] at mem order
      rcases List.mem_append.mp mem with before | here
      · exact Nat.le_of_lt ((List.pairwise_append.mp order).2.2 i before last (by simp))
      · exact Nat.le_of_eq (List.mem_singleton.mp here)
  · rintro ⟨⟨least, most⟩, own⟩
    have low := (List.mem_filter.mp low).1
    have high := (List.mem_filter.mp high).1
    rw [tokensOf, List.mem_range'_1] at low high
    refine List.mem_filter.mpr ⟨?_, by simpa using own⟩
    rw [tokensOf, List.mem_range'_1]
    omega

section Twins

variable {rootKind : Kind} {all : Forest} (root : t.Rooted rootKind all)
include root

theorem Rooted.stop_le_start {i j : Nat} (less : i < j) (there : j ∈ t.tokensOf 0) :
    (t.tokenSpan i).stop ≤ (t.tokenSpan j).start := by
  have order := List.pairwise_iff_getElem.mp root.site.within.ordered
  rw [root.mem_tokensOf_zero] at there
  have bound : j < (List.range' (Place.inside ⟨0, 0, 0⟩).token all.tokenCount).length := by
    rw [List.length_range']
    omega
  simpa [Place.inside] using order i j (Nat.lt_trans less bound) bound less

theorem Rooted.eq_of_hasByte {i j o : Nat} (here : i ∈ t.tokensOf 0) (there : j ∈ t.tokensOf 0)
    (first : (t.tokenSpan i).HasByte o) (second : (t.tokenSpan j).HasByte o) : i = j := by
  unfold Span.HasByte at first second
  rcases Nat.lt_trichotomy i j with less | same | more
  · have apart := root.stop_le_start less there
    omega
  · exact same
  · have apart := root.stop_le_start more here
    omega

theorem Rooted.token_eq {i j : Nat} (here : i ∈ t.tokensOf 0) (there : j ∈ t.tokensOf 0)
    (solid : (t.tokenSpan i).start < (t.tokenSpan i).stop)
    (solid' : (t.tokenSpan j).start < (t.tokenSpan j).stop)
    (same : (t.tokenSpan i).start = (t.tokenSpan j).start ∨
      (t.tokenSpan i).stop = (t.tokenSpan j).stop) : i = j := by
  rcases same with starts | stops
  · exact root.eq_of_hasByte here there ⟨Nat.le_refl _, solid⟩ ⟨Nat.le_of_eq starts.symm, by omega⟩
  · exact root.eq_of_hasByte (o := (t.tokenSpan i).stop - 1) here there ⟨by omega, by omega⟩
      ⟨by omega, by omega⟩

variable {around : Option Nat} {p : Place} {k : Kind} {inner : Forest}

theorem Rooted.trimmedSpan_solid (site : t.Site around p k inner)
    (solid : ∀ l ∈ inner.leaves, l.Solid) {first last : Nat}
    (head : (t.significantTokens p.node).head? = some first)
    (final : (t.significantTokens p.node).getLast? = some last) :
    (t.tokenSpan first).start < (t.tokenSpan last).stop := by
  have low := List.mem_of_mem_head? head
  have high := List.mem_of_getLast? final
  have own := site.significant_solid solid low
  have own' := site.significant_solid solid high
  rcases Nat.lt_or_eq_of_le ((mem_significantTokens head final).mp low).1.2 with less | rfl
  · have := root.stop_le_start less (root.tokensOf_subset site (List.mem_filter.mp high).1)
    omega
  · exact own

variable {around' : Option Nat} {p' : Place} {k' : Kind} {inner' : Forest}

theorem Rooted.significantTokens_eq (site : t.Site around p k inner)
    (site' : t.Site around' p' k' inner') (solid : ∀ l ∈ inner.leaves, l.Solid)
    (solid' : ∀ l ∈ inner'.leaves, l.Solid) (some_ : inner.leaves ≠ [])
    (same : t.trimmedSpan p.node = t.trimmedSpan p'.node) :
    t.significantTokens p.node = t.significantTokens p'.node := by
  have own : t.significantTokens p.node ≠ [] := by
    rw [← List.length_pos_iff, site.length_significantTokens solid]
    exact List.length_pos_iff.mpr some_
  have head := List.head?_eq_some_head own
  have final := List.getLast?_eq_some_getLast own
  have wide := root.trimmedSpan_solid site solid head final
  have spanned : t.trimmedSpan p.node = _ := trimmedSpan_of_ends head final
  rw [spanned] at same
  have own' : t.significantTokens p'.node ≠ [] := by
    intro none
    rw [trimmedSpan, none] at same
    obtain ⟨starts, stops⟩ := Span.mk.inj same
    omega
  have head' := List.head?_eq_some_head own'
  have final' := List.getLast?_eq_some_getLast own'
  rw [trimmedSpan_of_ends head' final', Span.mk.injEq] at same
  have inside {q : Place} {around : Option Nat} {k : Kind} {f : Forest} (site : t.Site around q k f)
      {i : Nat} (mem : i ∈ t.significantTokens q.node) : i ∈ t.tokensOf 0 :=
    root.tokensOf_subset site (List.mem_filter.mp mem).1
  have solidAt := fun i mem => site.significant_solid solid (i := i) mem
  have solidAt' := fun i mem => site'.significant_solid solid' (i := i) mem
  have firsts := root.token_eq (inside site (List.head_mem own)) (inside site' (List.head_mem own'))
    (solidAt _ (List.head_mem own)) (solidAt' _ (List.head_mem own')) (.inl same.1)
  have lasts := root.token_eq (inside site (List.getLast_mem own))
    (inside site' (List.getLast_mem own')) (solidAt _ (List.getLast_mem own))
    (solidAt' _ (List.getLast_mem own')) (.inr same.2)
  have order (n : Nat) : (t.significantTokens n).Pairwise (· < ·) :=
    List.Pairwise.filter _ List.pairwise_lt_range'
  refine (order p.node).eq_of_mem_iff (order p'.node) fun i => ?_
  rw [mem_significantTokens head final, mem_significantTokens head' final', firsts, lasts]

theorem Rooted.resolve (site : t.Site around p k inner) (solid : ∀ l ∈ inner.leaves, l.Solid)
    (some_ : inner.leaves ≠ [])
    (fewer : ∀ within, inner.HasNode k within → within.leaves.length < inner.leaves.length) :
    t.resolve 0 (t.address p.node) = .ok p.node := by
  have own : t.significantTokens p.node ≠ [] := by
    rw [← List.length_pos_iff, site.length_significantTokens solid]
    exact List.length_pos_iff.mpr some_
  refine root.resolve_address site (List.head?_eq_some_head own)
    (site.significant_solid solid (List.head_mem own)) fun m below same => ?_
  obtain ⟨first, last⟩ := site.mem_descendants.mp below
  obtain ⟨around', q, k', within, rfl, site', has⟩ := site.within.exists_site first last
  rw [address, address, site'.kind, site.kind, Address.mk.injEq] at same
  obtain ⟨rfl, bytes⟩ := same
  have solid' : ∀ l ∈ within.leaves, l.Solid := fun l mem => solid l (has.leaves_sublist.subset mem)
  have tokens := congrArg List.length
    (root.significantTokens_eq site site' solid solid' some_ bytes.symm)
  rw [site.length_significantTokens solid, site'.length_significantTokens solid'] at tokens
  exact absurd tokens (Nat.ne_of_gt (fewer within has))

end Twins

section Roots

variable {rootKind : Kind} {all : Forest}

theorem mem_tokensOf_of_tokensAt {n offset i : Nat}
    (touched : (t.tokensAt n offset).right? = some i) : i ∈ t.tokensOf n := by
  rw [tokensAt] at touched
  split at touched
  · cases touched
  · next j found =>
      have mem := List.mem_of_find?_eq_some found
      split at touched
      · cases touched
      · split at touched
        · cases touched
          exact mem
        · cases touched
          exact mem

variable (root : t.Rooted rootKind all)
include root

theorem Rooted.ancestors_zero : t.ancestors 0 = [0] := by
  have top : t.parent? 0 = none := congrArg NodeData.parent root.site.data
  rw [ancestors, top]

theorem Rooted.innermost_root {s : Span} (inside : (t.span 0).contains s = true) :
    ∃ n, t.innermostNode 0 s = .ok n ∧ (n = 0 ∨ n ∈ t.descendants 0) := by
  rw [innermostNode, innermost, if_pos inside]
  cases touched : (t.tokensAt 0 s.start).right? with
  | none => exact ⟨0, rfl, .inl rfl⟩
  | some i =>
      have below := root.site.token_parent (mem_tokensOf_of_tokensAt touched)
      by_cases fits : (t.tokenSpan i).contains s = true
      · simp only [fits, if_true]
        exact ⟨_, rfl, below⟩
      · simp only [fits]
        refine ⟨_, rfl, ?_⟩
        obtain ⟨within, chain, lies⟩ := root.site.ancestors_below below
        rw [root.ancestors_zero] at chain
        rw [chain]
        cases found : (within ++ [0]).find? fun m => m == 0 || (t.span m).contains s with
        | none => exact .inl rfl
        | some m =>
            rcases List.mem_append.mp (List.mem_of_find?_eq_some found) with mem | mem
            · exact .inr (lies m mem)
            · exact .inl (List.mem_singleton.mp mem)

theorem Rooted.trimmedSpan_inside : (t.span 0).contains (t.trimmedSpan 0) = true := by
  unfold trimmedSpan
  split
  · next first last isFirst isLast =>
      exact root.site.span_contains (List.mem_filter.mp (List.mem_of_mem_head? isFirst)).1
        (List.mem_filter.mp (List.mem_of_getLast? isLast)).1
  · have span := root.site.span
    rw [span, Span.contains_iff]
    simp [Span.empty]

theorem Rooted.resolve_root (apart : ∀ n ∈ t.descendants 0, t.kind n ≠ rootKind) :
    t.resolve? 0 (t.address 0) = some 0 := by
  obtain ⟨n, innermost, below⟩ := root.innermost_root root.trimmedSpan_inside
  obtain ⟨within, chain, lies⟩ := root.site.ancestors_below below
  have top : t.parent? 0 = none := congrArg NodeData.parent root.site.data
  have passed : within.find? (fun m => t.address m == t.address 0) = none := by
    rw [List.find?_eq_none]
    intro m mem same
    have kinds : t.kind m = t.kind 0 := congrArg Address.kind (beq_iff_eq.mp same)
    exact apart m (lies m mem) (kinds.trans root.site.kind)
  have found : (t.ancestors n).find? (fun m => t.address m == t.address 0) = some 0 := by
    rw [chain, List.find?_append, passed]
    simp [root.ancestors_zero]
  have reached : t.innermostNode 0 (t.address 0).span = .ok n := innermost
  simp only [resolve?, top, Option.isSome_none, Bool.false_eq_true, if_false, reached, found]

end Roots

theorem resolve_eq_ok {root n : Nat} {a : Address} (found : t.resolve root a = .ok n) :
    t.resolve? root a = some n := by
  rw [resolve] at found
  split at found
  · next found' =>
      cases found
      exact found'
  · cases found

theorem innermost_of_resolve {root n : Nat} {a : Address} (found : t.resolve? root a = some n) :
    ∃ m, t.innermostNode root a.span = .ok m ∧ n ∈ t.ancestors m := by
  rw [resolve?] at found
  split at found
  · cases found
  · split at found
    · cases found
    · next m ended => exact ⟨m, ended, List.mem_of_find?_eq_some found⟩

end SyntaxTree

end LosslessTree
