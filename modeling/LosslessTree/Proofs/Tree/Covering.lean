import LosslessTree.Proofs.Tree.Acceptance
import LosslessTree.Proofs.Tree.Numbering
import LosslessTree.Tree.Search

set_option autoImplicit false

namespace LosslessTree

theorem Piece.layout_hasByte (parent offset : Nat) (pieces : List Piece) {o : Nat} (first : offset ≤ o)
    (last : o < offset + Piece.lengthOf pieces) :
    ∃ d ∈ Piece.layout parent offset pieces, d.span.HasByte o := by
  induction pieces generalizing offset with
  | nil =>
      simp only [lengthOf, total_nil] at last
      omega
  | cons piece pieces ih =>
      simp only [lengthOf, total_cons] at last ih
      by_cases own : o < offset + piece.length
      · exact ⟨_, List.mem_cons_self, first, own⟩
      · obtain ⟨d, mem, holds⟩ := ih (offset + piece.length) (by omega) (by omega)
        exact ⟨d, List.mem_cons_of_mem _ mem, holds⟩

theorem Leaf.layout_hasByte (parent offset : Nat) (l : Leaf) {o : Nat} (first : offset ≤ o)
    (last : o < offset + l.byteLength) : ∃ d ∈ l.layout parent offset, d.span.HasByte o := by
  simp only [byteLength] at last
  simp only [layout, List.mem_append, List.mem_cons]
  by_cases before : o < offset + Piece.lengthOf l.leading
  · obtain ⟨d, mem, holds⟩ := Piece.layout_hasByte parent offset l.leading first before
    exact ⟨d, .inl mem, holds⟩
  by_cases own : o < offset + Piece.lengthOf l.leading + l.length
  · exact ⟨_, .inr (.inl rfl), Nat.not_lt.mp before, own⟩
  · obtain ⟨d, mem, holds⟩ := Piece.layout_hasByte parent
      (offset + Piece.lengthOf l.leading + l.length) l.trailing (o := o) (by omega) (by omega)
    exact ⟨d, .inr (.inr mem), holds⟩

theorem Forest.layout_hasByte (parent : Nat) (p : Place) (f : Forest) {o : Nat} (first : p.offset ≤ o)
    (last : o < p.offset + f.byteLength) : ∃ d ∈ (f.layout parent p).tokens, d.span.HasByte o := by
  induction f generalizing parent p with
  | nil =>
      simp only [byteLength] at last
      omega
  | leaf l rest ih =>
      simp only [byteLength] at last
      simp only [layout, List.mem_append]
      by_cases own : o < p.offset + l.byteLength
      · obtain ⟨d, mem, holds⟩ := Leaf.layout_hasByte parent p.offset l first own
        exact ⟨d, .inl mem, holds⟩
      · obtain ⟨d, mem, holds⟩ := ih parent (p.afterLeaf l)
          (by simp only [Place.afterLeaf]; omega) (by simp only [Place.afterLeaf]; omega)
        exact ⟨d, .inr mem, holds⟩
  | node k inner rest hi hr =>
      simp only [byteLength] at last
      simp only [layout, List.mem_append]
      by_cases within : o < p.offset + inner.byteLength
      · obtain ⟨d, mem, holds⟩ := hi p.node p.inside first within
        exact ⟨d, .inl mem, holds⟩
      · obtain ⟨d, mem, holds⟩ := hr parent (p.inside.after inner)
          (by simp only [Place.after, Place.inside]; omega)
          (by simp only [Place.after, Place.inside]; omega)
        exact ⟨d, .inr mem, holds⟩

theorem Span.hasByte_start {outer inner : Span} (covers : outer.contains inner = true)
    (inside : inner.start < outer.stop) : outer.HasByte inner.start :=
  ⟨((contains_iff _ _).mp covers).1, inside⟩

namespace SyntaxTree

def bareSpan (t : SyntaxTree) : Child → Span
  | .node n => t.span n
  | .token i => t.tokenSpan i

def below (t : SyntaxTree) : Child → List Child
  | .node n => (t.descendants n).map .node ++ (t.tokensOf n).map .token
  | .token _ => []

/-- The element is the node or one below it. It covers the span, and nothing below it does. -/
structure Smallest (t : SyntaxTree) (n : Nat) (s : Span) (e : Child) : Prop where
  among : e = .node n ∨ e ∈ t.below (.node n)
  covers : (t.bareSpan e).contains s = true
  least : ∀ e' ∈ t.below e, (t.bareSpan e').contains s = false

/-- What the search from a node ends with, by the token with the first byte of the span: the token, or
the first node on the way out from it that covers the span. -/
inductive Found (t : SyntaxTree) (n : Nat) (s : Span) (i : Nat) : Child → Prop where
  | token (fits : (t.tokenSpan i).contains s = true) : t.Found n s i (.token i)
  | node {m : Nat} {inside : List Nat} (past : (t.tokenSpan i).stop < s.stop)
      (among : m = n ∨ m ∈ t.descendants n) (covers : (t.span m).contains s = true)
      (way : t.ancestors (t.token i).parent = inside ++ t.ancestors m)
      (short : ∀ q ∈ inside, (t.span q).contains s = false) : t.Found n s i (.node m)

variable {t : SyntaxTree}

theorem le_of_mem_ancestors {n m : Nat} (mem : m ∈ t.ancestors n) : m ≤ n := by
  induction n using Nat.strong_induction_on with
  | _ n ih =>
      rw [ancestors] at mem
      rcases List.mem_cons.mp mem with rfl | mem
      · exact Nat.le_refl _
      split at mem
      · split at mem
        · next outer => exact Nat.le_of_lt (Nat.lt_of_le_of_lt (ih _ outer mem) outer)
        · cases mem
      · cases mem

theorem ancestors_of_split {n m : Nat} {inside outer : List Nat}
    (way : t.ancestors n = inside ++ m :: outer) : t.ancestors m = m :: outer := by
  induction inside generalizing n with
  | nil =>
      obtain ⟨outer', chain⟩ := ancestors_cons t n
      have same : n :: outer' = m :: outer := by rw [← chain, way, List.nil_append]
      obtain ⟨rfl, -⟩ := List.cons.inj same
      exact way
  | cons first inside ih =>
      rw [ancestors, List.cons_append, List.cons.injEq] at way
      obtain ⟨-, way⟩ := way
      split at way
      · split at way
        · exact ih way
        · simp at way
      · simp at way

section Sites

variable {around : Option Nat} {p : Place} {k : Kind} {inner : Forest} (site : t.Site around p k inner)
include site

theorem Site.exists_token {o : Nat} (byte : (t.span p.node).HasByte o) :
    ∃ i ∈ t.tokensOf p.node, (t.tokenSpan i).HasByte o := by
  rw [site.span] at byte
  obtain ⟨d, mem, holds⟩ := Forest.layout_hasByte p.node p.inside inner byte.1 byte.2
  rw [← site.within.tokens_eq, List.mem_map] at mem
  obtain ⟨i, own, rfl⟩ := mem
  exact ⟨i, site.tokensOf ▸ own, holds⟩

theorem Site.contains_token {i : Nat} (mem : i ∈ t.tokensOf p.node) :
    (t.span p.node).contains (t.tokenSpan i) = true := site.span_contains mem mem

theorem Site.tokensAt_end {o : Nat} (past : (t.span p.node).stop ≤ o) :
    (t.tokensAt p.node o).right? = none := by
  have none : (t.tokensOf p.node).find? (fun j => o < (t.tokenSpan j).stop) = none := by
    rw [List.find?_eq_none]
    intro j mem
    have inside := (Span.contains_iff _ _).mp (site.contains_token mem)
    simpa using Nat.le_trans inside.2 past
  simp only [tokensAt, none]
  rfl

-- The tokens that end behind an offset stand behind those that do not, so they can be sought by
-- halving.
theorem Site.tokens_partitioned (o : Nat) :
    ∃ before behind, t.tokensOf p.node = before ++ behind ∧
      (∀ i ∈ before, (t.tokenSpan i).stop ≤ o) ∧ ∀ i ∈ behind, o < (t.tokenSpan i).stop := by
  have order : (t.tokensOf p.node).Pairwise fun i j => (t.tokenSpan i).stop ≤ (t.tokenSpan j).start := by
    rw [site.tokensOf]
    exact site.within.ordered
  have forward : ∀ i ∈ t.tokensOf p.node, (t.tokenSpan i).start ≤ (t.tokenSpan i).stop := by
    intro i mem
    rw [site.tokensOf] at mem
    exact (site.within.token_within mem).2.2
  generalize t.tokensOf p.node = tokens at order forward
  induction tokens with
  | nil => exact ⟨[], [], rfl, by simp, by simp⟩
  | cons i tokens ih =>
      rw [List.pairwise_cons] at order
      obtain ⟨before, behind, split, ended, later⟩ :=
        ih order.2 fun j mem => forward j (List.mem_cons_of_mem _ mem)
      by_cases past : (t.tokenSpan i).stop ≤ o
      · refine ⟨i :: before, behind, by rw [split]; rfl, ?_, later⟩
        simpa [past] using ended
      · refine ⟨[], i :: tokens, rfl, by simp, fun j mem => ?_⟩
        rcases List.mem_cons.mp mem with rfl | mem
        · exact Nat.not_le.mp past
        · have starts := order.1 j mem
          have ends := forward j (List.mem_cons_of_mem _ mem)
          omega

theorem Site.exists_found {s : Span} (covers : (t.span p.node).contains s = true)
    (inside : s.start < (t.span p.node).stop) :
    ∃ i ∈ t.tokensOf p.node, (t.tokenSpan i).HasByte s.start ∧
      ∃ e, t.innermost p.node s = .ok e ∧ t.Found p.node s i e := by
  obtain ⟨i, own, holds⟩ := site.exists_token (Span.hasByte_start covers inside)
  refine ⟨i, own, holds, ?_⟩
  by_cases fits : (t.tokenSpan i).contains s = true
  · exact ⟨.token i, by simp [innermost, covers, site.tokensAt_eq own holds, fits], .token fits⟩
  have past : (t.tokenSpan i).stop < s.stop := by
    rw [Span.contains_iff] at fits
    have := holds.1
    omega
  -- The way out from the token leads through the node, which covers the span.
  obtain ⟨inside, way, deeper⟩ := site.ancestors_below (site.token_parent own)
  obtain ⟨outer, here⟩ := ancestors_cons t p.node
  -- That the node is where the climb stops says nothing more, then.
  have same : (fun m => m == p.node || (t.span m).contains s) = fun m => (t.span m).contains s := by
    funext m
    by_cases top : m = p.node
    · simp [top, covers]
    · simp [top]
  have climbed : t.innermost p.node s = .ok (.node
      (((t.ancestors (t.token i).parent).find? fun m => (t.span m).contains s).getD p.node)) := by
    simp only [innermost, if_pos covers, site.tokensAt_eq own holds, if_neg fits, same]
  rw [climbed, way, here, List.find?_append, List.find?_cons, covers]
  cases found : inside.find? fun m => (t.span m).contains s with
  | none =>
      have short := List.find?_eq_none.mp found
      exact ⟨.node p.node, rfl, .node past (.inl rfl) covers way (by simpa using short)⟩
  | some m =>
      obtain ⟨covers', front, behind, split, short⟩ := List.find?_eq_some_iff_append.mp found
      have among := deeper m (List.mem_of_find?_eq_some found)
      rw [split, List.append_assoc] at way
      refine ⟨.node m, rfl, .node past (.inr among) covers' ?_ (by simpa using short)⟩
      rw [way, ancestors_of_split way]
      rfl

end Sites

section Search

variable {k : Kind} {f : Forest} (root : t.Rooted k f)
include root

theorem Rooted.tokensOf_root {n : Nat} (lies : n < 1 + f.nodeCount) : t.tokensOf n ⊆ t.tokensOf 0 := by
  obtain ⟨around, p, k', inner, rfl, site, -⟩ := root.exists_site lies
  exact root.tokensOf_subset site

theorem Rooted.exists_found {n : Nat} {s : Span} (lies : n < 1 + f.nodeCount)
    (covers : (t.span n).contains s = true) (inside : s.start < (t.span n).stop) :
    ∃ i ∈ t.tokensOf n, (t.tokenSpan i).HasByte s.start ∧
      ∃ e, t.innermost n s = .ok e ∧ t.Found n s i e := by
  obtain ⟨around, p, k', inner, rfl, site, -⟩ := root.exists_site lies
  exact site.exists_found covers inside

theorem Rooted.mem_ancestors_of_hasByte {n i o : Nat} (lies : n < 1 + f.nodeCount) (there : i ∈ t.tokensOf 0)
    (token : (t.tokenSpan i).HasByte o) (node : (t.span n).HasByte o) :
    n ∈ t.ancestors (t.token i).parent := by
  have own : i ∈ t.tokensOf n := by
    obtain ⟨around, p, k', inner, rfl, site, -⟩ := root.exists_site lies
    -- The node has a token with the byte, and there is no other.
    obtain ⟨j, own, holds⟩ := site.exists_token node
    rwa [root.eq_of_hasByte there (root.tokensOf_subset site own) token holds]
  exact (root.mem_tokensOf lies (root.mem_tokensOf_zero.mp there)).mp own

theorem Rooted.smallest {n i : Nat} {s : Span} {e : Child} (lies : n < 1 + f.nodeCount)
    (own : i ∈ t.tokensOf n) (holds : (t.tokenSpan i).HasByte s.start) (found : t.Found n s i e) :
    t.Smallest n s e := by
  have there := root.tokensOf_root lies own
  cases found with
  | token fits =>
      constructor
      case among => exact .inr (List.mem_append_right _ (List.mem_map_of_mem own))
      case covers => exact fits
      case least => simp [below]
  | @node m inside past among covers way short =>
      have lies' := root.lt_of_among lies among
      -- The span has the first byte and ends behind the token with that byte.
      have byte {outer : Span} (covers : outer.contains s = true) : outer.HasByte s.start := by
        have stops := (Span.contains_iff _ _).mp covers
        exact Span.hasByte_start covers (by have := holds.2; omega)
      constructor
      case among =>
        rcases among with rfl | deeper
        · exact .inl rfl
        · exact .inr (List.mem_append_left _ (List.mem_map_of_mem deeper))
      case covers => exact covers
      case least =>
        intro e' mem
        rw [Bool.eq_false_iff]
        intro covers'
        rcases List.mem_append.mp mem with node | token
        · obtain ⟨q, deeper, rfl⟩ := List.mem_map.mp node
          -- A node below that covers the span is around the token, so it was passed on the way out.
          have above := root.mem_ancestors_of_hasByte (root.lt_of_among lies' (.inr deeper)) there holds
            (byte covers')
          rw [way] at above
          rcases List.mem_append.mp above with passed | outside
          · exact absurd covers' (by simp [bareSpan, short q passed])
          · have upper := le_of_mem_ancestors outside
            have lower := (List.mem_range'_1.mp deeper).1
            omega
        · obtain ⟨j, inner, rfl⟩ := List.mem_map.mp token
          -- A token below that covers the span is the one that is too short for it.
          have same := root.eq_of_hasByte there (root.tokensOf_root lies' inner) holds (byte covers')
          rw [← same, bareSpan, Span.contains_iff] at covers'
          omega

theorem Rooted.contains_token {i : Nat} (there : i ∈ t.tokensOf 0) :
    (t.span (t.token i).parent).contains (t.tokenSpan i) = true := by
  have lies := root.parent_lt there
  have own := (root.mem_tokensOf lies (root.mem_tokensOf_zero.mp there)).mpr (mem_ancestors_self t _)
  obtain ⟨around, p, k', inner, at_, site, -⟩ := root.exists_site lies
  rw [← at_] at own ⊢
  exact site.contains_token own

theorem Rooted.contains_of_ancestors {n m : Nat} {s : Span} (lies : m < 1 + f.nodeCount)
    (above : n ∈ t.ancestors m) (bytes : s.start < s.stop) (covers : (t.span m).contains s = true) :
    (t.span n).contains s = true := by
  have shared := root.tokensOf_ancestors lies above
  have lies' := Nat.lt_of_le_of_lt (le_of_mem_ancestors above) lies
  obtain ⟨around, p, k', inner, rfl, site, -⟩ := root.exists_site lies
  obtain ⟨around', q, k'', inner', rfl, site', -⟩ := root.exists_site lies'
  -- Both nodes have the token with the first byte of the span and that with the last one.
  have edges := (Span.contains_iff _ _).mp covers
  obtain ⟨i, own, first⟩ := site.exists_token (o := s.start) ⟨edges.1, by omega⟩
  obtain ⟨j, own', last⟩ := site.exists_token (o := s.stop - 1) ⟨by omega, by omega⟩
  have start := (Span.contains_iff _ _).mp (site'.contains_token (shared own))
  have stop := (Span.contains_iff _ _).mp (site'.contains_token (shared own'))
  rw [Span.contains_iff]
  unfold Span.HasByte at first last
  omega

theorem Rooted.exists_innermostNode {n : Nat} {s : Span} (lies : n < 1 + f.nodeCount)
    (bytes : s.start < s.stop) (covers : (t.span n).contains s = true) :
    ∃ m < 1 + f.nodeCount, t.innermostNode n s = .ok m ∧
      ∀ q < 1 + f.nodeCount, q ∈ t.ancestors m ↔ (t.span q).contains s = true := by
  have byte {outer : Span} (covers : outer.contains s = true) : outer.HasByte s.start := by
    have stops := (Span.contains_iff _ _).mp covers
    exact Span.hasByte_start covers (by omega)
  obtain ⟨i, own, holds, e, ends, found⟩ := root.exists_found lies covers (byte covers).2
  have there := root.tokensOf_root lies own
  cases found with
  | token fits =>
      -- The nodes around the token with the first byte are all that can cover the bytes.
      have inside := root.parent_lt there
      have enclosed := root.contains_token there
      have covers' : (t.span (t.token i).parent).contains s = true := by
        rw [Span.contains_iff] at fits enclosed ⊢
        omega
      refine ⟨(t.token i).parent, inside, by rw [innermostNode, ends]; rfl, fun q lies' => ?_⟩
      constructor
      · exact fun above => root.contains_of_ancestors inside above bytes covers'
      · exact fun wide => root.mem_ancestors_of_hasByte lies' there holds (byte wide)
  | @node m inside past among covers' way short =>
      have lies' := root.lt_of_among lies among
      refine ⟨m, lies', by rw [innermostNode, ends]; rfl, fun q lies'' => ?_⟩
      constructor
      · exact fun above => root.contains_of_ancestors lies' above bytes covers'
      · intro wide
        have above := root.mem_ancestors_of_hasByte lies'' there holds (byte wide)
        rw [way] at above
        rcases List.mem_append.mp above with passed | outside
        · exact absurd wide (by simp [short q passed])
        · exact outside

end Search

/-- In a built tree the search for a span inside a node ends with the node if the span is behind its
bytes, else with an element that covers the span as nothing below it does. There is no answer to a span
that is not inside the node. -/
theorem innermost_smallest {text : Text} {events : List TreeEvent}
    (built : Assembly.run text events = .ok t) {n : Nat} (lies : n < t.nodes.size) (s : Span) :
    ((t.span n).contains s = true → s.start = (t.span n).stop → t.innermost n s = .ok (.node n)) ∧
      ((t.span n).contains s = true → s.start < (t.span n).stop →
        ∃ e, t.innermost n s = .ok e ∧ t.Smallest n s e) ∧
      ((t.span n).contains s = false →
        ∃ error, t.innermost n s = .error error ∧ error.message = "range is not inside the node") := by
  obtain ⟨k, f, rfl, rfl, -, -, -, -⟩ := Assembly.root_of_run built
  have root := ofRoot_rooted text k f
  rw [ofRoot_nodes_size] at lies
  refine ⟨fun covers stop => ?_, fun covers inside => ?_, fun outside => ?_⟩
  · obtain ⟨around, p, k', inner, rfl, site, -⟩ := root.exists_site lies
    simp only [innermost, if_pos covers, site.tokensAt_end (Nat.le_of_eq stop.symm)]
  · obtain ⟨i, own, holds, e, ends, found⟩ := root.exists_found lies covers inside
    exact ⟨e, ends, root.smallest lies own holds found⟩
  · exact ⟨.outside, by simp [innermost, outside], rfl⟩

-- A token with spaces around it in a node, and behind it a node without tokens.
theorem innermost_smallest_spaced :
    let text := [' ', 'a', ' ', ';']
    let events := [.openNode .exprStmt, .openNode .path,
      .token ⟨[⟨.whitespace, 1⟩], .ident, 1, [⟨.whitespace, 1⟩]⟩, .closeNode, .openNode .error, .closeNode,
      .token ⟨[], .semicolon, 1, []⟩, .closeNode]
    let t := SyntaxTree.ofRoot text .exprStmt
      (.node .path (.leaf ⟨[⟨.whitespace, 1⟩], .ident, 1, [⟨.whitespace, 1⟩]⟩ .nil)
        (.node .error .nil (.leaf ⟨[], .semicolon, 1, []⟩ .nil)))
    Assembly.run text events = .ok t ∧
      (t.innermost 0 ⟨1, 3⟩ = .ok (.node 1) ∧ t.Smallest 0 ⟨1, 3⟩ (.node 1)) ∧
      (t.innermost 1 ⟨1, 2⟩ = .ok (.token 1) ∧ t.Smallest 1 ⟨1, 2⟩ (.token 1)) ∧
      t.innermost 2 ⟨3, 3⟩ = .ok (.node 2) ∧
      ∃ error, t.innermost 1 ⟨2, 4⟩ = .error error ∧ error.message = "range is not inside the node" := by
  intro text events t
  have built : Assembly.run text events = .ok t := rfl
  have node : t.innermost 0 ⟨1, 3⟩ = .ok (.node 1) := by decide +kernel
  have token : t.innermost 1 ⟨1, 2⟩ = .ok (.token 1) := by decide +kernel
  obtain ⟨-, found, -⟩ := innermost_smallest built (n := 0) (by decide) ⟨1, 3⟩
  obtain ⟨-, found', -⟩ := innermost_smallest built (n := 1) (by decide) ⟨1, 2⟩
  obtain ⟨at_, -, -⟩ := innermost_smallest built (n := 2) (by decide) ⟨3, 3⟩
  obtain ⟨-, -, outside⟩ := innermost_smallest built (n := 1) (by decide) ⟨2, 4⟩
  obtain ⟨e, ends, smallest⟩ := found (by decide) (by decide)
  obtain ⟨e', ends', smallest'⟩ := found' (by decide) (by decide)
  cases node.symm.trans ends
  cases token.symm.trans ends'
  exact ⟨built, ⟨node, smallest⟩, ⟨token, smallest'⟩, at_ (by decide) (by decide), outside (by decide)⟩

end SyntaxTree

end LosslessTree
