import LosslessTree.Proofs.Check.Duplicates
import LosslessTree.Proofs.Tree.Surroundings

set_option autoImplicit false

namespace LosslessTree.SyntaxTree

structure Inside (t : SyntaxTree) (n m : Nat) : Prop where
  below : n < m
  own : m < (t.node m).subtreeStop
  nodes : (t.node m).subtreeStop ≤ (t.node n).subtreeStop
  first : (t.node n).tokenStart ≤ (t.node m).tokenStart
  last : (t.node m).tokenStop ≤ (t.node n).tokenStop

structure Behind (t : SyntaxTree) (n m : Nat) : Prop where
  nodes : (t.node n).subtreeStop ≤ m
  tokens : (t.node n).tokenStop ≤ (t.node m).tokenStart

section Order

variable {t : SyntaxTree} {n m l : Nat}

theorem Inside.trans (outer : t.Inside n m) (inner : t.Inside m l) : t.Inside n l where
  below := outer.below.trans inner.below
  own := inner.own
  nodes := inner.nodes.trans outer.nodes
  first := outer.first.trans inner.first
  last := inner.last.trans outer.last

theorem Behind.of_inside (behind : t.Behind n m) (inner : t.Inside m l) : t.Behind n l where
  nodes := behind.nodes.trans (Nat.le_of_lt inner.below)
  tokens := behind.tokens.trans inner.first

theorem Inside.behind (inner : t.Inside n l) (behind : t.Behind n m) : t.Behind l m where
  nodes := inner.nodes.trans behind.nodes
  tokens := inner.last.trans behind.tokens

theorem mem_tokensOf_iff {i : Nat} :
    i ∈ t.tokensOf n ↔ (t.node n).tokenStart ≤ i ∧ i < (t.node n).tokenStop := by
  rw [tokensOf, List.mem_range'_1]
  omega

theorem Inside.tokensOf (inner : t.Inside n m) : t.tokensOf m ⊆ t.tokensOf n := by
  intro i mem
  have first := inner.first
  have last := inner.last
  rw [mem_tokensOf_iff] at mem ⊢
  omega

theorem Inside.significantTokens (inner : t.Inside n m) :
    t.significantTokens m ⊆ t.significantTokens n := by
  intro i mem
  obtain ⟨among, own⟩ := List.mem_filter.mp mem
  exact List.mem_filter.mpr ⟨inner.tokensOf among, own⟩

end Order

section Forests

variable {t : SyntaxTree} {parent : Nat} {p : Place} {f : Forest}

theorem Embeds.heads_among (h : t.Embeds parent p f) :
    ∀ m ∈ f.heads p.node, m < (t.node m).subtreeStop ∧
      (t.node m).subtreeStop ≤ p.node + f.nodeCount ∧ p.token ≤ (t.node m).tokenStart ∧
        (t.node m).tokenStop ≤ p.token + f.tokenCount := by
  intro m head
  obtain ⟨low, high⟩ := Forest.heads_bounds m head
  obtain ⟨around, q, k, inner, rfl, site, nodes, first, last⟩ := h.exists_inside low high
  rw [site.data]
  refine ⟨?_, nodes, first, last⟩
  simp only [NodeData.around]
  omega

theorem Embeds.heads_behind (h : t.Embeds parent p f) : (f.heads p.node).Pairwise t.Behind := by
  induction f generalizing parent p with
  | nil => exact .nil
  | leaf l rest ih => exact ih (p := p.afterLeaf l) h.leaf.2
  | node k inner rest _ hr =>
      obtain ⟨data, -, behind⟩ := h.node
      refine .cons (fun m head => ?_) (hr behind)
      have low := (Forest.heads_bounds m head).1
      have first := (behind.heads_among m head).2.2.1
      constructor
      all_goals rwa [data]

variable {around : Option Nat} {k : Kind} (site : t.Site around p k f)
include site

theorem Site.inside_of_child {m : Nat} (child : m ∈ t.childNodes p.node) : t.Inside p.node m := by
  rw [site.childNodes_heads] at child
  obtain ⟨own, nodes, first, last⟩ := site.within.heads_among m child
  have below := (Forest.heads_bounds m child).1
  constructor
  case below => exact below
  case own => exact own
  all_goals rwa [site.data]

theorem Site.behind_children : (t.childNodes p.node).Pairwise t.Behind := by
  rw [site.childNodes_heads]
  exact site.within.heads_behind

theorem Site.exists_opening {opening : Kind} {kinds : List Kind} (shaped : f.Shaped true)
    (tops : f.tops = opening :: kinds) (isToken : opening.isNode = false) :
    ∃ i ∈ t.tokensOf p.node, t.tokenKind i = opening ∧
      ∀ m ∈ t.childNodes p.node, i < (t.node m).tokenStart := by
  obtain ⟨l, rest, rfl, rfl, -⟩ := Forest.eq_leaf_of_tops shaped tops isToken
  obtain ⟨own, behind⟩ := site.within.leaf
  refine ⟨p.token + l.leading.length, ?_, ?_, fun m child => ?_⟩
  · rw [site.tokensOf, List.mem_range'_1, Forest.tokenCount, Leaf.tokenCount]
    omega
  · exact congrArg TokenData.kind (leaf_token own)
  · rw [site.childNodes_heads] at child
    have first := (behind.heads_among m child).2.2.1
    simp only [Place.afterLeaf, Place.inside, Leaf.tokenCount] at first
    omega

end Forests

section Parses

variable {text : Text} {n m : Nat}

theorem parse_inside (child : m ∈ (parse text).tree.childNodes n) : (parse text).tree.Inside n m := by
  obtain ⟨_, p, _, inner, rfl, site, -⟩ := parse_site (lt_size_of_child child)
  exact site.inside_of_child child

theorem parse_behind (text : Text) (n : Nat) :
    ((parse text).tree.childNodes n).Pairwise (parse text).tree.Behind := by
  by_cases lies : n < (parse text).tree.nodes.size
  · obtain ⟨_, p, _, inner, rfl, site, -⟩ := parse_site lies
    exact site.behind_children
  · have none : (parse text).tree.childNodes n = [] :=
      List.eq_nil_iff_forall_not_mem.mpr fun m child => lies (lt_size_of_child child)
    rw [none]
    exact .nil

theorem subtreeStop_le (lies : n < (parse text).tree.nodes.size) :
    ((parse text).tree.node n).subtreeStop ≤ (parse text).tree.nodes.size := by
  have size := nodes_size_parse text
  obtain ⟨_, p, _, inner, rfl, site, most⟩ := (parse_rooted text).exists_site (size ▸ lies)
  rw [site.data]
  exact most.trans_eq size.symm

theorem lt_subtreeStop (lies : n < (parse text).tree.nodes.size) :
    n < ((parse text).tree.node n).subtreeStop := by
  obtain ⟨_, p, _, inner, rfl, site, -⟩ := parse_site lies
  rw [site.data]
  simp only [NodeData.around]
  omega

theorem Inside.lt_size (inside : (parse text).tree.Inside n m) (lies : n < (parse text).tree.nodes.size) :
    m < (parse text).tree.nodes.size :=
  inside.own.trans_le (inside.nodes.trans (subtreeStop_le lies))

end Parses

section Bytes

variable {text : Text} {n m : Nat} (below : 0 < n) (lies : n < (parse text).tree.nodes.size)
include below lies

theorem exists_bounds : ∃ first last, (parse text).tree.trimmedSpan n =
      ⟨((parse text).tree.tokenSpan first).start, ((parse text).tree.tokenSpan last).stop⟩ ∧
    first ∈ (parse text).tree.significantTokens n ∧ last ∈ (parse text).tree.significantTokens n ∧
      ∀ i ∈ (parse text).tree.significantTokens n, first ≤ i ∧ i ≤ last := by
  obtain ⟨first, last, head, final, -⟩ := exists_ends below lies
  exact ⟨first, last, trimmedSpan_of_ends head final, List.mem_of_mem_head? head,
    List.mem_of_getLast? final, fun i mem => ((mem_significantTokens head final).mp mem).1⟩

theorem solid_of_significant {i : Nat} (mem : i ∈ (parse text).tree.significantTokens n) :
    i ∈ (parse text).tree.significantTokens 0 ∧
      ((parse text).tree.tokenSpan i).start < ((parse text).tree.tokenSpan i).stop := by
  obtain ⟨_, _, -, -, each⟩ := exists_ends below lies
  exact each i mem

theorem start_le_start {i j : Nat} (here : i ∈ (parse text).tree.significantTokens n)
    (there : j ∈ (parse text).tree.significantTokens n) (le : i ≤ j) :
    ((parse text).tree.tokenSpan i).start ≤ ((parse text).tree.tokenSpan j).start := by
  rcases Nat.lt_or_eq_of_le le with less | rfl
  · obtain ⟨whole, solid⟩ := solid_of_significant below lies there
    exact Nat.le_of_lt (start_lt_start (solid_of_significant below lies here).1
      (List.mem_filter.mp whole).1 less solid)
  · exact Nat.le_refl _

theorem trimmedSpan_wide :
    ((parse text).tree.trimmedSpan n).start < ((parse text).tree.trimmedSpan n).stop := by
  obtain ⟨first, last, span, low, high, ends⟩ := exists_bounds below lies
  obtain ⟨-, solid⟩ := solid_of_significant below lies high
  have order := start_le_start below lies low high (ends last high).1
  simp only [span]
  exact order.trans_lt solid

theorem Inside.contains (inside : (parse text).tree.Inside n m) :
    ((parse text).tree.trimmedSpan n).contains ((parse text).tree.trimmedSpan m) = true := by
  have lies' := inside.lt_size lies
  have below' := below.trans inside.below
  obtain ⟨first, last, span, low, high, ends⟩ := exists_bounds below lies
  obtain ⟨first', last', span', low', high', -⟩ := exists_bounds below' lies'
  have among := inside.significantTokens low'
  have among' := inside.significantTokens high'
  have start := start_le_start below lies low among (ends first' among).1
  have stop : ((parse text).tree.tokenSpan last').stop ≤ ((parse text).tree.tokenSpan last).stop := by
    rcases Nat.lt_or_eq_of_le (ends last' among').2 with less | same
    · obtain ⟨whole, solid⟩ := solid_of_significant below lies high
      exact ((parse_rooted text).stop_le_start less (List.mem_filter.mp whole).1).trans (Nat.le_of_lt solid)
    · rw [same]
  simp only [span, span', Span.contains_iff]
  exact ⟨start, stop⟩

theorem Behind.stop_le_start (behind : (parse text).tree.Behind n m)
    (lies' : m < (parse text).tree.nodes.size) :
    ((parse text).tree.trimmedSpan n).stop ≤ ((parse text).tree.trimmedSpan m).start := by
  have below' : 0 < m := below.trans ((lt_subtreeStop lies).trans_le behind.nodes)
  obtain ⟨first, last, span, -, high, -⟩ := exists_bounds below lies
  obtain ⟨first', last', span', low', -, -⟩ := exists_bounds below' lies'
  obtain ⟨whole, -⟩ := solid_of_significant below' lies' low'
  have before := (mem_tokensOf_iff.mp (List.mem_filter.mp high).1).2
  have after := (mem_tokensOf_iff.mp (List.mem_filter.mp low').1).1
  have less : last < first' := before.trans_le (behind.tokens.trans after)
  have order := (parse_rooted text).stop_le_start less (List.mem_filter.mp whole).1
  simp only [span, span']
  exact order

theorem Inside.start_lt_start (inside : (parse text).tree.Inside n m) {i : Nat}
    (among : i ∈ (parse text).tree.significantTokens n) (before : i < ((parse text).tree.node m).tokenStart) :
    ((parse text).tree.trimmedSpan n).start < ((parse text).tree.trimmedSpan m).start := by
  have lies' := inside.lt_size lies
  have below' := below.trans inside.below
  obtain ⟨first, last, span, low, -, ends⟩ := exists_bounds below lies
  obtain ⟨first', last', span', low', -, -⟩ := exists_bounds below' lies'
  have own := (mem_tokensOf_iff.mp (List.mem_filter.mp low').1).1
  obtain ⟨whole, solid⟩ := solid_of_significant below' lies' low'
  obtain ⟨here, -⟩ := solid_of_significant below lies among
  have order := start_le_start below lies low among (ends i among).1
  have less := SyntaxTree.start_lt_start here (List.mem_filter.mp whole).1 (before.trans_le own) solid
  simp only [span, span']
  exact order.trans_lt less

end Bytes

def braced : List Kind := [.itemList, .fieldList]

theorem tops_of_braced {k : Kind} (isList : k ∈ braced) {tops : List Kind}
    (fits : (k.shape true).Matches tops) : ∃ kinds, tops = .leftBrace :: kinds := by
  have opened {forms : List (Form Empty)}
      (fits : (Form.row (.token .leftBrace :: forms)).Matches tops) :
      ∃ kinds, tops = .leftBrace :: kinds := by
    obtain ⟨first, kinds, rfl, brace, -⟩ := Form.derives_row_cons.mp fits
    rw [Form.derives_token] at brace
    exact ⟨kinds, by rw [brace, List.singleton_append]⟩
  simp only [braced, List.mem_cons, List.not_mem_nil, or_false] at isList
  rcases isList with rfl | rfl
  · exact opened fits
  · exact opened fits

theorem start_lt_of_braced {text : Text} {n list m : Nat} (below : 0 < n)
    (lies : n < (parse text).tree.nodes.size) (inside : (parse text).tree.Inside n list)
    (isList : (parse text).tree.kind list ∈ braced) (child : m ∈ (parse text).tree.childNodes list) :
    ((parse text).tree.trimmedSpan n).start < ((parse text).tree.trimmedSpan m).start := by
  have inner := parse_inside child
  obtain ⟨_, p, k, forest, rfl, site, fits, shaped, -⟩ := parse_site (inside.lt_size lies)
  rw [site.kind] at isList
  obtain ⟨kinds, tops⟩ := tops_of_braced isList fits
  obtain ⟨i, among, brace, first⟩ := site.exists_opening shaped tops rfl
  have own : i ∈ (parse text).tree.significantTokens n := by
    refine List.mem_filter.mpr ⟨inside.tokensOf among, ?_⟩
    rw [brace]
    rfl
  exact (inside.trans inner).start_lt_start below lies own (first m child)

/-- The nodes of a tree in order: a child is inside its parent and behind the children before it, and so are
its bytes. -/
structure Sequenced (t : SyntaxTree) : Prop where
  inside : ∀ n, ∀ m ∈ t.childNodes n, t.Inside n m
  behind : ∀ n, (t.childNodes n).Pairwise t.Behind
  own : ∀ n < t.nodes.size, n < (t.node n).subtreeStop ∧ (t.node n).subtreeStop ≤ t.nodes.size
  wide : ∀ n, 0 < n → n < t.nodes.size → (t.trimmedSpan n).start < (t.trimmedSpan n).stop
  contains : ∀ n, 0 < n → n < t.nodes.size → ∀ m, t.Inside n m →
    (t.trimmedSpan n).contains (t.trimmedSpan m) = true
  apart : ∀ n, 0 < n → n < t.nodes.size → ∀ m < t.nodes.size, t.Behind n m →
    (t.trimmedSpan n).stop ≤ (t.trimmedSpan m).start
  braced : ∀ n, 0 < n → n < t.nodes.size → ∀ list, t.Inside n list → t.kind list ∈ braced →
    ∀ m ∈ t.childNodes list, (t.trimmedSpan n).start < (t.trimmedSpan m).start

theorem parse_sequenced (text : Text) : (parse text).tree.Sequenced where
  inside _ _ child := parse_inside child
  behind n := parse_behind text n
  own _ lies := ⟨lt_subtreeStop lies, subtreeStop_le lies⟩
  wide _ below lies := trimmedSpan_wide below lies
  contains _ below lies _ inside := inside.contains below lies
  apart _ below lies _ lies' behind := behind.stop_le_start below lies lies'
  braced _ below lies _ inside isList _ child := start_lt_of_braced below lies inside isList child

end LosslessTree.SyntaxTree
