import LosslessTree.Proofs.Tree.Attaching
import LosslessTree.Proofs.Tree.Touching
import LosslessTree.Tree.Ends

set_option autoImplicit false

namespace LosslessTree

namespace Stretch

def toList (s : Stretch) : List Nat := List.range' s.start (s.stop - s.start)

variable {test : Nat → Bool} {s : Stretch}

theorem toList_cons (wide : s.start < s.stop) : s.toList = s.start :: toList ⟨s.start + 1, s.stop⟩ := by
  obtain ⟨count, size⟩ := Nat.exists_eq_add_of_lt wide
  have less : s.stop - s.start = s.stop - (s.start + 1) + 1 := by omega
  rw [toList, less, List.range'_succ, toList]

theorem toList_concat (wide : s.start < s.stop) :
    s.toList = toList ⟨s.start, s.stop - 1⟩ ++ [s.stop - 1] := by
  have less : s.stop - s.start = s.stop - 1 - s.start + 1 := by omega
  have last : s.start + 1 * (s.stop - 1 - s.start) = s.stop - 1 := by omega
  rw [toList, less, List.range'_concat, last, toList]

theorem toList_nil (narrow : ¬ s.start < s.stop) : s.toList = [] := by
  have none : s.stop - s.start = 0 := by omega
  rw [toList, none, List.range'_zero]

theorem next_eq : (s.next test).1 = (s.toList.filter test).head? ∧
    (s.next test).2.toList.filter test = (s.toList.filter test).tail := by
  fun_induction next test s with
  | case1 s wide passes => simp [toList_cons wide, passes]
  | case2 s wide fails ih => simpa [toList_cons wide, fails] using ih
  | case3 s narrow => simp [toList_nil narrow]

theorem nextBack_eq : (s.nextBack test).1 = (s.toList.filter test).getLast? := by
  fun_induction nextBack test s with
  | case1 s wide passes => simp [toList_concat wide, passes]
  | case2 s wide fails ih => simpa [toList_concat wide, fails] using ih
  | case3 s narrow => simp [toList_nil narrow]

end Stretch

theorem Span.between_of_le {start stop : Nat} (forward : start ≤ stop) :
    between start stop = .ok ⟨start, stop⟩ := if_pos forward

namespace SyntaxTree

def isSignificant (t : SyntaxTree) (i : Nat) : Bool := !(t.tokenKind i).isTrivia

def significantUnder (t : SyntaxTree) (c : Child) : List Nat := (t.tokensUnder c).filter t.isSignificant

def trimmedChild (t : SyntaxTree) : Child → Span
  | .node n => t.trimmedSpan n
  | .token i => t.tokenSpan i

variable {t : SyntaxTree}

theorem trimmedSpan_of_none {n : Nat} (none : t.significantTokens n = []) :
    t.trimmedSpan n = .empty (t.span n).start := by
  rw [trimmedSpan, none]
  rfl

section Root

variable {k : Kind} {f : Forest} (root : t.Rooted k f)
include root

theorem Rooted.tokenSpan_mono {i j : Nat} (le : i ≤ j) (there : j ∈ t.tokensOf 0) :
    (t.tokenSpan i).start ≤ (t.tokenSpan j).start ∧ (t.tokenSpan i).stop ≤ (t.tokenSpan j).stop ∧
      (t.tokenSpan i).start ≤ (t.tokenSpan j).stop := by
  rw [root.mem_tokensOf_zero] at there
  have forward {m : Nat} (inside : m < f.tokenCount) :
      (t.tokenSpan m).start ≤ (t.tokenSpan m).stop := by
    refine (root.site.within.token_within ?_).2.2
    rw [List.mem_range'_1]
    simp only [Place.inside]
    omega
  have first := forward (Nat.lt_of_le_of_lt le there)
  have last := forward there
  rcases Nat.lt_or_eq_of_le le with less | rfl
  · have order := root.stop_le_start less (root.mem_tokensOf_zero.mpr there)
    omega
  · omega

variable {n : Nat} (inside : t.tokensOf n ⊆ t.tokensOf 0)
include inside

theorem Rooted.trimmedSpan_contains {i : Nat} (mem : i ∈ t.significantTokens n) :
    (t.trimmedSpan n).contains (t.tokenSpan i) = true := by
  have some_ := List.ne_nil_of_mem mem
  have head := List.head?_eq_some_head some_
  have final := List.getLast?_eq_some_getLast some_
  obtain ⟨⟨low, high⟩, -⟩ := (mem_significantTokens head final).mp mem
  have whole {j : Nat} (mem : j ∈ t.significantTokens n) : j ∈ t.tokensOf 0 :=
    inside (List.mem_filter.mp mem).1
  rw [trimmedSpan_of_ends head final, Span.contains_iff]
  exact ⟨(root.tokenSpan_mono low (whole mem)).1,
    (root.tokenSpan_mono high (whole (List.getLast_mem some_))).2.1⟩

theorem Rooted.trimmedSpan_forward : (t.trimmedSpan n).start ≤ (t.trimmedSpan n).stop := by
  by_cases some_ : t.significantTokens n = []
  · rw [trimmedSpan_of_none some_]
    exact Nat.le_refl _
  have head := List.head?_eq_some_head some_
  have final := List.getLast?_eq_some_getLast some_
  obtain ⟨⟨le, -⟩, -⟩ := (mem_significantTokens head final).mp (List.getLast_mem some_)
  rw [trimmedSpan_of_ends head final]
  exact (root.tokenSpan_mono le (inside (List.mem_filter.mp (List.getLast_mem some_)).1)).2.2

end Root

end SyntaxTree

theorem ArenaToken.kind_read (start i : Nat) (tokens : List ArenaToken) :
    ((read start tokens).getD i default).kind = (tokens.getD i default).kind := by
  induction tokens generalizing start i with
  | nil => rfl
  | cons t tokens ih =>
      cases i with
      | zero => rfl
      | succ i => exact ih t.stop i

namespace Arena

variable {text : Text} {k : Kind} {f : Forest}

theorem ofRoot_isSignificant (i : Nat) :
    (ofRoot text k f).isSignificant (i + 1) = (SyntaxTree.ofRoot text k f).isSignificant i := by
  rw [← ofRoot_tree, SyntaxTree.isSignificant, SyntaxTree.tokenKind, SyntaxTree.token_eq_getD]
  exact congrArg (fun kind : Kind => !kind.isTrivia) (ArenaToken.kind_read 0 i _).symm

theorem ofRoot_bytes {n : Nat} (lies : n < 1 + f.nodeCount) :
    (ofRoot text k f).bytes ((ofRoot text k f).nodes.getD n default).tokens =
      (SyntaxTree.ofRoot text k f).span n := by
  have size : n < (ofRoot text k f).nodes.length := by
    rw [ofRoot, List.length_cons, Forest.filling_nodes_length, Nat.add_comm]
    exact lies
  rw [← ofRoot_tree, SyntaxTree.span, SyntaxTree.node_eq_getD]
  simp [tree, List.getElem?_eq_getElem size, nodeData]

theorem ofRoot_significant {n : Nat} (lies : n < 1 + f.nodeCount) :
    (((ofRoot text k f).nodes.getD n default).tokens.toList.filter (ofRoot text k f).isSignificant) =
      ((SyntaxTree.ofRoot text k f).significantTokens n).map (· + 1) := by
  -- Without the seed every index is one less.
  have tokens : ((ofRoot text k f).nodes.getD n default).tokens.toList =
      ((SyntaxTree.ofRoot text k f).tokensOf n).map (· + 1) := by
    rw [ofRoot_tokens lies, Stretch.toList, SyntaxTree.tokensOf, Nat.add_sub_add_right]
    simp [List.range'_succ_left]
  rw [tokens, List.filter_map]
  congr 1
  exact List.filter_congr fun i _ => ofRoot_isSignificant i

theorem ofRoot_trimmedSpan {n : Nat} (lies : n < 1 + f.nodeCount) :
    (ofRoot text k f).trimmedSpan n = .ok ((SyntaxTree.ofRoot text k f).trimmedSpan n) := by
  have root := SyntaxTree.ofRoot_rooted text k f
  have inside := root.tokensOf_root lies
  have forward := root.trimmedSpan_forward inside
  have bytes {i : Nat} (mem : i ∈ (SyntaxTree.ofRoot text k f).significantTokens n) :=
    @ofRoot_tokenSpan text k f i (root.mem_tokensOf_zero.mp (inside (List.mem_filter.mp mem).1))
  obtain ⟨first, rest⟩ := @Stretch.next_eq (ofRoot text k f).isSignificant
    ((ofRoot text k f).nodes.getD n default).tokens
  have last := @Stretch.nextBack_eq (ofRoot text k f).isSignificant
    (((ofRoot text k f).nodes.getD n default).tokens.next (ofRoot text k f).isSignificant).2
  rw [rest] at last
  rw [ofRoot_significant lies] at first last
  simp only [trimmedSpan, first, last, ofRoot_bytes lies]
  cases found : (SyntaxTree.ofRoot text k f).significantTokens n with
  | nil =>
      have whole : ((SyntaxTree.ofRoot text k f).span n).start ≤
          ((SyntaxTree.ofRoot text k f).span n).stop := by
        obtain ⟨around, p, k', inner, rfl, site, -⟩ := root.exists_site lies
        rw [site.span]
        exact Nat.le_add_right _ _
      rw [SyntaxTree.trimmedSpan_of_none found]
      exact congrArg (Except.map _) (Span.between_of_le whole)
  | cons i more =>
      have head := congrArg List.head? found
      rw [List.head?_cons] at head
      -- What is left behind the first token decides whether there is another one at the back.
      rcases List.eq_nil_or_concat more with rfl | ⟨between, j, rfl⟩
      · have final := congrArg List.getLast? found
        rw [List.getLast?_singleton] at final
        rw [SyntaxTree.trimmedSpan_of_ends head final, bytes (List.mem_of_mem_head? head)] at forward ⊢
        exact Span.between_of_le forward
      · have final := congrArg List.getLast? found
        rw [List.concat_eq_append, ← List.cons_append, List.getLast?_concat] at final
        rw [SyntaxTree.trimmedSpan_of_ends head final, bytes (List.mem_of_mem_head? head),
          bytes (List.mem_of_getLast? final)] at forward ⊢
        simpa using Span.between_of_le forward

end Arena

structure Span.IsHull (s : Span) (spans : List Span) : Prop where
  covers : ∀ r ∈ spans, s.contains r = true
  least : ∀ o : Span, (∀ r ∈ spans, o.contains r = true) → o.contains s = true

namespace SyntaxTree

def hasSignificant (t : SyntaxTree) (c : Child) : Bool := (t.tokensUnder c).any t.isSignificant

/-- What is left of a node without the trivia at its ends. -/
structure Trims (t : SyntaxTree) (n : Nat) : Prop where
  inside : (t.span n).contains (t.trimmedSpan n) = true
  outside : ∀ i ∈ t.tokensOf n, (t.trimmedSpan n).contains (t.tokenSpan i) = false →
    (t.tokenKind i).isTrivia = true
  ends : (∃ i ∈ t.tokensOf n, (t.tokenKind i).isTrivia = false) →
    ∃ first ∈ t.tokensOf n, ∃ last ∈ t.tokensOf n,
      (t.tokenKind first).isTrivia = false ∧ (t.tokenKind last).isTrivia = false ∧
      (∀ i ∈ t.tokensOf n, (t.tokenKind i).isTrivia = false → first ≤ i ∧ i ≤ last) ∧
      t.trimmedSpan n = ⟨(t.tokenSpan first).start, (t.tokenSpan last).stop⟩
  hull : (∃ i ∈ t.tokensOf n, (t.tokenKind i).isTrivia = false) →
    (t.trimmedSpan n).IsHull (((t.children n).filter t.hasSignificant).map t.trimmedChild)
  none : (∀ i ∈ t.tokensOf n, (t.tokenKind i).isTrivia = true) →
    t.trimmedSpan n = .empty (t.span n).start

variable {t : SyntaxTree}

theorem mem_significantTokens_iff {n i : Nat} :
    i ∈ t.significantTokens n ↔ i ∈ t.tokensOf n ∧ (t.tokenKind i).isTrivia = false := by
  rw [significantTokens, List.mem_filter, Bool.not_eq_true']

theorem hasSignificant_iff {c : Child} : t.hasSignificant c = true ↔ t.significantUnder c ≠ [] := by
  rw [hasSignificant, significantUnder, List.any_eq_true, ne_eq, List.filter_eq_nil_iff]
  simp only [not_forall, not_not, exists_prop]

section Root

variable {k : Kind} {f : Forest} (root : t.Rooted k f) (size : t.nodes.size = 1 + f.nodeCount) {n : Nat}
include root size

theorem Rooted.significantTokens_flatMap (lies : n < t.nodes.size) :
    t.significantTokens n = (t.children n).flatMap t.significantUnder := by
  obtain ⟨around, p, k', inner, rfl, site, -⟩ := root.exists_site (size ▸ lies)
  rw [significantTokens, ← site.flatMap_tokensUnder, List.filter_flatMap]
  rfl

theorem Rooted.tokensUnder_subset {c : Child} (child : c ∈ t.children n) :
    t.tokensUnder c ⊆ t.tokensOf 0 := by
  obtain ⟨around, p, k', inner, rfl, site, -⟩ := root.exists_site (size ▸ lt_size_of_mem_children child)
  intro i under
  apply root.tokensOf_subset site
  rw [← site.flatMap_tokensUnder]
  exact List.mem_flatMap.mpr ⟨c, child, under⟩

theorem Rooted.isTrivia_of_triviaOn {i j : Nat} {side : Side} (child : .token j ∈ t.children n)
    (among : i ∈ t.triviaOn side j) : (t.tokenKind i).isTrivia = true := by
  have there := root.mem_tokensOf_zero.mp
    (root.tokensUnder_subset size child (mem_tokensUnder_of_triviaOn among))
  rw [← Forest.roles_length] at there
  have placed := root.placed size (List.getElem?_eq_getElem there)
  cases role : f.roles[i] with
  | none =>
      rw [role] at placed
      exact absurd ⟨⟨n, child⟩, among⟩ (placed.2 side j)
  | some kind =>
      rw [role] at placed
      rw [placed.1, TriviaKind.kind_isTrivia]

theorem Rooted.eq_of_significantUnder {i j : Nat} (child : .token j ∈ t.children n)
    (mem : i ∈ t.significantUnder (.token j)) : i = j := by
  obtain ⟨under, own⟩ := List.mem_filter.mp mem
  rw [isSignificant, Bool.not_eq_true'] at own
  have attached (side : Side) (among : i ∈ t.triviaOn side j) : i = j := by
    rw [root.isTrivia_of_triviaOn size child among] at own
    cases own
  rw [tokensUnder, List.mem_append, List.mem_cons] at under
  rcases under with before | rfl | behind
  · exact attached .leading before
  · rfl
  · exact attached .trailing behind

theorem Rooted.exists_ends_of_child {c : Child} (child : c ∈ t.children n)
    (some_ : t.significantUnder c ≠ []) :
    (∃ first ∈ t.significantUnder c, ∃ last ∈ t.significantUnder c,
      t.trimmedChild c = ⟨(t.tokenSpan first).start, (t.tokenSpan last).stop⟩) ∧
    ∀ i ∈ t.significantUnder c, (t.trimmedChild c).contains (t.tokenSpan i) = true := by
  cases c with
  | node m =>
      have some_ : t.significantTokens m ≠ [] := some_
      refine ⟨⟨_, List.head_mem some_, _, List.getLast_mem some_, ?_⟩, fun i mem => ?_⟩
      · exact trimmedSpan_of_ends (List.head?_eq_some_head some_) (List.getLast?_eq_some_getLast some_)
      · exact root.trimmedSpan_contains (root.tokensUnder_subset size child) mem
  | token j =>
      obtain ⟨i, mem⟩ := List.exists_mem_of_ne_nil _ some_
      obtain rfl := root.eq_of_significantUnder size child mem
      refine ⟨⟨i, mem, i, mem, rfl⟩, fun i' mem' => ?_⟩
      obtain rfl := root.eq_of_significantUnder size child mem'
      simp [trimmedChild, Span.contains]

theorem Rooted.isHull (lies : n < t.nodes.size) (some_ : t.significantTokens n ≠ []) :
    (t.trimmedSpan n).IsHull (((t.children n).filter t.hasSignificant).map t.trimmedChild) := by
  have own {i : Nat} (mem : i ∈ t.significantTokens n) :=
    (Span.contains_iff _ _).mp (root.trimmedSpan_contains (root.tokensOf_root (size ▸ lies)) mem)
  have split := root.significantTokens_flatMap size lies
  constructor
  · intro r mem
    obtain ⟨c, listed, rfl⟩ := List.mem_map.mp mem
    obtain ⟨child, holds⟩ := List.mem_filter.mp listed
    obtain ⟨⟨first, mem, last, mem', ends⟩, -⟩ :=
      root.exists_ends_of_child size child (hasSignificant_iff.mp holds)
    have whole {i : Nat} (under : i ∈ t.significantUnder c) : i ∈ t.significantTokens n :=
      split ▸ List.mem_flatMap.mpr ⟨c, child, under⟩
    rw [Span.contains_iff, ends]
    exact ⟨(own (whole mem)).1, (own (whole mem')).2⟩
  · intro o covers
    -- The first token and the last are each one of a child that the span is around.
    have around {i : Nat} (mem : i ∈ t.significantTokens n) :
        o.start ≤ (t.tokenSpan i).start ∧ (t.tokenSpan i).stop ≤ o.stop := by
      rw [split] at mem
      obtain ⟨c, child, under⟩ := List.mem_flatMap.mp mem
      have holds := List.ne_nil_of_mem under
      have outer := (Span.contains_iff _ _).mp (covers _ (List.mem_map_of_mem
        (List.mem_filter.mpr ⟨child, hasSignificant_iff.mpr holds⟩)))
      have inner := (Span.contains_iff _ _).mp
        ((root.exists_ends_of_child size child holds).2 i under)
      exact ⟨outer.1.trans inner.1, inner.2.trans outer.2⟩
    rw [trimmedSpan_of_ends (List.head?_eq_some_head some_) (List.getLast?_eq_some_getLast some_),
      Span.contains_iff]
    exact ⟨(around (List.head_mem some_)).1, (around (List.getLast_mem some_)).2⟩

theorem Rooted.trims (lies : n < t.nodes.size) : t.Trims n := by
  have inside := root.tokensOf_root (size ▸ lies)
  have some_ : (∃ i ∈ t.tokensOf n, (t.tokenKind i).isTrivia = false) → t.significantTokens n ≠ [] := by
    rintro ⟨i, mem, own⟩
    exact List.ne_nil_of_mem (mem_significantTokens_iff.mpr ⟨mem, own⟩)
  constructor
  case inside =>
    obtain ⟨around, p, k', inner, rfl, site, -⟩ := root.exists_site (size ▸ lies)
    by_cases none : t.significantTokens p.node = []
    · rw [trimmedSpan_of_none none, Span.contains_iff, site.span]
      exact ⟨Nat.le_refl _, Nat.le_add_right _ _⟩
    · rw [trimmedSpan_of_ends (List.head?_eq_some_head none) (List.getLast?_eq_some_getLast none)]
      exact site.span_contains (mem_significantTokens_iff.mp (List.head_mem none)).1
        (mem_significantTokens_iff.mp (List.getLast_mem none)).1
  case outside =>
    intro i mem out
    by_contra own
    rw [Bool.not_eq_true] at own
    rw [root.trimmedSpan_contains inside (mem_significantTokens_iff.mpr ⟨mem, own⟩)] at out
    cases out
  case ends =>
    intro own
    have own := some_ own
    have head := List.head?_eq_some_head own
    have final := List.getLast?_eq_some_getLast own
    obtain ⟨first, plain⟩ := mem_significantTokens_iff.mp (List.head_mem own)
    obtain ⟨last, plain'⟩ := mem_significantTokens_iff.mp (List.getLast_mem own)
    refine ⟨_, first, _, last, plain, plain', fun i mem trivial_ => ?_, trimmedSpan_of_ends head final⟩
    exact ((mem_significantTokens head final).mp (mem_significantTokens_iff.mpr ⟨mem, trivial_⟩)).1
  case hull => exact fun own => root.isHull size lies (some_ own)
  case none =>
    intro all
    refine trimmedSpan_of_none (List.filter_eq_nil_iff.mpr fun i mem => ?_)
    simp [all i mem]

end Root

/-- In a built tree the bytes of a node without the trivia at its ends lie in those of the node, and a
token that does not lie in them is trivia. If the node has a token that is none, they go from the first
such token to the last, and are the hull of those of its children that have one. If it has none they are
empty where the node begins. Taking tokens from both ends of the arena finds them. -/
theorem trimmed_between_ends {text : Text} {events : List TreeEvent}
    (built : Assembly.run text events = .ok t) {n : Nat} (lies : n < t.nodes.size) :
    t.Trims n ∧
      ∃ a, ArenaBuilder.run text events = .ok a ∧ a.tree = t ∧ a.trimmedSpan n = .ok (t.trimmedSpan n) := by
  obtain ⟨rootKind, f, rfl, rfl, isNode, sorted, fits, numbered⟩ := Assembly.root_of_run built
  have size := ofRoot_nodes_size text rootKind f
  refine ⟨(ofRoot_rooted text rootKind f).trims size lies, ?_⟩
  exact ⟨.ofRoot text rootKind f, ArenaBuilder.run_root isNode sorted fits numbered,
    Arena.ofRoot_tree text rootKind f, Arena.ofRoot_trimmedSpan (size ▸ lies)⟩

-- A node with trivia on both sides of its tokens, an empty token at its end, a node without tokens
-- and a token of a kind that is trivia.
theorem trimmed_between_ends_mixed :
    let text := [' ', 'a', ' ', '\n', ';', ' ']
    let name : Leaf := ⟨[⟨.whitespace, 1⟩], .ident, 1, [⟨.whitespace, 1⟩]⟩
    let blank : Leaf := ⟨[], .newline, 1, []⟩
    let semicolon : Leaf := ⟨[], .semicolon, 1, [⟨.whitespace, 1⟩]⟩
    let empty : Leaf := ⟨[], .unknown, 0, []⟩
    let events := [.openNode .exprStmt, .openNode .path, .token name, .closeNode, .openNode .error,
      .closeNode, .token blank, .token semicolon, .token empty, .closeNode]
    let t := SyntaxTree.ofRoot text .exprStmt (.node .path (.leaf name .nil)
      (.node .error .nil (.leaf blank (.leaf semicolon (.leaf empty .nil)))))
    Assembly.run text events = .ok t ∧ t.trimmedSpan 0 = ⟨1, 6⟩ ∧ t.trimmedSpan 2 = .empty 3 ∧
      (⟨1, 6⟩ : Span).IsHull [⟨1, 2⟩, ⟨4, 5⟩, ⟨6, 6⟩] ∧
      ∃ a, ArenaBuilder.run text events = .ok a ∧ a.tree = t ∧ a.trimmedSpan 1 = .ok ⟨1, 2⟩ := by
  intro text name blank semicolon empty events t
  have built : Assembly.run text events = .ok t := rfl
  obtain ⟨whole, -⟩ := trimmed_between_ends built (n := 0) (by decide)
  obtain ⟨none, -⟩ := trimmed_between_ends built (n := 2) (by decide)
  obtain ⟨-, arena⟩ := trimmed_between_ends built (n := 1) (by decide)
  exact ⟨built, by decide +kernel, none.none (by decide), whole.hull ⟨1, by decide, by decide⟩, arena⟩

end SyntaxTree

end LosslessTree
