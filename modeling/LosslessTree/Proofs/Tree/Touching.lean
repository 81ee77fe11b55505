import LosslessTree.Proofs.Tree.Covering
import LosslessTree.Tree.Seeking

set_option autoImplicit false

namespace LosslessTree

theorem Stretch.seek_eq {test : Nat → Bool} {s : Stretch} {k : Nat} (first : s.start ≤ k)
    (last : k ≤ s.stop) (before : ∀ j, s.start ≤ j → j < k → test j = true)
    (behind : ∀ j, k ≤ j → j < s.stop → test j = false) : s.seek test = k := by
  -- The half that is kept is the one with `k` in it.
  fun_induction seek test s with
  | case1 s wide middle holds ih =>
      have passed : middle < k := by
        refine Nat.lt_of_not_le fun le => ?_
        rw [behind middle le (by omega)] at holds
        cases holds
      exact ih passed last (fun j from_ => before j (by simp only at from_; omega)) behind
  | case2 s wide middle fails ih =>
      have reached : k ≤ middle := by
        refine Nat.le_of_not_lt fun less => ?_
        exact fails (before middle (by omega) less)
      exact ih first reached before fun j from_ less => behind j from_ (by simp only at less; omega)
  | case3 s narrow => omega

theorem ArenaToken.span_read (before : ArenaToken) {tokens : List ArenaToken} {i : Nat}
    (less : i < tokens.length) :
    ((read before.stop tokens).getD i default).span =
      ⟨((before :: tokens).getD i default).stop, ((before :: tokens).getD (i + 1) default).stop⟩ := by
  -- A token is read from the end of the one in front of it, which is `before` for the next step.
  induction tokens generalizing before i with
  | nil => cases less
  | cons t tokens ih =>
      cases i with
      | zero => rfl
      | succ i => exact ih t (Nat.lt_of_succ_lt_succ less)

theorem Forest.filling_seeded {f : Forest} {parent slot : Nat} {p : Place} :
    ∀ x ∈ (f.filling parent p slot).nodes, 1 ≤ x.tokens.start ∧ x.tokens.start ≤ x.tokens.stop := by
  induction f generalizing parent p slot with
  | nil => simp [filling]
  | leaf l rest ih => exact ih
  | node k inner rest hi hr =>
      intro x mem
      rcases List.mem_append.mp mem with mem | mem
      · rcases List.mem_cons.mp mem with rfl | mem
        · simp only
          omega
        · exact hi x mem
      · exact hr x mem

namespace Arena

variable {text : Text} {k : Kind} {f : Forest}

theorem ofRoot_tokenSpan {i : Nat} (less : i < f.tokenCount) :
    (SyntaxTree.ofRoot text k f).tokenSpan i =
      ⟨(ofRoot text k f).tokenStart (i + 1), (ofRoot text k f).tokenStop (i + 1)⟩ := by
  rw [← ofRoot_tree, SyntaxTree.tokenSpan, SyntaxTree.token_eq_getD]
  refine ArenaToken.span_read ⟨.tombstone, .none, 0, 0⟩ ?_
  rwa [ofRoot, List.tail_cons, Forest.filling_tokens_length]

theorem ofRoot_tokens {n : Nat} (lies : n < 1 + f.nodeCount) :
    ((ofRoot text k f).nodes.getD n default).tokens =
      ⟨((SyntaxTree.ofRoot text k f).node n).tokenStart + 1,
        ((SyntaxTree.ofRoot text k f).node n).tokenStop + 1⟩ := by
  have size : n < (ofRoot text k f).nodes.length := by
    rw [ofRoot, List.length_cons, Forest.filling_nodes_length, Nat.add_comm]
    exact lies
  have seeded : ∀ x ∈ (ofRoot text k f).nodes, 1 ≤ x.tokens.start ∧ x.tokens.start ≤ x.tokens.stop := by
    refine List.forall_mem_cons.mpr ⟨?_, Forest.filling_seeded⟩
    simp only
    omega
  -- Without the seed every index of a stretch is one less, which loses nothing above zero.
  have own := seeded _ (List.getElem_mem size)
  have data : (SyntaxTree.ofRoot text k f).node n =
      (ofRoot text k f).nodeData (ofRoot text k f).nodes[n] := by
    rw [← ofRoot_tree, SyntaxTree.node_eq_getD]
    simp [tree, List.getElem?_eq_getElem size]
  rw [data, List.getD_eq_getElem?_getD, List.getElem?_eq_getElem size, Option.getD_some]
  simp only [nodeData, Nat.sub_add_cancel own.1, Nat.sub_add_cancel (own.1.trans own.2)]

end Arena

namespace SyntaxTree

variable {t : SyntaxTree} {around : Option Nat} {p : Place} {k : Kind} {inner : Forest}

theorem Site.exists_passed (site : t.Site around p k inner) (o : Nat) :
    ∃ passed ≤ inner.tokenCount,
      (∀ i, p.token ≤ i → i < p.token + passed → (t.tokenSpan i).stop ≤ o) ∧
      (∀ i, p.token + passed ≤ i → i < p.token + inner.tokenCount → o < (t.tokenSpan i).stop) ∧
      (t.tokensOf p.node).find? (fun i => o < (t.tokenSpan i).stop) =
        if passed = inner.tokenCount then none else some (p.token + passed) := by
  obtain ⟨before, behind, split, ended, later⟩ := site.tokens_partitioned o
  rw [split, List.find?_append, List.find?_eq_none.mpr (by simpa using ended), Option.none_or]
  rw [site.tokensOf, List.range'_eq_append_iff] at split
  obtain ⟨passed, le, rfl, rfl⟩ := split
  rw [Nat.mul_one] at later ⊢
  refine ⟨passed, le, fun i first last => ended i ?_, fun i first last => later i ?_, ?_⟩
  · rw [List.mem_range'_1]
    omega
  · rw [List.mem_range'_1]
    omega
  · split
    · next all => simp [all]
    · next more =>
        obtain ⟨rest, size⟩ := Nat.exists_eq_add_of_lt (Nat.lt_of_le_of_ne le more)
        have next : o < (t.tokenSpan (p.token + passed)).stop :=
          later _ (by rw [List.mem_range'_1]; omega)
        have some_ : inner.tokenCount - passed = rest + 1 := by omega
        rw [some_, List.range'_succ, List.find?_cons_of_pos (by simpa using next)]

end SyntaxTree

namespace Arena

section Sites

variable {text : Text} {k k' : Kind} {f inner : Forest} {around : Option Nat} {p : Place}
variable (site : (SyntaxTree.ofRoot text k f).Site around p k' inner)
include site

theorem tokenSpan_of_site {i : Nat} (first : p.token ≤ i) (last : i < p.token + inner.tokenCount) :
    (SyntaxTree.ofRoot text k f).tokenSpan i =
      ⟨(ofRoot text k f).tokenStart (i + 1), (ofRoot text k f).tokenStop (i + 1)⟩ := by
  have root := SyntaxTree.ofRoot_rooted text k f
  refine ofRoot_tokenSpan (root.mem_tokensOf_zero.mp (root.tokensOf_subset site ?_))
  rw [site.tokensOf, List.mem_range'_1]
  exact ⟨first, last⟩

theorem seek_of_site {o passed : Nat} (le : passed ≤ inner.tokenCount)
    (ended : ∀ i, p.token ≤ i → i < p.token + passed →
      ((SyntaxTree.ofRoot text k f).tokenSpan i).stop ≤ o)
    (later : ∀ i, p.token + passed ≤ i → i < p.token + inner.tokenCount →
      o < ((SyntaxTree.ofRoot text k f).tokenSpan i).stop) :
    Stretch.seek (fun j => (ofRoot text k f).tokenStop j ≤ o)
      ⟨p.token + 1, p.token + inner.tokenCount + 1⟩ = p.token + passed + 1 := by
  -- An index that is looked at is that of a token of the node, so never the seed's.
  refine Stretch.seek_eq (by simp only; omega) (by simp only; omega) ?_ ?_
  · rintro (_ | j) first last
    · cases first
    simp only at first
    simpa [tokenSpan_of_site site (i := j) (by omega) (by omega)] using
      ended j (by omega) (by omega)
  · rintro (_ | j) first last
    · omega
    simp only at last
    simpa [tokenSpan_of_site site (i := j) (by omega) (by omega)] using
      later j (by omega) (by omega)

end Sites

variable {text : Text} {k : Kind} {f : Forest}

theorem ofRoot_tokensAt {n : Nat} (lies : n < 1 + f.nodeCount) (o : Nat) :
    (ofRoot text k f).tokensAt n o = ((SyntaxTree.ofRoot text k f).tokensAt n o).map (· + 1) := by
  obtain ⟨around, p, k', inner, rfl, site, -⟩ := (SyntaxTree.ofRoot_rooted text k f).exists_site lies
  obtain ⟨passed, le, ended, later, found⟩ := site.exists_passed o
  have start : ((SyntaxTree.ofRoot text k f).node p.node).tokenStart = p.token := by
    rw [site.data]
    rfl
  have stretch : ((ofRoot text k f).nodes.getD p.node default).tokens =
      ⟨p.token + 1, p.token + inner.tokenCount + 1⟩ := by
    rw [ofRoot_tokens lies, site.data]
    rfl
  simp only [tokensAt, stretch, seek_of_site site le ended later, SyntaxTree.tokensAt, found, start]
  by_cases all : passed = inner.tokenCount
  · simp [all, Touching.map]
  rw [if_neg all, if_neg (by omega)]
  simp only [tokenSpan_of_site site (i := p.token + passed) (by omega) (by omega)]
  split
  · rfl
  -- What is left is the choice between one token and two, with all indices one higher.
  by_cases touched : p.token < p.token + passed ∧
      (ofRoot text k f).tokenStart (p.token + passed + 1) = o
  · rw [if_pos touched, if_pos ⟨Nat.succ_lt_succ touched.1, touched.2⟩, Touching.map]
    congr 1
    omega
  · rw [if_neg touched, if_neg fun both => touched ⟨Nat.lt_of_succ_lt_succ both.1, both.2⟩]
    rfl

end Arena

namespace SyntaxTree

theorem ofRoot_stop_eq_start {text : Text} {k : Kind} {f : Forest} {i : Nat}
    (less : i + 1 < f.tokenCount) :
    ((ofRoot text k f).tokenSpan i).stop = ((ofRoot text k f).tokenSpan (i + 1)).start := by
  rw [Arena.ofRoot_tokenSpan less, Arena.ofRoot_tokenSpan (Nat.lt_of_succ_lt less)]
  rfl

variable {t : SyntaxTree} {around : Option Nat} {p : Place} {k : Kind} {inner : Forest}

section Sites

variable (site : t.Site around p k inner)
include site

theorem Site.firstToken?_ne {i : Nat} (own : i ∈ t.tokensOf p.node) :
    t.firstToken? p.node ≠ some i ↔ p.token < i := by
  rw [firstToken?, site.tokensOf, List.head?_range']
  rw [site.tokensOf, List.mem_range'_1] at own
  rw [if_neg (by omega), ne_eq, Option.some_inj]
  omega

theorem Site.tokensAt_of_hasByte {i o : Nat} (own : i ∈ t.tokensOf p.node)
    (byte : (t.tokenSpan i).HasByte o) :
    t.tokensAt p.node o =
      if (t.tokenSpan i).start = o ∧ t.firstToken? p.node ≠ some i then .between (i - 1) i
      else .single i := by
  have start : (t.node p.node).tokenStart = p.token := by rw [site.data]; rfl
  -- Both answers that are not empty name the token that begins there on the right.
  have right := site.tokensAt_eq own byte
  simp only [site.firstToken?_ne own]
  rw [tokensAt] at right ⊢
  cases found : (t.tokensOf p.node).find? fun j => o < (t.tokenSpan j).stop with
  | none => simp [found, Touching.right?] at right
  | some j =>
      simp only [found] at right ⊢
      have same : j = i := by
        split at right
        · cases right
        · split at right <;> exact Option.some.inj right
      rw [same, if_neg (Nat.not_lt.mpr byte.1), start]
      simp only [and_comm]

theorem Site.pred_mem {i : Nat} (own : i ∈ t.tokensOf p.node) (behind : t.firstToken? p.node ≠ some i) :
    i - 1 ∈ t.tokensOf p.node ∧ t.previousToken? i = some (i - 1) := by
  rw [site.firstToken?_ne own] at behind
  rw [site.tokensOf, List.mem_range'_1] at own ⊢
  exact ⟨by omega, if_neg (by omega)⟩

theorem Site.tokensAt_none {o : Nat} :
    t.tokensAt p.node o = .none ↔ o < (t.span p.node).start ∨ (t.span p.node).stop ≤ o := by
  constructor
  · intro none
    by_contra inside
    obtain ⟨i, own, byte⟩ := site.exists_token (o := o) (by unfold Span.HasByte; omega)
    have right := site.tokensAt_eq own byte
    simp [none, Touching.right?] at right
  · rintro (front | past)
    · rw [tokensAt]
      split
      · rfl
      · next i found =>
          have own := List.mem_of_find?_eq_some found
          have starts := (Span.contains_iff _ _).mp (site.contains_token own)
          rw [if_pos (Nat.lt_of_lt_of_le front starts.1)]
    · have right := site.tokensAt_end past
      cases touching : t.tokensAt p.node o with
      | none => rfl
      | single i => simp [touching, Touching.right?] at right
      | between i j => simp [touching, Touching.right?] at right

theorem Site.mem_of_tokensAt {i o : Nat}
    (answer : (t.tokensAt p.node o).left? = some i ∨ (t.tokensAt p.node o).right? = some i) :
    i ∈ t.tokensOf p.node := by
  by_cases outside : t.tokensAt p.node o = .none
  · simp [outside, Touching.left?, Touching.right?] at answer
  rw [site.tokensAt_none, not_or, Nat.not_lt, Nat.not_le] at outside
  obtain ⟨j, own, byte⟩ := site.exists_token outside
  rw [site.tokensAt_of_hasByte own byte] at answer
  split at answer
  · next edge =>
      rcases answer with left | right
      · cases left
        exact (site.pred_mem own edge.2).1
      · cases right
        exact own
  · rcases answer with both | both
    all_goals
      cases both
      exact own

end Sites

/-- In a built tree nothing touches an offset that is outside a node. Any other one is a byte of one token
of the node, and where that token begins there and is not the first one, the token before it touches the
offset too. Both are tokens of the node, and halving finds them. -/
theorem tokensAt_touching {text : Text} {events : List TreeEvent}
    (built : Assembly.run text events = .ok t) {n : Nat} (lies : n < t.nodes.size) (o : Nat) :
    (t.tokensAt n o = .none ↔ o < (t.span n).start ∨ (t.span n).stop ≤ o) ∧
      ((t.span n).start ≤ o → o < (t.span n).stop →
        ∃ i ∈ t.tokensOf n, (t.tokenSpan i).HasByte o ∧
          (∀ j ∈ t.tokensOf n, (t.tokenSpan j).HasByte o → j = i) ∧
          if (t.tokenSpan i).start = o ∧ t.firstToken? n ≠ some i then
            ∃ j ∈ t.tokensOf n, t.previousToken? i = some j ∧ (t.tokenSpan j).stop = o ∧
              t.tokensAt n o = .between j i
          else t.tokensAt n o = .single i) ∧
      (∀ i, (t.tokensAt n o).left? = some i ∨ (t.tokensAt n o).right? = some i → i ∈ t.tokensOf n) ∧
      ∃ a, ArenaBuilder.run text events = .ok a ∧ a.tree = t ∧
        a.tokensAt n o = (t.tokensAt n o).map (· + 1) := by
  obtain ⟨rootKind, f, rfl, rfl, isNode, sorted, fits, numbered⟩ := Assembly.root_of_run built
  have root := ofRoot_rooted text rootKind f
  rw [ofRoot_nodes_size] at lies
  obtain ⟨around, p, k, inner, rfl, site, -⟩ := root.exists_site lies
  refine ⟨site.tokensAt_none, fun first last => ?_, fun i => site.mem_of_tokensAt, ?_⟩
  · obtain ⟨i, own, byte⟩ := site.exists_token ⟨first, last⟩
    refine ⟨i, own, byte, fun j own' byte' => ?_, ?_⟩
    · exact root.eq_of_hasByte (root.tokensOf_subset site own') (root.tokensOf_subset site own) byte' byte
    rw [site.tokensAt_of_hasByte own byte]
    split
    · next edge =>
        obtain ⟨own', previous⟩ := site.pred_mem own edge.2
        have after := (site.firstToken?_ne own).mp edge.2
        have meets := @ofRoot_stop_eq_start text rootKind f (i - 1)
          (by have := root.mem_tokensOf_zero.mp (root.tokensOf_subset site own); omega)
        rw [Nat.sub_add_cancel (by omega), edge.1] at meets
        exact ⟨i - 1, own', previous, meets, rfl⟩
    · rfl
  · exact ⟨.ofRoot text rootKind f, ArenaBuilder.run_root isNode sorted fits numbered,
      Arena.ofRoot_tree text rootKind f, Arena.ofRoot_tokensAt lies o⟩

-- A token between spaces in a node, and an empty one in a node before the last token.
theorem tokensAt_touching_empty :
    let text := [' ', 'a', ' ', ';']
    let name : Leaf := ⟨[⟨.whitespace, 1⟩], .ident, 1, [⟨.whitespace, 1⟩]⟩
    let empty : Leaf := ⟨[], .unknown, 0, []⟩
    let semicolon : Leaf := ⟨[], .semicolon, 1, []⟩
    let events := [.openNode .exprStmt, .openNode .path, .token name, .closeNode, .openNode .error,
      .token empty, .closeNode, .token semicolon, .closeNode]
    let t := SyntaxTree.ofRoot text .exprStmt
      (.node .path (.leaf name .nil) (.node .error (.leaf empty .nil) (.leaf semicolon .nil)))
    Assembly.run text events = .ok t ∧ t.tokensAt 1 3 = .none ∧ t.tokensAt 2 3 = .none ∧
      (∃ i ∈ t.tokensOf 0, (t.tokenSpan i).HasByte 3 ∧
        ∃ j ∈ t.tokensOf 0, t.previousToken? i = some j ∧ (t.tokenSpan j).stop = 3 ∧
          t.tokensAt 0 3 = .between j i) ∧
      ∃ a, ArenaBuilder.run text events = .ok a ∧ a.tree = t ∧
        a.tokensAt 1 1 = (t.tokensAt 1 1).map (· + 1) ∧ t.tokensAt 1 1 = .between 0 1 := by
  intro text name empty semicolon events t
  have built : Assembly.run text events = .ok t := rfl
  obtain ⟨out, -⟩ := tokensAt_touching built (n := 1) (by decide) 3
  obtain ⟨out', -⟩ := tokensAt_touching built (n := 2) (by decide) 3
  obtain ⟨-, inside, -⟩ := tokensAt_touching built (n := 0) (by decide) 3
  obtain ⟨-, -, -, a, filled, kept, halved⟩ := tokensAt_touching built (n := 1) (by decide) 1
  refine ⟨built, out.mpr (.inr (by decide)), out'.mpr (.inr (by decide)), ?_, a, filled, kept, halved,
    by decide +kernel⟩
  obtain ⟨i, own, byte, only, touching⟩ := inside (by decide) (by decide)
  have last : 4 = i := only 4 (by decide) (by unfold Span.HasByte; decide)
  subst last
  exact ⟨4, own, byte, touching⟩

end SyntaxTree

end LosslessTree
