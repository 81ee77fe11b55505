import LosslessTree.Proofs.Grammar.Certifying
import LosslessTree.Proofs.Tree.Resolving
import LosslessTree.Proofs.View.Arranged

/-!
# Nodes around the same tokens

A node that is the only element of another one has the same tokens. Going inwards through such nodes
the kinds have lower and lower ranks, so a kind comes once at most, and its address tells a node from
all others.
-/

set_option autoImplicit false

namespace LosslessTree

namespace Form

def singles : Form Empty → List Kind
  | empty => []
  | oneOf kinds => kinds
  | symbol s => s.elim
  | seq a b => (if b.nullable then a.singles else []) ++ if a.nullable then b.singles else []
  | alt a b => a.singles ++ b.singles
  | many a => a.singles

theorem Derives.nullable {f : Form Empty} {env : Empty → Form Empty} (h : Derives env f []) :
    f.nullable = true := by
  by_contra full
  exact h.ne_nil (Bool.eq_false_iff.mpr full) rfl

theorem Derives.mem_singles {f : Form Empty} {env : Empty → Form Empty} {w : List Kind} {k : Kind}
    (h : Derives env f w) (one : w = [k]) : k ∈ f.singles := by
  induction h with
  | empty | none => cases one
  | oneOf mem =>
      obtain rfl := List.singleton_inj.mp one
      exact mem
  | @symbol s => exact s.elim
  | left _ ih => exact List.mem_append_left _ (ih one)
  | right _ ih => exact List.mem_append_right _ (ih one)
  | seq ha hb iha ihb =>
      rcases List.append_eq_singleton_iff.mp one with ⟨rfl, rfl⟩ | ⟨rfl, rfl⟩
      · simp [singles, ha.nullable, ihb rfl]
      · simp [singles, hb.nullable, iha rfl]
  | more ha hm iha ihm =>
      rcases List.append_eq_singleton_iff.mp one with ⟨rfl, rfl⟩ | ⟨rfl, rfl⟩
      · exact ihm rfl
      · exact iha rfl

end Form

-- How far out a node of the kind stands among nodes with the same tokens.
def Kind.rank : Kind → Nat
  | error => 4
  | exprStmt => 3
  | pathExpr | pathType | param => 2
  | path | identPat | literalPat | field => 1
  | _ => 0

def Kind.Falls (measure : Kind → Nat) : Prop :=
  ∀ k k' : Kind, k'.isNode = true → (k.shape true).Matches [k'] → (k = .error → k' ≠ .error) →
    measure k' < measure k

theorem Kind.falls_of_singles {measure : Kind → Nat}
    (singles : ∀ k, k ≠ .error → ∀ k' ∈ (k.shape true).singles, k'.isNode = true → measure k' < measure k)
    (errors : ∀ k', k' ≠ .error → measure k' < measure .error) : Kind.Falls measure := by
  intro k k' isNode one apart
  by_cases error : k = .error
  · exact error ▸ errors k' (apart error)
  · exact singles k error k' (one.mem_singles rfl) isNode

theorem Kind.rank_falls : Kind.Falls rank :=
  falls_of_singles (fun k apart => by revert apart; cases k <;> decide) fun k' other => by
    revert other
    cases k' <;> decide

namespace Forest

def Simple (f : Forest) : Prop := ∀ inner, f.HasNode .error inner → inner.tops ≠ [.error]

-- A node has fewer tokens than a forest around it, unless only nodes of its value or of higher
-- ones are in between.
theorem Shaped.measure_le {measure : Kind → Nat} (falls : Kind.Falls measure) {f : Forest}
    (shaped : f.Shaped true) (simple : f.Simple) {k : Kind} {within : Forest} (has : f.HasNode k within) :
    within.leaves.length < f.leaves.length ∨
      ∃ k', f.tops = [k'] ∧ k'.isNode = true ∧ measure k ≤ measure k' := by
  induction f with
  | nil => exact has.elim
  | leaf l rest ih =>
      have fits : within.leaves.length ≤ rest.leaves.length :=
        (HasNode.leaves_sublist (f := rest) has).length_le
      left
      simp only [leaves, List.length_cons]
      omega
  | node k' inner rest hi hr =>
      obtain ⟨isNode, fits, below, behind⟩ := shaped
      have some_ := List.length_pos_iff.mpr (below.leaves_ne_nil (fits.ne_nil (Kind.shape_full isNode)))
      simp only [leaves, List.length_append]
      by_cases alone : rest.tops = []
      · obtain rfl := eq_nil_of_tops alone
        rcases has with ⟨rfl, rfl⟩ | has | has
        · exact .inr ⟨_, rfl, isNode, Nat.le_refl _⟩
        · rcases hi below (fun w h => simple w (.inr (.inl h))) has with
            fewer | ⟨k'', single, isNode', le⟩
          · exact .inl (by simpa [leaves] using fewer)
          · rw [single] at fits
            have lt := falls k' k'' isNode' fits (by
              rintro rfl rfl
              exact simple inner (.inl ⟨rfl, rfl⟩) single)
            exact .inr ⟨k', rfl, isNode, by omega⟩
        · exact has.elim
      · have more := List.length_pos_iff.mpr (behind.leaves_ne_nil alone)
        left
        rcases has with ⟨rfl, rfl⟩ | has | has
        · omega
        · have := has.leaves_sublist.length_le
          omega
        · have := has.leaves_sublist.length_le
          omega

theorem Shaped.fewer {measure : Kind → Nat} (falls : Kind.Falls measure) {k k' : Kind}
    {inner within : Forest} (fits : (k.shape true).Matches inner.tops) (shaped : inner.Shaped true)
    (simple : (Forest.node k inner .nil).Simple) (has : inner.HasNode k' within)
    (high : measure k ≤ measure k') : within.leaves.length < inner.leaves.length := by
  rcases shaped.measure_le falls (fun w h => simple w (.inr (.inl h))) has with
    fewer | ⟨k'', single, isNode, le⟩
  · exact fewer
  · rw [single] at fits
    have lt := falls k k'' isNode fits (by
      rintro rfl rfl
      exact simple inner (.inl ⟨rfl, rfl⟩) single)
    omega

theorem HasNode.trans {f inner within : Forest} {k k' : Kind} (h : f.HasNode k inner)
    (h' : inner.HasNode k' within) : f.HasNode k' within := by
  induction f with
  | nil => exact h.elim
  | leaf l rest ih => exact ih h
  | node kind below rest hi hr =>
      rcases h with ⟨rfl, rfl⟩ | h | h
      · exact .inr (.inl h')
      · exact .inr (.inl (hi h))
      · exact .inr (.inr (hr h))

theorem Each.of_hasNode {P : List Token → Kind → Forest → Prop} {f inner : Forest} {k : Kind}
    {tokens : List Token} (each : f.Each P tokens) (h : f.HasNode k inner) :
    ∃ behind, P behind k inner := by
  induction f generalizing tokens with
  | nil => exact h.elim
  | leaf l rest ih => exact ih each h
  | node kind below rest hi hr =>
      obtain ⟨here, below, behind⟩ := each
      rcases h with ⟨rfl, rfl⟩ | h | h
      · exact ⟨_, here⟩
      · exact hi below h
      · exact hr behind h

end Forest

theorem Forest.outer_of_tops {p : Kind → Prop} {f : Forest} (h : ∀ k ∈ f.tops, p k) : f.Outer p := by
  induction f with
  | nil => trivial
  | leaf l rest ih => exact ih fun k mem => h k (List.mem_cons_of_mem _ mem)
  | node k inner rest _ ih =>
      exact ⟨h k List.mem_cons_self, ih fun k' mem => h k' (List.mem_cons_of_mem _ mem)⟩

theorem judged_simple (told : List Diagnostic) (eof : Token) :
    Judged told eof fun _ k inner => k = .error → inner.Outer (· ≠ .error) where
  other := by
    rintro _ free _ _ rfl
    cases free
  made := by
    rintro m _ _ _ _ isKind - - - rfl
    cases m <;> cases isKind
  skipped _ _ _ := Forest.outer_taken
  unfinished _ _ front _ _ := Forest.outer_of_tops fun k mem => by
    rcases front k mem with rfl | rfl <;> decide

namespace TokenStream

variable (text : Text)

theorem parts_plain :
    ∀ l ∈ ((ofText text).run .file).parts.leaves, l.kind.isNode = false ∧ l.kind ≠ .eof := by
  intro l mem
  have kept := (ofText text).run_keeps Rule.file
  have inside : l ∈ (ofText text).tokens.map Token.leaf := by
    rw [kept]
    exact List.mem_append_left _ mem
  obtain ⟨t, inStream, rfl⟩ := List.mem_map.mp inside
  exact ⟨ofText_plain text t inStream, (ofText_lexed text t inStream).ne_eof⟩

theorem parts_simple : ((ofText text).run .file).parts.Simple := by
  intro inner has single
  have each := (run_certified (judged_simple _ _) (ofText_eof text) (ofText_plain text)
    (List.Subset.refl _)).parts
  obtain ⟨_, outer⟩ := each.of_hasNode has
  obtain ⟨within, rest, rfl, -⟩ := Forest.eq_node_of_tops
    (fun l mem => (parts_plain text l (has.leaves_sublist.subset mem)).1) single rfl
  exact (outer rfl).1 rfl

end TokenStream

namespace Forest

theorem Shaped.node_of_hasNode {f : Forest} (h : f.Shaped true) {k : Kind} {inner : Forest}
    (has : f.HasNode k inner) : (Forest.node k inner .nil).Shaped true := by
  induction f with
  | nil => exact has.elim
  | leaf l rest ih => exact ih h has
  | node k' inner' rest hi hr =>
      obtain ⟨isNode, fits, below, behind⟩ := h
      rcases has with ⟨rfl, rfl⟩ | has | has
      · exact ⟨isNode, fits, below, trivial⟩
      · exact hi below has
      · exact hr behind has

theorem Shaped.exists_leaf {f : Forest} (h : f.Shaped true) {k : Kind} (isToken : k.isNode = false)
    (mem : k ∈ f.tops) : ∃ l ∈ f.leaves, l.kind = k := by
  induction f with
  | nil => cases mem
  | leaf l rest ih =>
      rcases List.mem_cons.mp mem with rfl | mem
      · exact ⟨l, List.mem_cons_self, rfl⟩
      · obtain ⟨l', inside, is⟩ := ih h mem
        exact ⟨l', List.mem_cons_of_mem _ inside, is⟩
  | node k' inner rest _ hr =>
      obtain ⟨isNode, -, -, behind⟩ := h
      rcases List.mem_cons.mp mem with rfl | mem
      · rw [isNode] at isToken
        cases isToken
      · obtain ⟨l, inside, is⟩ := hr behind mem
        exact ⟨l, List.mem_append_right _ inside, is⟩

end Forest

section

variable {text : Text}

theorem parse_rooted (text : Text) :
    (parse text).tree.Rooted .sourceFile (TokenStream.ofText text).forest :=
  SyntaxTree.ofRoot_rooted text .sourceFile _

theorem parse_nodes_size (text : Text) : (parse text).tree.nodes.size =
    1 + ((TokenStream.ofText text).run .file).parts.nodeCount := by
  rw [nodes_size_parse, TokenStream.forest, Forest.nodeCount_append]
  rfl

theorem parse_inner_site {n : Nat} (below : 0 < n) (h : n < (parse text).tree.nodes.size) :
    ∃ around p k inner, p.node = n ∧ (parse text).tree.Site around p k inner ∧
      k ≠ .sourceFile ∧ inner.leaves ≠ [] ∧ (∀ l ∈ inner.leaves, l.Solid) ∧
        ∀ measure, Kind.Falls measure → ∀ k' within, inner.HasNode k' within → measure k ≤ measure k' →
          within.leaves.length < inner.leaves.length := by
  rw [parse_nodes_size] at h
  have covers := SyntaxTree.parse_covers text
  obtain ⟨around, p, k, inner, at_, site, has⟩ :=
    covers.carries.embeds.exists_site (n := n) below h
  have shaped := (TokenStream.run_file text).shaped
  obtain ⟨isNode, fits, within, -⟩ := shaped.node_of_hasNode has
  have inside : ∀ l ∈ inner.leaves, l ∈ ((TokenStream.ofText text).run .file).parts.leaves :=
    fun l mem => has.leaves_sublist.subset mem
  refine ⟨around, p, k, inner, at_, site, ?_, ?_, ?_, ?_⟩
  · rintro rfl
    -- A file ends with the token that ends the text, which no part of it holds.
    have last : Kind.eof ∈ inner.tops := by
      obtain ⟨u, v, rows, -, fits⟩ := Form.derives_row_cons.mp fits
      obtain ⟨u', v', rows', -, fits⟩ := Form.derives_row_cons.mp fits
      rw [rows, rows', Form.derives_token.mp fits]
      simp
    obtain ⟨l, mem, is⟩ := within.exists_leaf rfl last
    exact (TokenStream.parts_plain text l (inside l mem)).2 is
  · exact within.leaves_ne_nil (fits.ne_nil (Kind.shape_full isNode))
  · exact fun l mem => covers.solid (TokenStream.ofText_lexed text) l (inside l mem)
  · refine fun measure falls k' w has' => within.fewer falls fits (fun w' has'' => ?_) has'
    refine TokenStream.parts_simple text w' ?_
    rcases has'' with ⟨rfl, rfl⟩ | has'' | has''
    · exact has
    · exact has.trans has''
    · exact has''.elim

theorem parse_resolve {n : Nat} (h : n < (parse text).tree.nodes.size) :
    (parse text).tree.resolve? 0 ((parse text).tree.address n) = some n := by
  have root := parse_rooted text
  rcases Nat.eq_zero_or_pos n with rfl | below
  · refine root.resolve_root fun m mem => ?_
    obtain ⟨first, last⟩ := root.site.mem_descendants.mp mem
    have lies : m < (parse text).tree.nodes.size := by
      rw [nodes_size_parse]
      simpa using last
    obtain ⟨_, p, k, inner, rfl, site, other, -⟩ := parse_inner_site first lies
    rwa [site.kind]
  · obtain ⟨_, p, k, inner, rfl, site, -, some_, solid, fewer⟩ := parse_inner_site below h
    refine SyntaxTree.resolve_eq_ok (root.resolve site solid some_ fun within has => ?_)
    exact fewer _ Kind.rank_falls k within has (Nat.le_refl _)

/-- Every node is what its address leads to in the tree of the text, so no other node has its address,
and it is on the way out from where the search for its bytes ends. -/
theorem parse_resolves {n : Nat} (h : n < (parse text).tree.nodes.size) :
    (parse text).tree.resolve? 0 ((parse text).tree.address n) = some n ∧
      (∀ m < (parse text).tree.nodes.size,
        (parse text).tree.address m = (parse text).tree.address n → m = n) ∧
      ∃ m, (parse text).tree.innermostNode 0 ((parse text).tree.trimmedSpan n) = .ok m ∧
        n ∈ (parse text).tree.ancestors m := by
  have found := parse_resolve h
  refine ⟨found, fun m inside same => ?_, SyntaxTree.innermost_of_resolve found⟩
  have other := parse_resolve inside
  rw [same, found] at other
  exact (Option.some.inj other).symm

-- Around a name that is an expression stand three nodes, in a block that is not closed.
theorem parse_resolves_name :
    let t := (parse ['f', 'n', ' ', 'f', '(', ')', '\x7b', ' ', 'a']).tree
    (7 < t.nodes.size ∧ [5, 6, 7].map t.trimmedSpan = [⟨8, 9⟩, ⟨8, 9⟩, ⟨8, 9⟩]) ∧
      t.resolve? 0 (t.address 6) = some 6 ∧
        (∀ m < t.nodes.size, t.address m = t.address 6 → m = 6) ∧
          ∃ m, t.innermostNode 0 (t.trimmedSpan 6) = .ok m ∧ 6 ∈ t.ancestors m :=
  ⟨by decide +kernel, parse_resolves (by decide +kernel)⟩

end

end LosslessTree
