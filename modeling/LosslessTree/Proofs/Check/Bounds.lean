import LosslessTree.Command
import LosslessTree.Proofs.Grammar.Reporting
import LosslessTree.Proofs.Token.Tiling
import LosslessTree.Proofs.Tree.Nesting
import LosslessTree.Proofs.Tree.Numbering

set_option autoImplicit false

namespace LosslessTree

/-- The characters that a span covers; none if the span is reversed, goes past the end of the text or
cuts through a character. -/
def Text.slice? (t : Text) (s : Span) : Option Text :=
  if s.start ≤ s.stop ∧ t.isBoundary s.start = true ∧ t.isBoundary s.stop = true then some (t.slice s)
  else none

structure Span.Fits (text : Text) (s : Span) : Prop where
  ordered : s.start ≤ s.stop
  inside : s.stop ≤ text.byteLength
  first : text.isBoundary s.start = true
  last : text.isBoundary s.stop = true

namespace Span

variable {text : Text} {s : Span}

theorem fits_of_boundaries (ordered : s.start ≤ s.stop) (first : text.isBoundary s.start = true)
    (last : text.isBoundary s.stop = true) : s.Fits text :=
  ⟨ordered, Assembly.le_byteLength_of_isBoundary last, first, last⟩

theorem Fits.between {s' : Span} (low : s.Fits text) (high : s'.Fits text)
    (order : s.start ≤ s'.stop) : Fits text ⟨s.start, s'.stop⟩ :=
  ⟨order, high.inside, low.first, high.last⟩

theorem Fits.slice? (h : s.Fits text) : text.slice? s = some (text.slice s) :=
  if_pos ⟨h.ordered, h.first, h.last⟩

end Span

-- An index of the lines of a text. It has a position for every offset at which the text can be cut.
structure Text.IsIndex (t : Text) (find : Nat → Option Position) : Prop where
  finds : ∀ offset ≤ t.byteLength, t.isBoundary offset = true → (find offset).isSome = true

-- The offsets of which a request wants the positions.
def SourceFile.lookups (f : SourceFile) : Request → List Nat
  | .dump => []
  | .check => f.check.map fun d => d.span.start
  | .outline => f.outline.map fun e => e.span.start
  | .query kind =>
      match KindSet.lookUp kind with
      | .ok kinds =>
          (Command.matching f.parse.tree kinds).map fun n => (f.parse.tree.trimmedSpan n).start
      | .error _ => []

theorem Piece.layout_loose {parent offset j : Nat} {pieces : List Piece} {d : TokenData}
    (h : (Piece.layout parent offset pieces)[j]? = some d) : d.leading = 0 ∧ d.trailing = 0 := by
  induction pieces generalizing offset j with
  | nil => simp [Piece.layout] at h
  | cons p pieces ih =>
      cases j with
      | zero =>
          obtain rfl := Option.some.inj h
          exact ⟨rfl, rfl⟩
      | succ j => exact ih h

theorem Leaf.layout_attached {parent offset j : Nat} {l : Leaf} {d : TokenData}
    (h : (l.layout parent offset)[j]? = some d) : d.leading ≤ j ∧ j + d.trailing < l.tokenCount := by
  have inside : j < l.tokenCount := by
    rw [← Leaf.layout_length parent offset l]
    exact (List.getElem?_eq_some_iff.mp h).1
  rw [Leaf.layout, List.getElem?_append, Piece.layout_length] at h
  split at h
  · have := Piece.layout_loose h
    omega
  · cases at_ : j - l.leading.length with
    | zero =>
        rw [at_] at h
        obtain rfl := Option.some.inj h
        simp only [Leaf.tokenCount]
        omega
    | succ k =>
        rw [at_, List.getElem?_cons_succ] at h
        have := Piece.layout_loose h
        omega

theorem Forest.layout_attached {parent j : Nat} {p : Place} {f : Forest} {d : TokenData}
    (h : (f.layout parent p).tokens[j]? = some d) : d.leading ≤ j ∧ j + d.trailing < f.tokenCount := by
  induction f generalizing parent p j with
  | nil => simp [Forest.layout] at h
  | leaf l rest ih =>
      simp only [Forest.layout, List.getElem?_append, Leaf.layout_length] at h
      simp only [Forest.tokenCount]
      split at h
      · have := Leaf.layout_attached h
        omega
      · have := ih h
        omega
  | node k inner rest hi hr =>
      simp only [Forest.layout, List.getElem?_append, Forest.layout_tokens_length] at h
      simp only [Forest.tokenCount]
      split at h
      · have := hi h
        omega
      · have := hr h
        omega

namespace SyntaxTree

open TokenStream

variable {text : Text}

theorem Carries.boundary {t : SyntaxTree} {parent : Nat} {p : Place} {f : Forest} {tokens : List Token}
    (h : t.Carries parent p f tokens) : t.text.isBoundary p.offset = true := by
  obtain ⟨before, after, split, offset⟩ := h.text
  exact (Text.isBoundary_iff _ _).mpr ⟨before, _, split, offset⟩

theorem fits_tokenSpan {i : Nat} (mem : i ∈ (parse text).tree.tokensOf 0) :
    ((parse text).tree.tokenSpan i).Fits text := by
  have placed : (parse text).tree.placedToken i ∈ (ofText text).all.flatMap Token.placed := by
    rw [← map_placedToken_parse]
    exact List.mem_map_of_mem mem
  obtain ⟨t, inside, laid⟩ := List.mem_flatMap.mp placed
  obtain ⟨first, last⟩ := boundaries_placed inside laid
  have root := parse_rooted text
  rw [root.site.tokensOf] at mem
  exact Span.fits_of_boundaries (root.site.within.token_within mem).2.2 first last

theorem mem_tokensOf_root {i : Nat} :
    i ∈ (parse text).tree.tokensOf 0 ↔ i < (parse text).tree.tokens.size := by
  have whole : (parse text).tree.tokensOf 0 = List.range' 0 (parse text).tree.tokens.size :=
    tokensOf_ofRoot _ _ _
  rw [whole, List.mem_range'_1]
  omega

theorem fits_between {i j : Nat} (le : i ≤ j) (there : j ∈ (parse text).tree.tokensOf 0) :
    Span.Fits text ⟨((parse text).tree.tokenSpan i).start, ((parse text).tree.tokenSpan j).stop⟩ := by
  have here : i ∈ (parse text).tree.tokensOf 0 := by
    rw [mem_tokensOf_root] at there ⊢
    omega
  have low := fits_tokenSpan here
  have high := fits_tokenSpan there
  apply low.between high
  rcases Nat.lt_or_eq_of_le le with less | rfl
  · exact low.ordered.trans (((parse_rooted text).stop_le_start less there).trans high.ordered)
  · exact low.ordered

theorem fits_attachedSpan {i : Nat} (mem : i ∈ (parse text).tree.tokensOf 0) :
    ((parse text).tree.attachedSpan i).Fits text := by
  rw [mem_tokensOf_root] at mem
  have laid : ((ofText text).forest.layout 0 ⟨1, 0, 0⟩).tokens[i]? =
      some ((parse text).tree.token i) := by
    rw [token, Array.getD_eq_getD_getElem?, Array.getElem?_eq_getElem mem, Option.getD_some,
      ← Array.getElem_toList, ← List.getElem?_eq_getElem]
    rfl
  obtain ⟨lead, trail⟩ := Forest.layout_attached laid
  have size : (parse text).tree.tokens.size = (ofText text).forest.tokenCount :=
    ofRoot_tokens_size _ _ _
  refine fits_between (by omega) ?_
  rw [mem_tokensOf_root, size]
  exact trail

theorem node_of_size_le {t : SyntaxTree} {n : Nat} (past : t.nodes.size ≤ n) : t.node n = default := by
  rw [node, Array.getD_eq_getD_getElem?, Array.getElem?_eq_none past, Option.getD_none]

theorem fits_zero : (Span.empty 0).Fits text :=
  Span.fits_of_boundaries (Nat.le_refl _) (by cases text <;> rfl) (by cases text <;> rfl)

theorem fits_span (text : Text) (n : Nat) : ((parse text).tree.span n).Fits text := by
  by_cases lies : n < (parse text).tree.nodes.size
  · by_cases top : n = 0
    · have whole : (parse text).tree.span 0 = ⟨0, 0 + text.byteLength⟩ := by
        rw [← forest_byteLength]
        exact (parse_rooted text).site.span
      rw [top, whole, Nat.zero_add]
      refine Span.fits_of_boundaries (Nat.zero_le _) fits_zero.first ?_
      exact (Text.isBoundary_iff _ _).mpr ⟨text, [], (List.append_nil _).symm, rfl⟩
    · rw [parse_nodes_size] at lies
      obtain ⟨parent, q, k, inner, rest, behind, rfl, -, covers⟩ :=
        (parse_covers text).exists_site (Forest.each_suffix (List.suffix_refl _)) (n := n)
          (Nat.pos_of_ne_zero top) lies
      obtain ⟨site, -, past⟩ := covers.node
      rw [site.span]
      exact Span.fits_of_boundaries (Nat.le_add_right _ _) covers.carries.boundary
        past.carries.boundary
  · rw [span, node_of_size_le (Nat.le_of_not_lt lies)]
    exact fits_zero

theorem tokensOf_subset_root (n : Nat) : (parse text).tree.tokensOf n ⊆ (parse text).tree.tokensOf 0 := by
  by_cases lies : n < (parse text).tree.nodes.size
  · have root := parse_rooted text
    have size := nodes_size_parse text
    obtain ⟨around, q, k, inner, rfl, site, -⟩ := root.exists_site (lies.trans_eq size)
    exact root.tokensOf_subset site
  · rw [tokensOf, node_of_size_le (Nat.le_of_not_lt lies)]
    exact List.nil_subset _

theorem fits_trimmedSpan (text : Text) (n : Nat) : ((parse text).tree.trimmedSpan n).Fits text := by
  rw [trimmedSpan]
  split
  · next first last head final =>
      have high := List.mem_of_getLast? final
      have le : first ≤ last := ((mem_significantTokens head final).mp high).1.1
      exact fits_between le (tokensOf_subset_root n (List.mem_filter.mp high).1)
  · have start := (fits_span text n).first
    exact Span.fits_of_boundaries (Nat.le_refl _) start start

end SyntaxTree

theorem fits_of_error {text : Text} {e : Diagnostic} (mem : e ∈ (parse text).errors) :
    e.span.Fits text := by
  obtain ⟨t, inside, span⟩ := exists_token_of_error mem
  have laid : (t.kind, t.span) ∈ t.placed := List.mem_append_right _ List.mem_cons_self
  obtain ⟨first, last⟩ := TokenStream.boundaries_placed inside laid
  rw [span]
  exact Span.fits_of_boundaries (Nat.le_add_right _ _) first last

theorem Parse.check_cases {p : Parse} {d : Diagnostic} (mem : d ∈ p.check) :
    d ∈ p.errors ∨ ∃ n, d.span = p.tree.trimmedSpan n := by
  rw [check, List.mem_mergeSort, List.mem_append] at mem
  refine mem.imp_right fun found => ?_
  obtain ⟨scope, -, inScope⟩ := List.mem_flatMap.mp found
  obtain ⟨name, -, rfl⟩ := List.mem_map.mp inScope
  exact ⟨name.node, rfl⟩

theorem SyntaxTree.outline_span {t : SyntaxTree} {e : Outline.Entry} (mem : e ∈ t.outline) :
    ∃ n, e.span = t.trimmedSpan n := by
  have levels (bound depth : Nat) (x : View.Item t) (inside : e ∈ Outline.levels t bound depth x) :
      ∃ n, e.span = t.trimmedSpan n := by
    induction bound generalizing depth x with
    | zero => cases inside
    | succ bound ih =>
        simp only [Outline.levels, Outline.itemEntries] at inside
        split at inside
        · obtain rfl := List.mem_singleton.mp inside
          exact ⟨x.node, rfl⟩
        · rcases List.mem_cons.mp inside with rfl | inner
          · exact ⟨x.node, rfl⟩
          · obtain ⟨field, -, rfl⟩ := List.mem_map.mp inner
            exact ⟨field.node, rfl⟩
        · obtain rfl := List.mem_singleton.mp inside
          exact ⟨x.node, rfl⟩
        · obtain rfl := List.mem_singleton.mp inside
          exact ⟨x.node, rfl⟩
        · rcases List.mem_cons.mp inside with rfl | inner
          · exact ⟨x.node, rfl⟩
          · obtain ⟨item, -, deeper⟩ := List.mem_flatMap.mp inner
            exact ih _ _ deeper
  obtain ⟨item, -, inside⟩ := List.mem_flatMap.mp mem
  exact levels _ _ _ inside

namespace SourceFile

variable {f : SourceFile}

theorem fits_of_check {d : Diagnostic} (mem : d ∈ f.check) : d.span.Fits f.text := by
  rcases Parse.check_cases mem with found | ⟨n, span⟩
  · exact fits_of_error found
  · rw [span]
    exact SyntaxTree.fits_trimmedSpan f.text n

theorem fits_of_outline {e : Outline.Entry} (mem : e ∈ f.outline) : e.span.Fits f.text := by
  obtain ⟨n, span⟩ := SyntaxTree.outline_span mem
  rw [span]
  exact SyntaxTree.fits_trimmedSpan f.text n

theorem boundary_of_lookups {request : Request} {offset : Nat} (mem : offset ∈ f.lookups request) :
    f.text.isBoundary offset = true := by
  cases request with
  | dump => cases mem
  | check =>
      obtain ⟨d, found, rfl⟩ := List.mem_map.mp mem
      exact (fits_of_check found).first
  | outline =>
      obtain ⟨e, listed, rfl⟩ := List.mem_map.mp mem
      exact (fits_of_outline listed).first
  | query kind =>
      simp only [lookups] at mem
      split at mem
      · obtain ⟨n, -, rfl⟩ := List.mem_map.mp mem
        exact (SyntaxTree.fits_trimmedSpan f.text n).first
      · cases mem

theorem place_of_lookups {request : Request} {offset : Nat} (mem : offset ∈ f.lookups request) :
    ∃ p, f.position offset = .ok p ∧
      Command.place f.text offset = toString (p.line + 1) ++ ":" ++ toString (p.column + 1) := by
  have boundary := boundary_of_lookups mem
  rw [← Text.position?_isSome, Option.isSome_iff_exists] at boundary
  obtain ⟨p, found⟩ := boundary
  exact ⟨p, by rw [position, found], by rw [Command.place, found]; rfl⟩

/-- No slice and no position that a command asks for is out of bounds, whatever the text of the file is. -/
theorem offsets_fit (f : SourceFile) :
    (∀ n < f.parse.tree.nodes.size,
        (f.parse.tree.span n).Fits f.text ∧ (f.parse.tree.trimmedSpan n).Fits f.text ∧
          f.text.slice? (f.parse.tree.span n) = some (f.parse.tree.nodeText n) ∧
            f.text.slice? (f.parse.tree.trimmedSpan n) = some (f.parse.tree.trimmedText n)) ∧
      (∀ i < f.parse.tree.tokens.size,
        (f.parse.tree.attachedSpan i).Fits f.text ∧ (f.parse.tree.tokenSpan i).Fits f.text ∧
          f.text.slice? (f.parse.tree.attachedSpan i) =
              some (f.parse.tree.textAt (f.parse.tree.attachedSpan i)) ∧
            f.text.slice? (f.parse.tree.tokenSpan i) = some (f.parse.tree.tokenText i)) ∧
        (∀ d ∈ f.check, d.span.Fits f.text) ∧ (∀ e ∈ f.outline, e.span.Fits f.text) ∧
          (∀ request, ∀ offset ∈ f.lookups request,
            offset ≤ f.text.byteLength ∧ f.text.isBoundary offset = true) ∧
            ∀ find, f.text.IsIndex find → ∀ request, ∀ offset ∈ f.lookups request, (find offset).isSome = true := by
  have within {request : Request} {offset : Nat} (mem : offset ∈ f.lookups request) :
      offset ≤ f.text.byteLength ∧ f.text.isBoundary offset = true :=
    ⟨Assembly.le_byteLength_of_isBoundary (boundary_of_lookups mem), boundary_of_lookups mem⟩
  refine ⟨fun n _ => ?_, fun i lies => ?_, fun _ => fits_of_check, fun _ => fits_of_outline,
    fun _ _ => within, fun find index request offset mem => ?_⟩
  · have whole := SyntaxTree.fits_span f.text n
    have trimmed := SyntaxTree.fits_trimmedSpan f.text n
    exact ⟨whole, trimmed, whole.slice?, trimmed.slice?⟩
  · have inside := SyntaxTree.mem_tokensOf_root.mpr lies
    have attached := SyntaxTree.fits_attachedSpan inside
    have own := SyntaxTree.fits_tokenSpan inside
    exact ⟨attached, own, attached.slice?, own.slice?⟩
  · obtain ⟨inside, boundary⟩ := within mem
    exact index.finds offset inside boundary

-- An item behind a character of two bytes.
theorem offsets_fit_wide :
    let text : Text := ['é', ' ', 'm', 'o', 'd', ' ', 'm', ';']
    3 ∈ (⟨"", text⟩ : SourceFile).lookups .outline ∧ (text.position? 3).isSome = true := by
  intro text
  have listed : 3 ∈ (⟨"", text⟩ : SourceFile).lookups .outline := by decide +kernel
  have index : text.IsIndex text.position? :=
    ⟨fun offset _ boundary => by rwa [Text.position?_isSome]⟩
  exact ⟨listed, (offsets_fit ⟨"", text⟩).2.2.2.2.2 _ index .outline 3 listed⟩

end SourceFile

end LosslessTree
