import LosslessTree.Proofs.Check.Bounds

set_option autoImplicit false

namespace LosslessTree

namespace Span.Tiles

variable {start stop : Nat} {spans : List Span}

theorem le (h : Tiles start spans stop) : start ≤ stop := by
  induction spans generalizing start with
  | nil => exact Nat.le_of_eq h
  | cons s spans ih =>
      obtain ⟨rfl, forward, rest⟩ := h
      exact forward.trans (ih rest)

theorem within (h : Tiles start spans stop) : ∀ s ∈ spans, start ≤ s.start ∧ s.stop ≤ stop := by
  induction spans generalizing start with
  | nil => simp
  | cons s spans ih =>
      obtain ⟨rfl, forward, rest⟩ := h
      intro s' mem
      rcases List.mem_cons.mp mem with rfl | mem
      · exact ⟨Nat.le_refl _, rest.le⟩
      · have later := ih rest s' mem
        exact ⟨forward.trans later.1, later.2⟩

theorem ordered (h : Tiles start spans stop) : spans.Pairwise fun s s' => s.stop ≤ s'.start := by
  induction spans generalizing start with
  | nil => exact .nil
  | cons s spans ih => exact .cons (fun s' mem => (h.2.2.within s' mem).1) (ih h.2.2)

theorem stop_of_last {s : Span} (h : Tiles start (spans ++ [s]) stop) : s.stop = stop := by
  induction spans generalizing start with
  | nil => exact h.2.2
  | cons s' spans ih => exact ih h.2.2

end Span.Tiles

namespace Text

theorem takeBytes_zero (t : Text) : takeBytes t 0 = [] := by
  cases t <;> rfl

theorem takeBytes_append (a b : Text) (n : Nat) :
    takeBytes (a ++ b) (byteLength a + n) = a ++ takeBytes b n := by
  induction a with
  | nil => simp
  | cons c a ih =>
      have some_ : ¬ c.utf8Size + byteLength a + n = 0 := by
        have := c.utf8Size_pos
        omega
      have rest : c.utf8Size + byteLength a + n - c.utf8Size = byteLength a + n := by omega
      rw [List.cons_append, takeBytes, byteLength_cons, if_neg some_, rest, ih, List.cons_append]

theorem cut_twice {t : Text} {start middle : Nat} (first : t.isBoundary start = true)
    (second : t.isBoundary middle = true) (le : start ≤ middle) :
    ∃ a e b, t = a ++ (e ++ b) ∧ byteLength a = start ∧ byteLength a + byteLength e = middle := by
  obtain ⟨a, rest, rfl, starts⟩ := (isBoundary_iff _ _).mp first
  obtain ⟨a', b, split, stops⟩ := (isBoundary_iff _ _).mp second
  rcases List.append_eq_append_iff.mp split with ⟨e, rfl, rfl⟩ | ⟨e, rfl, rfl⟩
  · exact ⟨a, e, b, rfl, starts, by rw [← byteLength_append, stops]⟩
  · -- The second boundary is not in front of the first, so nothing lies between.
    rw [byteLength_append] at starts
    have none : e = [] := by
      by_contra some_
      have := byteLength_pos some_
      omega
    subst none
    exact ⟨a', [], rest, by simp, by simpa using starts, by simp [stops]⟩

theorem slice_append_slice {t : Text} {start middle stop : Nat} (first : t.isBoundary start = true)
    (second : t.isBoundary middle = true) (le : start ≤ middle) (le' : middle ≤ stop) :
    t.slice ⟨start, middle⟩ ++ t.slice ⟨middle, stop⟩ = t.slice ⟨start, stop⟩ := by
  obtain ⟨a, e, b, rfl, rfl, rfl⟩ := cut_twice first second le
  have length : stop - byteLength a = byteLength e + (stop - (byteLength a + byteLength e)) := by omega
  have behind : dropBytes (a ++ (e ++ b)) (byteLength a + byteLength e) = b := by
    rw [← List.append_assoc, ← byteLength_append, dropBytes_byteLength]
  rw [slice_append, slice, slice, behind, dropBytes_byteLength, Span.length, Span.length, length,
    takeBytes_append]

end Text

theorem Span.Tiles.flatMap_slice {text : Text} {start stop : Nat} {spans : List Span}
    (h : Tiles start spans stop) (fits : ∀ s ∈ spans, s.Fits text) :
    spans.flatMap text.slice = text.slice ⟨start, stop⟩ := by
  induction spans generalizing start with
  | nil =>
      obtain rfl : start = stop := h
      rw [List.flatMap_nil, Text.slice, Span.length, Nat.sub_self, Text.takeBytes_zero]
  | cons s spans ih =>
      obtain ⟨rfl, forward, rest⟩ := h
      have own := fits s List.mem_cons_self
      rw [List.flatMap_cons, ih rest fun s' mem => fits s' (List.mem_cons_of_mem _ mem)]
      exact Text.slice_append_slice own.first own.last forward rest.le

theorem Piece.layout_tiles (parent offset : Nat) (pieces : List Piece) :
    Span.Tiles offset ((Piece.layout parent offset pieces).map TokenData.span)
      (offset + lengthOf pieces) := by
  induction pieces generalizing offset with
  | nil => rfl
  | cons p pieces ih =>
      have rest := ih (offset + p.length)
      rw [Nat.add_assoc] at rest
      exact ⟨rfl, Nat.le_add_right _ _, rest⟩

theorem Leaf.layout_tiles (parent offset : Nat) (l : Leaf) :
    Span.Tiles offset ((l.layout parent offset).map TokenData.span) (offset + l.byteLength) := by
  have before := Piece.layout_tiles parent offset l.leading
  have behind := Piece.layout_tiles parent (offset + Piece.lengthOf l.leading + l.length) l.trailing
  rw [layout, List.map_append]
  refine before.append ⟨rfl, Nat.le_add_right _ _, ?_⟩
  rw [byteLength, ← Nat.add_assoc, ← Nat.add_assoc]
  exact behind

namespace SyntaxTree

variable {t : SyntaxTree} {parent offset start : Nat} {p : Place} {l : Leaf}

theorem leaf_tiles (h : l.layout parent offset <+: t.tokens.toList.drop start) :
    Span.Tiles offset ((List.range' start l.tokenCount).map t.tokenSpan) (offset + l.byteLength) := by
  have read := map_getD_of_prefix_drop default h
  rw [Leaf.layout_length] at read
  have spans : (List.range' start l.tokenCount).map t.tokenSpan =
      (l.layout parent offset).map TokenData.span := by
    rw [← read, List.map_map]
    exact List.map_congr_left fun i _ => congrArg TokenData.span (token_eq_getD i)
  rw [spans]
  exact Leaf.layout_tiles parent offset l

theorem leaf_attachedSpan (h : l.layout parent offset <+: t.tokens.toList.drop start) :
    t.attachedSpan (start + l.leading.length) = ⟨offset, offset + l.byteLength⟩ := by
  have tiles := leaf_tiles h
  have count : l.tokenCount = l.leading.length + l.trailing.length + 1 := by
    rw [Leaf.tokenCount]
    omega
  have first : (t.tokenSpan start).start = offset := by
    rw [count, List.range'_succ, List.map_cons] at tiles
    exact tiles.1
  have last : (t.tokenSpan (start + l.leading.length + l.trailing.length)).stop =
      offset + l.byteLength := by
    rw [count, List.range'_concat, List.map_append] at tiles
    simpa [Nat.add_assoc] using tiles.stop_of_last
  rw [attachedSpan, leaf_token h, Nat.add_sub_cancel, first, last]

theorem Embeds.tiles_children {f : Forest} (h : t.Embeds parent p f) :
    Span.Tiles p.offset ((f.layout parent p).children.map t.childSpan) (p.offset + f.byteLength) := by
  -- The offset of the place moves on by the bytes of each element, which are those of its span.
  induction f generalizing parent p with
  | nil => rfl
  | leaf l rest ih =>
      obtain ⟨own, behind⟩ := h.leaf
      have span : t.childSpan (.token (p.token + l.leading.length)) = _ := leaf_attachedSpan own
      rw [Forest.layout, List.map_cons, span, Forest.byteLength, ← Nat.add_assoc]
      exact ⟨rfl, Nat.le_add_right _ _, ih behind⟩
  | node k inner rest _ hr =>
      have span : t.childSpan (.node p.node) = _ := h.site.span
      rw [Forest.layout, List.map_cons, span, Forest.byteLength, ← Nat.add_assoc]
      exact ⟨rfl, Nat.le_add_right _ _, hr h.node.2.2⟩

theorem Site.tiles_children {around : Option Nat} {k : Kind} {inner : Forest}
    (site : t.Site around p k inner) :
    Span.Tiles (t.span p.node).start ((t.children p.node).map t.childSpan) (t.span p.node).stop := by
  rw [site.children, site.span]
  exact site.within.tiles_children

end SyntaxTree

theorem Assembly.boundary_of_cover {text : Text} {covered more : Nat} {lengths : List Nat}
    (start : text.isBoundary covered = true) (ok : cover text covered lengths = .ok more) :
    text.isBoundary more = true := by
  induction lengths generalizing covered with
  | nil =>
      cases ok
      exact start
  | cons n lengths ih =>
      rw [cover] at ok
      split at ok
      · cases ok
      split at ok
      · next cut => exact ih cut ok
      · cases ok

-- The text can be cut at the offset, and where a token or a piece of trivia of the forest ends
-- that stands there.
structure Forest.FitsAt (f : Forest) (text : Text) (offset : Nat) : Prop where
  start : text.isBoundary offset = true
  pieces : ∃ stop, Assembly.cover text offset f.pieceLengths = .ok stop

namespace Forest

variable {text : Text} {offset : Nat} {l : Leaf} {k : Kind} {f inner rest : Forest}

theorem FitsAt.stop (fits : f.FitsAt text offset) : text.isBoundary (offset + f.byteLength) = true := by
  obtain ⟨stop, covered⟩ := fits.pieces
  rw [← total_pieceLengths, ← Assembly.cover_eq_ok covered]
  exact Assembly.boundary_of_cover fits.start covered

theorem FitsAt.leaf (fits : (leaf l rest).FitsAt text offset) :
    rest.FitsAt text (offset + l.byteLength) := by
  obtain ⟨stop, covered⟩ := fits.pieces
  have split : (Forest.leaf l rest).pieceLengths = Assembly.pieceLengths l ++ rest.pieceLengths := rfl
  rw [split] at covered
  obtain ⟨between, own, behind⟩ := Assembly.cover_append_eq_ok covered
  have cut := Assembly.boundary_of_cover fits.start own
  rw [Assembly.cover_eq_ok own, Assembly.total_pieceLengths] at behind cut
  exact ⟨cut, stop, behind⟩

theorem FitsAt.node (fits : (node k inner rest).FitsAt text offset) :
    inner.FitsAt text offset ∧ rest.FitsAt text (offset + inner.byteLength) := by
  obtain ⟨stop, covered⟩ := fits.pieces
  have split : (Forest.node k inner rest).pieceLengths = inner.pieceLengths ++ rest.pieceLengths :=
    List.flatMap_append
  rw [split] at covered
  obtain ⟨between, below, behind⟩ := Assembly.cover_append_eq_ok covered
  have cut := Assembly.boundary_of_cover fits.start below
  rw [Assembly.cover_eq_ok below, total_pieceLengths] at behind cut
  exact ⟨⟨fits.start, between, below⟩, cut, stop, behind⟩

end Forest

namespace SyntaxTree

variable {t : SyntaxTree} {text : Text} {parent : Nat} {p : Place} {f : Forest}

theorem Embeds.childSpan_fits (h : t.Embeds parent p f) (fits : f.FitsAt text p.offset) :
    ∀ c ∈ (f.layout parent p).children, (t.childSpan c).Fits text := by
  induction f generalizing parent p with
  | nil => simp [Forest.layout]
  | leaf l rest ih =>
      obtain ⟨own, behind⟩ := h.leaf
      refine List.forall_mem_cons.mpr ⟨?_, ih behind fits.leaf⟩
      rw [childSpan, leaf_attachedSpan own]
      exact Span.fits_of_boundaries (Nat.le_add_right _ _) fits.start fits.leaf.start
  | node k inner rest _ hr =>
      refine List.forall_mem_cons.mpr ⟨?_, hr h.node.2.2 fits.node.2⟩
      rw [childSpan, h.site.span]
      exact Span.fits_of_boundaries (Nat.le_add_right _ _) fits.start fits.node.2.start

theorem Embeds.exists_fitting (h : t.Embeds parent p f) (fits : f.FitsAt text p.offset) {n : Nat}
    (first : p.node ≤ n) (last : n < p.node + f.nodeCount) :
    ∃ around q k inner, q.node = n ∧ t.Site around q k inner ∧ inner.FitsAt text q.offset := by
  induction f generalizing parent p with
  | nil => exact absurd last (by simpa [Forest.nodeCount] using first)
  | leaf l rest ih => exact ih h.leaf.2 fits.leaf first last
  | node k inner rest hi hr =>
      obtain ⟨-, within, behind⟩ := h.node
      simp only [Forest.nodeCount] at last
      by_cases here : p.node = n
      · exact ⟨some parent, p, k, inner, here, h.site, fits.node.1⟩
      by_cases below : n < p.node + 1 + inner.nodeCount
      · exact hi within fits.node.1 (by change p.node + 1 ≤ n; omega) below
      · exact hr behind fits.node.2 (by simp only [Place.after, Place.inside]; omega)
          (by simp only [Place.after, Place.inside]; omega)

/-- The children of a node lie end to end where the node does, and their texts are that of the node. -/
structure Abuts (t : SyntaxTree) (n : Nat) : Prop where
  tiles : Span.Tiles (t.span n).start ((t.children n).map t.childSpan) (t.span n).stop
  fits : (t.span n).Fits t.text ∧ ∀ c ∈ t.children n, (t.childSpan c).Fits t.text
  text : (t.children n).flatMap (fun c => t.textAt (t.childSpan c)) = t.nodeText n
  apart : (t.children n).Pairwise fun c c' => (t.childSpan c).stop ≤ (t.childSpan c').start
  inside : ∀ c ∈ t.children n, (t.span n).contains (t.childSpan c) = true

theorem Site.abuts {around : Option Nat} {k : Kind} {inner : Forest} (site : t.Site around p k inner)
    (fits : inner.FitsAt t.text p.offset) : t.Abuts p.node := by
  have tiles := site.tiles_children
  have cut : ∀ c ∈ t.children p.node, (t.childSpan c).Fits t.text := by
    rw [site.children]
    exact site.within.childSpan_fits fits
  constructor
  case tiles => exact tiles
  case fits =>
    refine ⟨?_, cut⟩
    rw [site.span]
    exact Span.fits_of_boundaries (Nat.le_add_right _ _) fits.start fits.stop
  case text =>
    have whole := tiles.flatMap_slice (List.forall_mem_map.mpr cut)
    rwa [List.flatMap_map] at whole
  case apart => exact List.pairwise_map.mp tiles.ordered
  case inside =>
    intro c mem
    exact (Span.contains_iff _ _).mpr (tiles.within _ (List.mem_map_of_mem mem))

theorem ofRoot_abuts {k : Kind} (fits : f.FitsAt text 0) {n : Nat}
    (lies : n < (ofRoot text k f).nodes.size) : (ofRoot text k f).Abuts n := by
  rw [ofRoot_nodes_size] at lies
  by_cases root : n = 0
  · subst root
    exact (ofRoot_site text k f).abuts fits
  · obtain ⟨around, q, k', inner, rfl, site, fits'⟩ :=
      (ofRoot_embeds text k f).exists_fitting fits (Nat.pos_of_ne_zero root) lies
    exact site.abuts fits'

end SyntaxTree

end LosslessTree
