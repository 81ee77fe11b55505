import LosslessTree.Proofs.Tree.Attaching
import LosslessTree.Proofs.Tree.Dumping
import LosslessTree.Proofs.Tree.Steering

set_option autoImplicit false

namespace LosslessTree

namespace Forest

def entries (level : Nat) (p : Place) : Forest → List DumpEntry
  | nil => []
  | leaf l rest =>
      (List.range' p.token l.tokenCount).map (⟨level, .token ·⟩) ++ rest.entries level (p.afterLeaf l)
  | node _ inner rest =>
      ⟨level, .node p.node⟩ :: inner.entries (level + 1) p.inside ++
        rest.entries level (p.inside.after inner)

theorem filterMap_node?_entries (level : Nat) (p : Place) (f : Forest) :
    (f.entries level p).filterMap DumpEntry.node? = List.range' p.node f.nodeCount := by
  induction f generalizing level p with
  | nil => rfl
  | leaf l rest ih =>
      have none : ((List.range' p.token l.tokenCount).map (DumpEntry.mk level ∘ Child.token)).filterMap
          DumpEntry.node? = [] := by
        rw [List.filterMap_map, List.filterMap_eq_nil_iff]
        exact fun _ _ => rfl
      rw [entries, List.filterMap_append, ih]
      exact congrArg (· ++ _) none
  | node k inner rest hi hr =>
      rw [entries, List.filterMap_append, List.filterMap_cons, hi, hr, nodeCount, Nat.add_assoc,
        Nat.add_comm 1, List.range'_succ, ← List.range'_append_1]
      rfl

theorem filterMap_token?_entries (level : Nat) (p : Place) (f : Forest) :
    (f.entries level p).filterMap DumpEntry.token? = List.range' p.token f.tokenCount := by
  induction f generalizing level p with
  | nil => rfl
  | leaf l rest ih =>
      have own : ((List.range' p.token l.tokenCount).map (DumpEntry.mk level ∘ Child.token)).filterMap
          DumpEntry.token? = List.range' p.token l.tokenCount := by
        rw [List.filterMap_map]
        exact List.filterMap_some
      rw [entries, List.filterMap_append, ih, tokenCount, ← List.range'_append_1]
      exact congrArg (· ++ _) own
  | node k inner rest hi hr =>
      rw [entries, List.filterMap_append, List.filterMap_cons, hi, hr, tokenCount, ← List.range'_append_1]
      rfl

end Forest

namespace SyntaxTree

def nodesAround (t : SyntaxTree) : Child → List Nat
  | .node n => (t.ancestors n).tail
  | .token i => t.ancestors (t.token i).parent

variable {t : SyntaxTree} {parent : Nat} {p : Place} {f : Forest}

theorem Embeds.dumpLines_walk (h : t.Embeds parent p f) (level : Nat) :
    t.dumpLines level (f.walk p) = (f.entries level p).map t.dumpLine := by
  induction f generalizing level parent p with
  | nil => rfl
  | leaf l rest ih =>
      obtain ⟨own, behind⟩ := h.leaf
      have between : t.withTrivia (p.token + l.leading.length) = List.range' p.token l.tokenCount :=
        leaf_tokensUnder own
      rw [Forest.walk, dumpLines, between, ih behind, Forest.entries, List.map_append, List.map_map]
      rfl
  | node k inner rest hi hr =>
      obtain ⟨-, within, behind⟩ := h.node
      rw [Forest.walk, dumpLines_node within.tours.nested, hi within, hr behind, Forest.entries,
        List.cons_append, List.map_cons, List.map_append]
      rfl

theorem Embeds.length_nodesAround (h : t.Embeds parent p f) (outer : parent < p.node) (level : Nat) :
    ∀ e ∈ f.entries level p,
      (t.nodesAround e.element).length + level = e.level + (t.ancestors parent).length := by
  induction f generalizing level parent p with
  | nil => simp [Forest.entries]
  | leaf l rest ih =>
      intro e mem
      rcases List.mem_append.mp mem with own | behind
      · obtain ⟨i, among, rfl⟩ := List.mem_map.mp own
        rw [nodesAround, h.parent_of_leaf among, Nat.add_comm]
      · exact ih h.leaf.2 outer level e behind
  | node k inner rest hi hr =>
      obtain ⟨data, within, behind⟩ := h.node
      have around : t.parent? p.node = some parent := by
        rw [parent?, data]
        rfl
      have chain := ancestors_of_parent around outer
      -- The nodes around what is inside are those around the node, and the node.
      intro e mem
      rcases List.mem_append.mp mem with front | behind'
      · rcases List.mem_cons.mp front with rfl | inside
        · rw [nodesAround, chain, List.tail_cons, Nat.add_comm]
        · have deeper := hi within (Nat.lt_succ_self _) (level + 1) e inside
          rw [chain, List.length_cons] at deeper
          omega
      · exact hr behind (by simp only [Place.after, Place.inside]; omega) level e behind'

theorem Embeds.tiles_tokens (h : t.Embeds parent p f) :
    Span.Tiles p.offset ((List.range' p.token f.tokenCount).map t.tokenSpan) (p.offset + f.byteLength) := by
  induction f generalizing parent p with
  | nil => rfl
  | leaf l rest ih =>
      obtain ⟨own, behind⟩ := h.leaf
      have both := (leaf_tiles own).append (ih behind)
      rwa [← List.map_append, Place.afterLeaf, List.range'_append_1, Nat.add_assoc] at both
  | node k inner rest hi hr =>
      obtain ⟨-, within, behind⟩ := h.node
      have both := (hi within).append (hr behind)
      rwa [← List.map_append, Place.after, Place.inside, List.range'_append_1, Nat.add_assoc] at both

end SyntaxTree

theorem Span.Tiles.fits_of_cover {text : Text} {start stop more : Nat} {spans : List Span}
    (h : Tiles start spans stop) (cut : text.isBoundary start = true)
    (covered : Assembly.cover text start (spans.map Span.length) = .ok more) :
    ∀ s ∈ spans, s.Fits text := by
  induction spans generalizing start with
  | nil => simp
  | cons s spans ih =>
      obtain ⟨rfl, forward, rest⟩ := h
      have stop : s.start + s.length = s.stop := by
        rw [Span.length]
        omega
      rw [List.map_cons, Assembly.cover, stop] at covered
      split at covered
      · cases covered
      split at covered
      · next cut' =>
          exact List.forall_mem_cons.mpr
            ⟨Span.fits_of_boundaries forward cut cut', ih rest cut' covered⟩
      · cases covered

theorem Leaf.layout_lengths (parent offset : Nat) (l : Leaf) :
    (l.layout parent offset).map (fun d => d.span.length) = Assembly.pieceLengths l := by
  have pieces (offset : Nat) (pieces : List Piece) :
      (Piece.layout parent offset pieces).map (fun d => d.span.length) = pieces.map Piece.length := by
    have sized := congrArg (List.map Prod.snd) (Piece.layout_sized parent offset pieces)
    rwa [List.map_map, List.map_map] at sized
  rw [layout, List.map_append, List.map_cons, pieces, pieces, Assembly.pieceLengths, Span.length,
    Nat.add_sub_cancel_left]

theorem Forest.layout_lengths (parent : Nat) (p : Place) (f : Forest) :
    (f.layout parent p).tokens.map (fun d => d.span.length) = f.pieceLengths := by
  induction f generalizing parent p with
  | nil => rfl
  | leaf l rest ih =>
      rw [layout, List.map_append, Leaf.layout_lengths, ih]
      rfl
  | node k inner rest hi hr =>
      rw [layout, List.map_append, hi, hr]
      exact List.flatMap_append.symm

namespace SyntaxTree

variable {t : SyntaxTree} {p : Place} {k : Kind} {inner : Forest}

theorem Embeds.tokenSpan_fits {parent : Nat} (h : t.Embeds parent p inner)
    (fits : inner.FitsAt t.text p.offset) :
    ∀ i ∈ List.range' p.token inner.tokenCount, (t.tokenSpan i).Fits t.text := by
  obtain ⟨stop, covered⟩ := fits.pieces
  rw [← Forest.layout_lengths parent p, ← h.tokens_eq, List.map_map] at covered
  rw [← List.forall_mem_map]
  apply h.tiles_tokens.fits_of_cover fits.start
  rw [List.map_map]
  exact covered

theorem Site.flatMap_tokenText {around : Option Nat} (site : t.Site around p k inner)
    (fits : ∀ i ∈ t.tokensOf p.node, (t.tokenSpan i).Fits t.text) :
    (t.tokensOf p.node).flatMap t.tokenText = t.nodeText p.node := by
  rw [site.tokensOf] at fits
  have whole := site.within.tiles_tokens.flatMap_slice (List.forall_mem_map.mpr fits)
  rw [List.flatMap_map] at whole
  rw [site.tokensOf, nodeText, site.span]
  exact whole

theorem Rooted.tokensOf_of_hangsOn {f : Forest} {k : Kind} (root : t.Rooted k f)
    (size : t.nodes.size = 1 + f.nodeCount) {n i j : Nat} {side : Side} (lies : n < 1 + f.nodeCount)
    (hangs : t.HangsOn i side j) (mem : i ∈ t.tokensOf n) :
    j ∈ t.tokensOf n ∧ (t.token i).parent = (t.token j).parent := by
  obtain ⟨⟨m, child⟩, among⟩ := hangs
  obtain ⟨around, p, k', inner, rfl, site, -⟩ := root.exists_site (size ▸ lt_size_of_mem_children child)
  have parent := site.within.parent_of_tokensUnder (site.children ▸ child) (mem_tokensUnder_of_triviaOn among)
  have parent' := site.within.parent_of_tokensUnder (site.children ▸ child) (mem_tokensUnder_self j)
  have own : j ∈ t.tokensOf p.node := by
    rw [← site.flatMap_tokensUnder]
    exact List.mem_flatMap.mpr ⟨_, child, mem_tokensUnder_self j⟩
  have there := root.mem_tokensOf_zero.mp (root.tokensOf_subset site own)
  have there' : i < f.tokenCount := by
    obtain ⟨around, p, k', inner, rfl, site, -⟩ := root.exists_site lies
    exact root.mem_tokensOf_zero.mp (root.tokensOf_subset site mem)
  have same := parent.trans parent'.symm
  refine ⟨(root.mem_tokensOf lies there).mpr ?_, same⟩
  rw [← same]
  exact (root.mem_tokensOf lies there').mp mem

/-- The dump of a node has a line for each entry, and the entries are the nodes of the subtree in pre-order
and its tokens in text order. A line has two blanks for each level, of which a trivia token has as many as
the token that it is attached to. -/
structure Lists (t : SyntaxTree) (n : Nat) (entries : List DumpEntry) : Prop where
  dump : t.dump n = String.join (entries.map fun e => (t.dumpLine e).render)
  lines : (t.dump n).toList.splitOn '\n' = entries.map t.lineText ++ [[]]
  nodes : entries.filterMap DumpEntry.node? = n :: t.descendants n
  tokens : entries.filterMap DumpEntry.token? = t.tokensOf n
  once : (entries.map DumpEntry.element).Nodup
  levels : ∀ e ∈ entries, (t.nodesAround e.element).length = e.level + (t.nodesAround (.node n)).length
  attached : ∀ level i side j, ⟨level, .token i⟩ ∈ entries → t.HangsOn i side j →
    ⟨level, .token j⟩ ∈ entries
  counted : (t.walk .nodesAndTokens n).foldlM (Printer.step t) ⟨"", 0⟩ = some ⟨t.dump n, 0⟩
  texts : (entries.filterMap fun e => (t.dumpLine e).shown).flatten = t.nodeText n

def entriesAt (p : Place) (inner : Forest) : List DumpEntry :=
  ⟨0, .node p.node⟩ :: inner.entries 1 p.inside

section Sites

variable {around : Option Nat} (site : t.Site around p k inner)
include site

theorem Site.length_nodesAround : ∀ e ∈ entriesAt p inner,
    (t.nodesAround e.element).length = e.level + (t.nodesAround (.node p.node)).length := by
  obtain ⟨outer, chain⟩ := ancestors_cons t p.node
  refine List.forall_mem_cons.mpr ⟨(Nat.zero_add _).symm, fun e mem => ?_⟩
  have deeper := site.within.length_nodesAround (Nat.lt_succ_self _) 1 e mem
  rw [nodesAround, chain, List.tail_cons]
  rw [chain, List.length_cons] at deeper
  omega

theorem Site.dumpLines_walk :
    t.dumpLines 0 (.enter p.node :: inner.walk p.inside ++ [.leave p.node]) =
      (entriesAt p inner).map t.dumpLine := by
  rw [dumpLines_node site.tours.nested, site.within.dumpLines_walk, dumpLines, List.append_nil]
  rfl

theorem Site.filterMap_node?_entriesAt :
    (entriesAt p inner).filterMap DumpEntry.node? = p.node :: t.descendants p.node := by
  rw [site.descendants, entriesAt, List.filterMap_cons, Forest.filterMap_node?_entries]
  rfl

theorem Site.filterMap_token?_entriesAt :
    (entriesAt p inner).filterMap DumpEntry.token? = t.tokensOf p.node := by
  rw [site.tokensOf, entriesAt, List.filterMap_cons, Forest.filterMap_token?_entries]
  rfl

end Sites

theorem nodup_elements {entries : List DumpEntry} (nodes : (entries.filterMap DumpEntry.node?).Nodup)
    (tokens : (entries.filterMap DumpEntry.token?).Nodup) : (entries.map DumpEntry.element).Nodup := by
  induction entries with
  | nil => exact List.nodup_nil
  | cons e entries ih =>
      obtain ⟨level, n | i⟩ := e
      · obtain ⟨once, nodes⟩ := List.nodup_cons.mp nodes
        refine List.nodup_cons.mpr ⟨fun again => once ?_, ih nodes tokens⟩
        obtain ⟨e, mem, same⟩ := List.mem_map.mp again
        exact List.mem_filterMap.mpr ⟨e, mem, by rw [DumpEntry.node?, same]⟩
      · obtain ⟨once, tokens⟩ := List.nodup_cons.mp tokens
        refine List.nodup_cons.mpr ⟨fun again => once ?_, ih nodes tokens⟩
        obtain ⟨e, mem, same⟩ := List.mem_map.mp again
        exact List.mem_filterMap.mpr ⟨e, mem, by rw [DumpEntry.token?, same]⟩

theorem mem_filterMap_token? {entries : List DumpEntry} {i : Nat} :
    i ∈ entries.filterMap DumpEntry.token? ↔ ∃ level, ⟨level, .token i⟩ ∈ entries := by
  rw [List.mem_filterMap]
  constructor
  · rintro ⟨⟨level, n | j⟩, mem, own⟩
    · cases own
    · cases own
      exact ⟨level, mem⟩
  · exact fun ⟨level, mem⟩ => ⟨_, mem, rfl⟩

/-- The dump of a node of a built tree lists its nodes and its tokens. The counter of blanks is not lowered
below zero and is zero at the end, and the texts that the lines show are the text of the node. -/
theorem dump_lists {text : Text} {events : List TreeEvent} (built : Assembly.run text events = .ok t)
    {n : Nat} (lies : n < t.nodes.size) : ∃ entries, t.Lists n entries := by
  obtain ⟨k, f, rfl, rfl, -, -, fits, -⟩ := Assembly.root_of_run built
  have root := ofRoot_rooted text k f
  have size := ofRoot_nodes_size text k f
  obtain ⟨around, p, k', inner, rfl, site, room⟩ := ofRoot_exists_room lies
  have printed := site.walk_eq room ▸ site.dumpLines_walk
  have nodes := site.filterMap_node?_entriesAt
  have tokens := site.filterMap_token?_entriesAt
  have levels := site.length_nodesAround
  refine ⟨entriesAt p inner, dump_eq_join printed, splitOn_dump printed, nodes, tokens, ?once, levels,
    ?attached, foldlM_step_walk (site.steered room).nested, ?texts⟩
  case once =>
    apply nodup_elements
    · rw [nodes, site.descendants, ← List.range'_succ]
      exact List.nodup_range'
    · rw [tokens, site.tokensOf]
      exact List.nodup_range'
  case attached =>
    intro level i side j mem hangs
    obtain ⟨own, same⟩ := root.tokensOf_of_hangsOn size (size ▸ lies) hangs
      (tokens ▸ mem_filterMap_token?.mpr ⟨level, mem⟩)
    obtain ⟨level', mem'⟩ := mem_filterMap_token?.mp (tokens ▸ own)
    -- Both lie in the same nodes, so they are at one level.
    have here := levels _ mem
    have there := levels _ mem'
    simp only [nodesAround, same] at here there
    obtain rfl : level = level' := by omega
    exact mem'
  case texts =>
    have start : text.isBoundary 0 = true := (Text.isBoundary_iff _ _).mpr ⟨[], text, rfl, rfl⟩
    have cut := root.site.within.tokenSpan_fits ⟨start, _, fits⟩
    have whole := site.flatMap_tokenText fun i mem =>
      cut i (root.site.tokensOf ▸ root.tokensOf_subset site mem)
    rw [← whole, ← tokens, List.flatMap_def, List.map_filterMap]
    exact congrArg List.flatten (List.filterMap_congr fun e _ => shown_dumpLine e)

-- A path around a name with trivia on both sides, in a statement.
theorem dump_lists_path :
    let text := [' ', 'a', ' ', '\n', ';']
    let name : Leaf := ⟨[⟨.whitespace, 1⟩], .ident, 1, [⟨.whitespace, 1⟩]⟩
    let semicolon : Leaf := ⟨[⟨.newline, 1⟩], .semicolon, 1, []⟩
    let events := [.openNode .exprStmt, .openNode .path, .token name, .closeNode, .token semicolon,
      .closeNode]
    let t := SyntaxTree.ofRoot text .exprStmt (.node .path (.leaf name .nil) (.leaf semicolon .nil))
    Assembly.run text events = .ok t ∧ 0 < t.nodes.size ∧
      t.dump 0 = "EXPR_STMT@0..5\n  PATH@0..3\n    WHITESPACE@0..1 \" \"\n    IDENT@1..2 \"a\"\n" ++
        "    WHITESPACE@2..3 \" \"\n  NEWLINE@3..4 \"\\n\"\n  SEMICOLON@4..5 \";\"\n" ∧
      ∃ entries, t.Lists 0 entries := by
  intro text name semicolon events t
  have built : Assembly.run text events = .ok t := rfl
  have lies : 0 < t.nodes.size := by decide
  exact ⟨built, lies, by decide +kernel, dump_lists built lies⟩

end SyntaxTree

end LosslessTree
