import LosslessTree.Proofs.Grammar.Rereading
import LosslessTree.Proofs.Snippet.Accepting
import LosslessTree.Proofs.Tree.Concatenation

set_option autoImplicit false

namespace LosslessTree

open TokenStream SyntaxTree

-- A node that is read again of its own tokens, which are those of a passage so many bytes further
-- on.
structure Extract (eof : Token) (k : Kind) (inner : Forest) (offset : Nat) (tokens : List Token)
    (excerpt : Text) (base : List Token) : Prop where
  fits : (k.shape false).Matches inner.tops
  shaped : inner.Shaped false
  leaves : inner.leaves <+: tokens.map Token.leaf
  reread : Reread eof tokens k inner
  enclosed : Enclosed tokens k inner
  isPassage : Passage excerpt base
  alike : Token.Alike offset base (tokens.take inner.leaves.length)

namespace Extract

variable {eof eof' : Token} {k : Kind} {inner : Forest} {offset offset' : Nat} {tokens base own rest : List Token}
  {excerpt : Text} (e : Extract eof k inner offset tokens excerpt base) (alike : Token.Alike offset' base own)
include e alike

theorem same : (tokens.take inner.leaves.length).map Token.lookahead = own.map Token.lookahead :=
  (Token.Moved.map_lookahead e.alike.moved).trans (Token.Moved.map_lookahead alike.moved).symm

theorem passes_expression (isExpr : Category.expr.members.contains k = true)
    (ends : seen eof' rest ∉ Rule.expressionMore) :
    ∃ inner', inner'.bare = inner.bare ∧ inner'.leaves = own.map Token.leaf ∧
      Rule.Passes eof' Rule.innerExpression (own ++ rest) fun _ parts left =>
        parts = .node k inner' .nil ∧ left = rest := by
  obtain ⟨level?, readable, -⟩ := e.reread isExpr
  have passes := (readable eof').inner_passes (Q := fun _ parts left =>
    True ∧ parts = .node k inner .nil ∧ left = rest) ends ⟨trivial, rfl, rfl⟩
  obtain ⟨inner', bare, leaves, passes⟩ := passes.mirrored (P := fun _ => True) (e.same alike)
  exact ⟨inner', bare, leaves, passes.imp fun _ _ _ => And.right⟩

theorem passes_pattern (isPat : Category.pat.members.contains k = true) :
    ∃ inner', inner'.bare = inner.bare ∧ inner'.leaves = own.map Token.leaf ∧
      Rule.Passes eof' Rule.pattern (own ++ rest) fun kind parts left =>
        kind.isSome = true ∧ parts = .node k inner' .nil ∧ left = rest :=
  (e.enclosed .pattern isPat).passes_pattern.mirrored (e.same alike)

end Extract

section Parses

variable {text : Text} (clean : (parse text).errors = [])
include clean

theorem parse_extract {n : Nat} (below : 0 < n) (inside : n < (parse text).tree.nodes.size) :
    ∃ k inner offset tokens excerpt base, Extract (ofText text).eof k inner offset tokens excerpt base ∧
      (parse text).tree.Quotes n offset k inner excerpt base := by
  have atEof := ofText_eof text
  have lexed := ofText_lexed text
  have quiet : ((ofText text).run .file).Quiet false := fun _ => clean
  obtain ⟨shaped, -, -⟩ := run_file_fits atEof (ofText_plain text) quiet
  have each := ((run_reread atEof lexed clean).and (run_enclosed atEof (ofText_plain text) clean).parts).and
    (shaped.each.and (Forest.each_suffix (List.suffix_refl _)))
  rw [parse_nodes_size] at inside
  obtain ⟨parent, p, k, inner, rest, tokens, rfl, ⟨⟨reread, enclosed⟩, ⟨fits, within, some_⟩, front, all⟩, covers⟩ :=
    (parse_covers text).exists_site each (n := n) below inside
  have leaves : inner.leaves <+: tokens.map Token.leaf := (Forest.leaves_node covers.carries.leaves).1
  have take := Forest.take_of_prefix leaves
  have length : inner.leaves.length = (tokens.take inner.leaves.length).length := by
    rw [← List.length_map Token.leaf, take]
  have split : (ofText text).tokens =
      front ++ (tokens.take inner.leaves.length ++ tokens.drop inner.leaves.length) := by
    rw [List.take_append_drop, all]
  have own : tokens.take inner.leaves.length ≠ [] := by
    rw [ne_eq, ← List.length_eq_zero_iff, ← length, List.length_eq_zero_iff]
    exact some_
  obtain ⟨before, excerpt, after, base, whole, isPassage, alike⟩ := exists_passage split own <| by
    intro t mem string none
    refine last_of_clean clean t ?_ string
    rw [split, none, List.append_nil, List.getLast?_append_of_ne_nil _ own]
    exact mem
  refine ⟨k, inner, _, tokens, excerpt, base, ⟨fits, within, leaves, reread, enclosed, isPassage, alike⟩, ?_⟩
  rw [← List.take_append_drop inner.leaves.length tokens] at covers
  refine covers.quotes length rfl (fun l mem => ?_) whole isPassage alike
  rw [← take] at mem
  obtain ⟨t, taken, rfl⟩ := List.mem_map.mp mem
  exact (lexed t (all ▸ List.mem_append_right _ (List.mem_of_mem_take taken))).solid

end Parses

namespace Snippet

/-- The node of the snippet is a node of the tree in another place: its kind and text, the kinds and the
nesting of what is inside, and the tokens with the trivia between them. -/
structure Copies (s : Snippet) (t : SyntaxTree) (n m : Nat) : Prop where
  node : s.node = .ok m
  kind : s.file.tree.kind m = t.kind n
  text : s.file.tree.trimmedText m = t.trimmedText n
  glimpses : (s.file.tree.glimpses m).map (Glimpse.shift (t.trimmedSpan n).start) =
    (t.glimpses n).map (Glimpse.shift (s.file.tree.trimmedSpan m).start)
  gaps : s.file.tree.gaps m = t.gaps n

theorem copies_of_quotes {s : Snippet} {t : SyntaxTree} {n m offset offset' : Nat} {k : Kind} {f : Forest}
    {excerpt : Text} {base : List Token} (node : s.node = .ok m)
    (here : s.file.tree.Quotes m offset k f excerpt base) (there : t.Quotes n offset' k f excerpt base) :
    s.Copies t n m := by
  refine ⟨node, here.kind.trans there.kind.symm, here.text.trans there.text.symm, ?_,
    here.gaps.trans there.gaps.symm⟩
  rw [here.glimpses, there.glimpses, here.span, there.span, List.map_map, List.map_map]
  exact List.map_congr_left fun g _ => g.shift_comm _ _

theorem Stands.copies {template : Template} {kinds kinds' : List Kind} {accepted : KindSet} {excerpt : Text}
    {base before own behind : List Token} {t : SyntaxTree} {n m offset : Nat} {k : Kind} {inner f : Forest}
    (stands : Stands template excerpt accepted m k own inner)
    (fills : Fills template kinds kinds' excerpt base before own behind) (h : Passage excerpt base)
    (leaves : inner.leaves = own.map Token.leaf) (bare : inner.bare = f.bare)
    (there : t.Quotes n offset k f excerpt base) :
    ∃ s m, Snippet.read template excerpt accepted = some s ∧ s.Copies t n m := by
  obtain ⟨s, found, file, node⟩ := stands.read h.trimmed
  obtain ⟨parent, p, rest, more, at_, covers⟩ := stands.covers
  have here := fills.quotes h covers leaves bare
  rw [at_, ← file] at here
  exact ⟨s, m, found, copies_of_quotes node here there⟩

section Extracts

variable {t : SyntaxTree} {eof : Token} {k : Kind} {inner : Forest} {n offset : Nat} {tokens base : List Token}
  {excerpt : Text} (e : Extract eof k inner offset tokens excerpt base)
  (quotes : t.Quotes n offset k inner excerpt base)
include e quotes

theorem expression_of_extract (isExpr : Category.expr.members.contains k = true) :
    ∃ s m, expression excerpt = some s ∧ s.Copies t n m := by
  obtain ⟨before, own, behind, fills⟩ := reads_inInitializer.fill e.isPassage
  have ends : ∀ eof, seen eof behind ∉ Rule.expressionMore := by
    intro eof
    obtain ⟨semicolon, more, rfl, is, -⟩ := List.map_eq_cons_iff.mp fills.kinds'
    simp [is, Rule.expressionMore, Rule.operandMore]
  obtain ⟨inner', bare, leaves, passes⟩ := e.passes_expression fills.alike isExpr (ends _)
  have stands := stands_inInitializer e.isPassage fills isExpr leaves passes
  exact stands.copies fills e.isPassage leaves bare quotes

theorem pattern_of_extract (isPat : Category.pat.members.contains k = true) :
    ∃ s m, pattern excerpt = some s ∧ s.Copies t n m := by
  obtain ⟨before, own, behind, fills⟩ := reads_inLetPattern.fill e.isPassage
  obtain ⟨inner', bare, leaves, passes⟩ := e.passes_pattern fills.alike isPat
  have stands := stands_inLetPattern e.isPassage fills isPat leaves passes
  exact stands.copies fills e.isPassage leaves bare quotes

theorem statement_of_extract (isLet : k = .letStmt) :
    ∃ s m, statement excerpt = some s ∧ s.Copies t n m := by
  subst isLet
  obtain ⟨before, own, behind, fills⟩ := reads_inBlock.fill e.isPassage
  have passes := (e.enclosed .letStatement rfl (ofText (inBlock.fill excerpt)).eof behind).imp
    fun _ _ _ => And.intro trivial
  obtain ⟨inner', bare, leaves, passes⟩ := passes.mirrored (P := fun _ => True) (e.same fills.alike)
  have begins : ∃ word more, own = word :: more ∧ word.kind = .letKw := by
    obtain ⟨first, more, own, isLet⟩ :=
      begins_of_tops e.shaped (k := .letKw) rfl (starts_of_row e.fits) e.leaves
    have heads := e.same fills.alike
    rw [own] at heads
    obtain ⟨word, more', rfl, alike, -⟩ := List.map_eq_cons_iff.mp heads.symm
    exact ⟨word, more', rfl, (congrArg Lookahead.kind alike).trans isLet⟩
  have stands := stands_inBlock e.isPassage fills begins leaves (passes.imp fun _ _ _ => And.right)
  exact stands.copies fills e.isPassage leaves bare quotes

end Extracts

/-- Expressions, patterns and statements that introduce variables can be taken out of a text without
problems: what stands around them is not needed to read them. -/
theorem parse_extracts {text : Text} (clean : (parse text).errors = []) {n : Nat}
    (inside : n < (parse text).tree.nodes.size) :
    let t := (parse text).tree
    (Category.expr.members.contains (t.kind n) = true →
      ∃ s m, expression (t.trimmedText n) = some s ∧ s.Copies t n m) ∧
    (Category.pat.members.contains (t.kind n) = true →
      ∃ s m, pattern (t.trimmedText n) = some s ∧ s.Copies t n m) ∧
    (t.kind n = .letStmt → ∃ s m, statement (t.trimmedText n) = some s ∧ s.Copies t n m) := by
  intro t
  rcases Nat.eq_zero_or_pos n with rfl | below
  · have root : t.kind 0 = .sourceFile := (parse_rooted text).site.kind
    rw [root]
    exact ⟨fun none => absurd none (by decide), fun none => absurd none (by decide), fun none => by cases none⟩
  obtain ⟨k, inner, offset, tokens, excerpt, base, e, quotes⟩ := parse_extract clean below inside
  rw [show t.trimmedText n = excerpt from quotes.text, show t.kind n = k from quotes.kind]
  exact ⟨expression_of_extract e quotes, pattern_of_extract e quotes, statement_of_extract e quotes⟩

-- A pattern behind a parameter's bracket, a statement, and an operand with a comment in its call.
theorem parse_extracts_operand :
    let text := "fn f(&a: T) \x7b let b = a + g(b, // x\n c) * d; \x7d".toList
    let t := (parse text).tree
    ((parse text).errors = [] ∧ 19 < t.nodes.size ∧
      [5, 12, 19].map t.kind = [.refPat, .letStmt, .binaryExpr]) ∧
        (∃ s m, expression (t.trimmedText 19) = some s ∧ s.Copies t 19 m) ∧
        (∃ s m, pattern (t.trimmedText 5) = some s ∧ s.Copies t 5 m) ∧
          ∃ s m, statement (t.trimmedText 12) = some s ∧ s.Copies t 12 m :=
  ⟨by decide +kernel, (parse_extracts (by decide +kernel) (by decide +kernel)).1 (by decide +kernel),
    (parse_extracts (by decide +kernel) (by decide +kernel)).2.1 (by decide +kernel),
    (parse_extracts (by decide +kernel) (by decide +kernel)).2.2 (by decide +kernel)⟩

end Snippet

end LosslessTree
