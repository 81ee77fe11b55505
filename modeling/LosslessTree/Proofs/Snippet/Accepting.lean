import LosslessTree.Proofs.Snippet.Filling
import LosslessTree.Proofs.Snippet.Framed
import LosslessTree.Proofs.Tree.Gaps
import LosslessTree.Proofs.Tree.Nesting

set_option autoImplicit false

namespace LosslessTree

open TokenStream SyntaxTree

theorem Frame.parse_standing {text : Text} {x : Frame} {word : Token} {own : List Token} {inside : Forest}
    (tokens : (ofText text).tokens = x.lead ++ (word :: own ++ [x.rightBrace])) (fits : x.Fits)
    (isLet : word.kind = .letKw)
    (inner : Rule.Passes (ofText text).eof Rule.statement (word :: own ++ [x.rightBrace]) fun _ parts left =>
      parts = .node .letStmt inside .nil ∧ left = [x.rightBrace]) :
    (parse text).errors = [] ∧ x.Standing (parse text).tree inside (word :: own) := by
  have passes := Frame.passes_file (Q := fun _ parts _ => parts = .node .fnItem (x.fnParts inside) .nil)
    fits isLet inner (ofText_eof text) rfl
  rw [← tokens] at passes
  obtain ⟨s, given, quiet, parts⟩ := passes
  have run := (gives_file (ofText_eof text) (ofText_plain text)).unique given
  have covers := parse_covers text
  have lexed := ofText_lexed text
  rw [run, parts, tokens] at covers
  rw [tokens] at lexed
  refine ⟨?_, Frame.standing covers lexed⟩
  change ((ofText text).run .file).reports = []
  rw [run, quiet]

namespace Snippet

-- A filled template has no problems, and the first node that is the whole snippet is made of the
-- snippet's tokens.
structure Stands (template : Template) (excerpt : Text) (kinds : KindSet) (n : Nat) (k : Kind)
    (own : List Token) (inner : Forest) : Prop where
  clean : (parse (template.fill excerpt)).errors = []
  covers : ∃ parent p rest more, p.node = n ∧
    (parse (template.fill excerpt)).tree.Covers parent p (.node k inner rest) (own ++ more)
  found : ((parse (template.fill excerpt)).tree.descendants 0).find?
    (isWhole (parse (template.fill excerpt)).tree template excerpt kinds) = some n

section Reading

variable {template : Template} {excerpt : Text} {kinds : KindSet} {n : Nat} {k : Kind} {own : List Token}
  {inner : Forest} {t : SyntaxTree}

theorem descendants_fill : (parse (template.fill excerpt)).tree.descendants 0 =
    List.range' 1 ((parse (template.fill excerpt)).tree.nodes.size - 1) := by
  have nodes : (parse (template.fill excerpt)).tree.descendants 0 =
      List.range' 1 (ofText (template.fill excerpt)).forest.nodeCount := (parse_rooted _).site.descendants
  rw [nodes, parse_nodes_size, TokenStream.forest, Forest.nodeCount_append, Nat.add_sub_cancel_left]
  rfl

theorem Stands.resolve (h : Stands template excerpt kinds n k own inner) :
    (parse (template.fill excerpt)).tree.resolve 0 ((parse (template.fill excerpt)).tree.address n) = .ok n := by
  have inside := List.mem_of_find?_eq_some h.found
  rw [descendants_fill, List.mem_range'_1] at inside
  rw [SyntaxTree.resolve, parse_resolve (by omega)]

theorem Stands.read (h : Stands template excerpt kinds n k own inner) (trimmed : excerpt.trim = excerpt) :
    ∃ s, read template excerpt kinds = some s ∧ s.file = parse (template.fill excerpt) ∧ s.node = .ok n := by
  refine ⟨⟨parse (template.fill excerpt), (parse (template.fill excerpt)).tree.address n⟩, ?_, rfl, h.resolve⟩
  have silent : (parse (template.fill excerpt)).hasErrors = false := by simp [Parse.hasErrors, h.clean]
  simp only [Snippet.read, trimmed, silent, Bool.false_eq_true, if_false, h.found]
  rfl

theorem not_isWhole_of_kind (is : t.kind n = k) (other : kinds.contains k = false) :
    isWhole t template excerpt kinds n = false := by
  simp [isWhole, is, other]

theorem not_isWhole_of_start (before : (t.trimmedSpan n).start < template.lead.byteLength) :
    isWhole t template excerpt kinds n = false := by
  simp [isWhole, Nat.ne_of_lt before]

-- Of the nodes in front of the statement only the block may be of a kind that is asked for. It
-- begins too early.
theorem not_isWhole_of_standing {x : Frame} {inside : Forest} {own : List Token}
    (standing : x.Standing t inside own) (before : x.leftBrace.start < template.lead.byteLength)
    (others : ∀ k ∈ [Kind.fnItem, .name, .paramList], kinds.contains k = false) (below : 0 < n)
    (inFront : n < 5) : isWhole t template excerpt kinds n = false := by
  have is := standing.kinds
  simp only [List.map_cons, List.map_nil, List.cons.injEq, and_true] at is
  obtain ⟨fn, name, params, -⟩ := is
  obtain rfl | rfl | rfl | rfl : n = 1 ∨ n = 2 ∨ n = 3 ∨ n = 4 := by omega
  · exact not_isWhole_of_kind fn (others _ (by simp))
  · exact not_isWhole_of_kind name (others _ (by simp))
  · exact not_isWhole_of_kind params (others _ (by simp))
  · exact not_isWhole_of_start (standing.block ▸ before)

end Reading

section Templates

variable {template : Template} {kinds kinds' : List Kind} {excerpt : Text}
  {base before own behind : List Token} {k : Kind} {inner : Forest}

theorem Fills.frame (fills : Fills template (fnKinds ++ kinds) (kinds' ++ [.rightBrace]) excerpt base before own behind) :
    ∃ (x : Frame) (front tail : List Token), before = x.lead ++ front ∧ behind = tail ++ [x.rightBrace] ∧
      x.Fits ∧ front.map Token.kind = kinds ∧ tail.map Token.kind = kinds' := by
  obtain ⟨lead, front, rfl, leadKinds, frontKinds⟩ := List.map_eq_append_iff.mp fills.kinds
  obtain ⟨tail, last, rfl, tailKinds, lastKind⟩ := List.map_eq_append_iff.mp fills.kinds'
  obtain ⟨brace, rfl, closes⟩ := List.map_eq_singleton_iff.mp lastKind
  obtain ⟨x, rfl, rfl, fits⟩ := Frame.exists_of_kinds leadKinds closes
  exact ⟨x, front, tail, rfl, rfl, fits, frontKinds, tailKinds⟩

theorem Fills.solid (fills : Fills template kinds kinds' excerpt base before own behind) :
    ∀ t ∈ own, t.leaf.Solid := by
  intro t mem
  refine (ofText_lexed (template.fill excerpt) t ?_).solid
  rw [fills.tokens]
  exact List.mem_append_right _ (List.mem_append_left _ mem)

theorem Fills.quotes {more : List Token} {parent : Nat} {p : Place} {rest f : Forest}
    (fills : Fills template kinds kinds' excerpt base before own behind) (h : Passage excerpt base)
    (covers : (parse (template.fill excerpt)).tree.Covers parent p (.node k inner rest) (own ++ more))
    (leaves : inner.leaves = own.map Token.leaf) (bare : inner.bare = f.bare) :
    (parse (template.fill excerpt)).tree.Quotes p.node template.lead.byteLength k f excerpt base := by
  have text : (parse (template.fill excerpt)).tree.text = template.lead ++ (excerpt ++ template.tail) :=
    List.append_assoc _ _ _
  refine covers.quotes (by rw [leaves, List.length_map]) bare (fun l mem => ?_) text h fills.alike
  rw [leaves] at mem
  obtain ⟨t, inside, rfl⟩ := List.mem_map.mp mem
  exact fills.solid t inside

theorem Fills.stands {accepted : KindSet} {n : Nat} {tokens : List Token} {parent : Nat} {p : Place}
    {rest : Forest} (fills : Fills template kinds kinds' excerpt base before own behind) (h : Passage excerpt base)
    (clean : (parse (template.fill excerpt)).errors = [])
    (covers : (parse (template.fill excerpt)).tree.Covers parent p (.node k inner rest) tokens)
    (front : own <+: tokens) (leaves : inner.leaves = own.map Token.leaf) (at_ : p.node = n) (below : 0 < n)
    (isKind : accepted.contains k = true) (real : k ≠ default)
    (others : ∀ m, 0 < m → m < n →
      isWhole (parse (template.fill excerpt)).tree template excerpt accepted m = false) :
    Stands template excerpt accepted n k own inner := by
  obtain ⟨more, rfl⟩ := front
  have quotes := fills.quotes h covers leaves rfl
  rw [at_] at quotes
  have inside := lt_size_of_kind (quotes.kind ▸ real)
  refine ⟨clean, ⟨parent, p, rest, more, at_, covers⟩, ?_⟩
  rw [descendants_fill, List.find?_range'_eq_some]
  refine ⟨?_, List.mem_range'_1.mpr ⟨below, by omega⟩, fun m first last => by simp [others m first last]⟩
  simp [isWhole, quotes.kind, isKind, quotes.span, quotes.text]

theorem stands_inInitializer (h : Passage excerpt base)
    (fills : Fills inInitializer (fnKinds ++ [.letKw, .underscore, .equal]) ([.semicolon] ++ [.rightBrace])
      excerpt base before own behind)
    (isExpr : Category.expr.members.contains k = true) (leaves : inner.leaves = own.map Token.leaf)
    (passes : Rule.Passes (ofText (inInitializer.fill excerpt)).eof Rule.innerExpression (own ++ behind)
      fun _ parts left => parts = .node k inner .nil ∧ left = behind) :
    Stands inInitializer excerpt Category.expr.members 7 k own inner := by
  obtain ⟨x, front, tail, rfl, rfl, fits, frontKinds, tailKinds⟩ := fills.frame
  obtain ⟨semicolon, rfl, closes⟩ := List.map_eq_singleton_iff.mp tailKinds
  have words := frontKinds
  simp only [List.map_eq_cons_iff, List.map_eq_nil_iff] at words
  obtain ⟨word, _, rfl, isLet, wildcard, _, rfl, -, equal, _, rfl, -, rfl⟩ := words
  have statement := passes_initializer closes frontKinds passes
  have tokens : (ofText (inInitializer.fill excerpt)).tokens =
      x.lead ++ (word :: (wildcard :: equal :: (own ++ [semicolon])) ++ [x.rightBrace]) := by
    simpa using fills.tokens
  obtain ⟨clean, standing⟩ := Frame.parse_standing tokens fits isLet (by simpa using statement)
  obtain ⟨p, rest, at_, covers⟩ := standing.statement
  have inLet := covers.node.2.1.leaf.2.2.2
  refine fills.stands h clean inLet.node.2.2.leaf.2.2.2 (by simp) leaves ?_ (by decide) isExpr
    (fun none => ?_) fun m below inFront => ?_
  · simp [Place.inside, Place.afterLeaf, Place.after, Forest.nodeCount, at_]
  · rw [none] at isExpr
    cases isExpr
  · rcases Nat.lt_or_ge m 5 with first | later
    · refine not_isWhole_of_standing standing (fills.start _ ?_) (by decide) below first
      simp [Frame.lead]
    obtain rfl | rfl : m = 5 ∨ m = 6 := by omega
    · exact not_isWhole_of_kind (at_ ▸ covers.node.1.kind) (by decide)
    · have wild : (p.inside.afterLeaf word.leaf).node = 6 := by simp [Place.inside, Place.afterLeaf, at_]
      exact not_isWhole_of_kind (wild ▸ inLet.node.1.kind) (by decide)

theorem stands_inLetPattern (h : Passage excerpt base)
    (fills : Fills inLetPattern (fnKinds ++ [.letKw]) ([.equal, .ident, .semicolon] ++ [.rightBrace])
      excerpt base before own behind)
    (isPat : Category.pat.members.contains k = true) (leaves : inner.leaves = own.map Token.leaf)
    (passes : Rule.Passes (ofText (inLetPattern.fill excerpt)).eof Rule.pattern (own ++ behind)
      fun kind parts left => kind.isSome = true ∧ parts = .node k inner .nil ∧ left = behind) :
    Stands inLetPattern excerpt Category.pat.members 6 k own inner := by
  obtain ⟨x, front, tail, rfl, rfl, fits, frontKinds, tailKinds⟩ := fills.frame
  obtain ⟨word, rfl, isLet⟩ := List.map_eq_singleton_iff.mp frontKinds
  simp only [List.map_eq_cons_iff, List.map_eq_nil_iff] at tailKinds
  obtain ⟨equal, _, rfl, isEqual, value, _, rfl, isName, semicolon, _, rfl, closes, rfl⟩ := tailKinds
  have statement := passes_pattern_of_let closes isLet (by simp [isEqual, isName]) passes
  have tokens : (ofText (inLetPattern.fill excerpt)).tokens =
      x.lead ++ (word :: (own ++ [equal, value, semicolon]) ++ [x.rightBrace]) := by
    simpa using fills.tokens
  obtain ⟨clean, standing⟩ := Frame.parse_standing tokens fits isLet (by simpa using statement)
  obtain ⟨p, rest, at_, covers⟩ := standing.statement
  refine fills.stands h clean covers.node.2.1.leaf.2.2.2 (by simp) leaves ?_ (by decide) isPat
    (fun none => ?_) fun m below inFront => ?_
  · simp [Place.inside, Place.afterLeaf, at_]
  · rw [none] at isPat
    cases isPat
  · rcases Nat.lt_or_ge m 5 with first | later
    · refine not_isWhole_of_standing standing (fills.start _ ?_) (by decide) below first
      simp [Frame.lead]
    obtain rfl : m = 5 := by omega
    exact not_isWhole_of_kind (at_ ▸ covers.node.1.kind) (by decide)

theorem stands_inBlock (h : Passage excerpt base)
    (fills : Fills inBlock (fnKinds ++ []) ([] ++ [.rightBrace]) excerpt base before own behind)
    (begins : ∃ word more, own = word :: more ∧ word.kind = .letKw) (leaves : inner.leaves = own.map Token.leaf)
    (passes : Rule.Passes (ofText (inBlock.fill excerpt)).eof Rule.letStatement (own ++ behind)
      fun _ parts left => parts = .node .letStmt inner .nil ∧ left = behind) :
    Stands inBlock excerpt Category.stmt.members 5 .letStmt own inner := by
  obtain ⟨x, front, tail, rfl, rfl, fits, frontKinds, tailKinds⟩ := fills.frame
  obtain rfl := List.map_eq_nil_iff.mp frontKinds
  obtain rfl := List.map_eq_nil_iff.mp tailKinds
  obtain ⟨word, more, rfl, isLet⟩ := begins
  obtain ⟨clean, standing⟩ := Frame.parse_standing (by simpa using fills.tokens) fits isLet
    (passes_statement_of_let isLet passes)
  obtain ⟨p, rest, at_, covers⟩ := standing.statement
  refine fills.stands h clean covers (by simp) leaves at_ (by decide) (by decide) (by decide) fun m below inFront => ?_
  refine not_isWhole_of_standing standing (fills.start _ ?_) (by decide) below inFront
  simp [Frame.lead]

end Templates

end Snippet

end LosslessTree
