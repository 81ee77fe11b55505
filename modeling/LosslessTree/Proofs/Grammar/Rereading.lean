import LosslessTree.Proofs.Grammar.Enclosing
import LosslessTree.Proofs.Grammar.Mirroring
import LosslessTree.Proofs.Grammar.Readable

set_option autoImplicit false

namespace LosslessTree

open Form

variable {eof : Token} {tokens : List Token}

namespace Forest

theorem exists_token {l : Leaf} {rest : Forest} (leaves : (leaf l rest).leaves <+: tokens.map Token.leaf) :
    ∃ t more, tokens = t :: more ∧ l = t.leaf ∧ rest.leaves <+: more.map Token.leaf := by
  cases tokens with
  | nil => exact absurd leaves (by simp [Forest.leaves])
  | cons t more =>
      rw [Forest.leaves, List.map_cons, List.cons_prefix_cons] at leaves
      exact ⟨t, more, rfl, leaves.1, leaves.2⟩

theorem leaves_node {k : Kind} {inner rest : Forest}
    (leaves : (node k inner rest).leaves <+: tokens.map Token.leaf) :
    inner.leaves <+: tokens.map Token.leaf ∧
      rest.leaves <+: (tokens.drop inner.leaves.length).map Token.leaf := by
  obtain ⟨more, whole⟩ := leaves
  rw [Forest.leaves, List.append_assoc] at whole
  refine ⟨⟨_, whole⟩, ⟨more, ?_⟩⟩
  rw [List.map_drop, ← whole, List.drop_left]

theorem plain_of_prefix {f : Forest} (lexed : ∀ t ∈ tokens, t.Lexed)
    (leaves : f.leaves <+: tokens.map Token.leaf) : ∀ l ∈ f.leaves, l.kind.isNode = false := by
  intro l mem
  obtain ⟨t, inside, rfl⟩ := List.mem_map.mp (leaves.subset mem)
  exact (lexed t inside).isNode

theorem take_of_prefix {f : Forest} (leaves : f.leaves <+: tokens.map Token.leaf) :
    (tokens.take f.leaves.length).map Token.leaf = f.leaves := by
  obtain ⟨more, whole⟩ := leaves
  rw [List.map_take, ← whole, List.take_left]

end Forest

section Shapes

variable {inner : Forest} (shaped : inner.Shaped false)
  (plain : ∀ l ∈ inner.leaves, l.kind.isNode = false)

include plain in
theorem single_of_matches {k : Kind} (isNode : k.isNode = true) (tops : inner.tops = [k]) :
    ∃ within, inner = .node k within .nil := by
  obtain ⟨within, rest, rfl, none⟩ := Forest.eq_node_of_tops plain tops isNode
  obtain rfl := Forest.eq_nil_of_tops none
  exact ⟨within, rfl⟩

include shaped plain in
theorem binary_parts (fits : (Kind.binaryExpr.shape false).Matches inner.tops) :
    ∃ k left operator k' right, inner = .node k left (.leaf operator (.node k' right .nil)) ∧
      Category.expr.members.contains k = true ∧ operator.kind = .binaryOperator ∧
        Category.expr.members.contains k' = true := by
  obtain ⟨_, row, split, first, fits⟩ := derives_seq.mp fits
  obtain ⟨k, member, rfl⟩ := matches_category.mp first
  obtain ⟨_, tail, rfl, operator, last⟩ := derives_seq.mp fits
  rw [derives_token.mp operator] at split
  have last := (derives_part.mp last).resolve_right (by simp)
  obtain ⟨k', member', rfl⟩ := matches_category.mp last
  obtain ⟨left, rest, rfl, behind⟩ :=
    Forest.eq_node_of_tops plain split (Category.isNode_of_contains member)
  obtain ⟨op, right, rfl, opKind, tailKinds⟩ :=
    Forest.eq_leaf_of_tops (k := .binaryOperator) shaped.2.2.2 behind rfl
  obtain ⟨within, rfl⟩ := single_of_matches
    (fun l mem => plain l (List.mem_append_right _ (List.mem_cons_of_mem _ mem)))
    (Category.isNode_of_contains member') tailKinds
  exact ⟨k, left, op, k', within, rfl, member, opKind, member'⟩

include plain in
theorem call_parts (fits : (Kind.callExpr.shape false).Matches inner.tops) :
    ∃ k callee arguments, inner = .node k callee (.node .argList arguments .nil) ∧
      Category.expr.members.contains k = true := by
  obtain ⟨_, row, split, first, last⟩ := derives_seq.mp fits
  obtain ⟨k, member, rfl⟩ := matches_category.mp first
  rw [derives_token.mp last] at split
  obtain ⟨callee, rest, rfl, behind⟩ :=
    Forest.eq_node_of_tops plain split (Category.isNode_of_contains member)
  obtain ⟨arguments, rfl⟩ := single_of_matches (fun l mem => plain l (List.mem_append_right _ mem)) rfl behind
  exact ⟨k, callee, arguments, rfl, member⟩

include shaped plain in
theorem reference_parts (fits : (Kind.refExpr.shape false).Matches inner.tops) :
    ∃ ampersand k operand, ampersand.kind = .ampersand ∧ Category.expr.members.contains k = true ∧
      (inner = .leaf ampersand (.node k operand .nil) ∨ ∃ word, word.kind = .mutKw ∧
        inner = .leaf ampersand (.leaf word (.node k operand .nil))) := by
  obtain ⟨_, row, split, first, fits⟩ := derives_seq.mp fits
  rw [derives_token.mp first] at split
  obtain ⟨_, tail, rfl, word, last⟩ := derives_seq.mp fits
  have last := (derives_part.mp last).resolve_right (by simp)
  obtain ⟨k, member, rfl⟩ := matches_category.mp last
  obtain ⟨a, rest, rfl, is, behind⟩ := Forest.eq_leaf_of_tops (k := .ampersand) shaped split rfl
  have shaped : rest.Shaped false := shaped
  have plain : ∀ l ∈ rest.leaves, l.kind.isNode = false := fun l mem => plain l (List.mem_cons_of_mem _ mem)
  have isNode := Category.isNode_of_contains member
  rcases derives_opt.mp word with word | rfl
  · rw [derives_token.mp word] at behind
    have behind : rest.tops = .mutKw :: [k] := behind
    obtain ⟨m, rest, rfl, isWord, behind⟩ := Forest.eq_leaf_of_tops (k := .mutKw) shaped behind rfl
    obtain ⟨operand, rfl⟩ := single_of_matches (fun l mem => plain l (List.mem_cons_of_mem _ mem)) isNode behind
    exact ⟨a, k, operand, is, member, .inr ⟨m, isWord, rfl⟩⟩
  · obtain ⟨operand, rfl⟩ := single_of_matches plain isNode behind
    exact ⟨a, k, operand, is, member, .inl rfl⟩

theorem starts_of_row {k : Kind} {forms : List (Form Empty)}
    (fits : (row (token k :: forms)).Matches inner.tops) : ∃ ks, inner.tops = k :: ks := by
  obtain ⟨_, ks, split, first, -⟩ := derives_row_cons.mp fits
  rw [derives_token.mp first] at split
  exact ⟨ks, split⟩

include shaped in
theorem begins_of_tops {k : Kind} (isToken : k.isNode = false) (tops : ∃ ks, inner.tops = k :: ks)
    (leaves : inner.leaves <+: tokens.map Token.leaf) :
    ∃ t more, tokens.take inner.leaves.length = t :: more ∧ t.kind = k := by
  obtain ⟨ks, tops⟩ := tops
  obtain ⟨l, rest, rfl, rfl, -⟩ := Forest.eq_leaf_of_tops shaped tops isToken
  obtain ⟨t, more, rfl, rfl, -⟩ := Forest.exists_token leaves
  exact ⟨t, more.take rest.leaves.length, rfl, rfl⟩

end Shapes

theorem segments_of_tops {f : Forest} (lexed : ∀ t ∈ tokens, t.Lexed)
    (shaped : f.Shaped false) (leaves : f.leaves <+: tokens.map Token.leaf)
    (fits : (many (row [token .doubleColon, token .nameRef])).Matches f.tops) :
    ∃ more, Expression.Segments more (tokens.take f.leaves.length) f := by
  generalize tops : f.tops = w at fits
  generalize form : many (row [token .doubleColon, token .nameRef]) = a at fits
  induction fits generalizing f tokens with
  | none =>
      obtain rfl := Forest.eq_nil_of_tops tops
      exact ⟨[], .nil⟩
  | more one _ _ ih =>
      cases form
      obtain ⟨_, _, rfl, colons, name⟩ := derives_seq.mp one
      rw [derives_token.mp colons, derives_token.mp name] at tops
      obtain ⟨l, f, rfl, isColons, names⟩ := Forest.eq_leaf_of_tops (k := .doubleColon) shaped tops rfl
      obtain ⟨c, tokens, rfl, rfl, behind⟩ := Forest.exists_token leaves
      have lexed : ∀ t ∈ tokens, t.Lexed := fun t mem => lexed t (List.mem_cons_of_mem _ mem)
      obtain ⟨inner, rest, rfl, further⟩ :=
        Forest.eq_node_of_tops (k := .nameRef) (Forest.plain_of_prefix lexed behind) names rfl
      obtain ⟨-, named, inside, shaped⟩ : (Forest.node .nameRef inner rest).Shaped false := shaped
      obtain ⟨l, _, rfl, isName, ends⟩ :=
        Forest.eq_leaf_of_tops (k := .ident) inside (derives_token.mp named) rfl
      obtain rfl := Forest.eq_nil_of_tops ends
      obtain ⟨t, tokens, rfl, rfl, last⟩ := Forest.exists_token behind
      obtain ⟨more, segments⟩ := ih (fun t mem => lexed t (List.mem_cons_of_mem _ mem)) shaped last further rfl
      exact ⟨_, .cons isColons isName segments⟩
  | _ => cases form

-- Wherever an expression stands, it is read of its own tokens, as tight as its operator is.
def Reread (eof : Token) (tokens : List Token) (k : Kind) (inner : Forest) : Prop :=
  Category.expr.members.contains k = true →
    ∃ level?, (∀ eof', Readable eof' k level? (tokens.take inner.leaves.length) inner) ∧
      ∀ level ∈ level?, k = .binaryExpr ∧ inner.levelAt eof tokens = some level

theorem reread_of_readable {k : Kind} {inner : Forest}
    (h : ∀ eof', Readable eof' k none (tokens.take inner.leaves.length) inner) :
    Reread eof tokens k inner := fun _ => ⟨none, h, by simp⟩

section Kinds

variable {k : Kind} {inner : Forest} (lexed : ∀ t ∈ tokens, t.Lexed) (shaped : inner.Shaped false)
  (leaves : inner.leaves <+: tokens.map Token.leaf)
include shaped leaves

theorem reread_literal (fits : (Kind.literal.shape false).Matches inner.tops) :
    Reread eof tokens .literal inner := by
  obtain ⟨k, mem, tops⟩ := derives_oneOf.mp fits
  have isToken : k.isNode = false := by
    revert mem
    cases k <;> decide
  obtain ⟨l, _, rfl, rfl, ends⟩ := Forest.eq_leaf_of_tops shaped tops isToken
  obtain rfl := Forest.eq_nil_of_tops ends
  obtain ⟨t, more, rfl, rfl, -⟩ := Forest.exists_token leaves
  refine reread_of_readable fun eof' => readable_literal ?_
  rw [Rule.literalFirst, KindSet.contains_ofList]
  exact List.contains_iff_mem.mpr mem

include lexed in
theorem reread_path (fits : (Kind.pathExpr.shape false).Matches inner.tops) :
    Reread eof tokens .pathExpr inner := by
  obtain ⟨path, rfl⟩ :=
    single_of_matches (Forest.plain_of_prefix lexed leaves) (k := .path) rfl (derives_token.mp fits)
  obtain ⟨-, fits, shaped, -⟩ := shaped
  have leaves : path.leaves <+: tokens.map Token.leaf := (Forest.leaves_node leaves).1
  obtain ⟨_, _, split, name, fits⟩ := derives_seq.mp fits
  obtain ⟨segments, last, rfl, many_, ends⟩ := derives_seq.mp fits
  obtain rfl : last = [] := by simpa [spoilt, row] using ends
  rw [derives_token.mp name, List.append_nil] at split
  obtain ⟨inside, rest, rfl, tops⟩ :=
    Forest.eq_node_of_tops (k := .nameRef) (Forest.plain_of_prefix lexed leaves) split rfl
  obtain ⟨-, named, shapedName, shaped⟩ := shaped
  obtain ⟨l, _, rfl, isName, ends⟩ :=
    Forest.eq_leaf_of_tops (k := .ident) shapedName (derives_token.mp named) rfl
  obtain rfl := Forest.eq_nil_of_tops ends
  obtain ⟨t, tokens, rfl, rfl, behind⟩ := Forest.exists_token leaves
  obtain ⟨more, further⟩ :=
    segments_of_tops (fun t mem => lexed t (List.mem_cons_of_mem _ mem)) shaped behind (tops.symm ▸ many_)
  refine reread_of_readable fun eof' => ?_
  simpa [Forest.leaves] using readable_path isName further

theorem reread_parenthesized (isKind : Maker.parenthesized.kinds.contains k = true)
    (begins : ∃ ks, inner.tops = .leftParen :: ks) (enclosed : Enclosed tokens k inner) :
    Reread eof tokens k inner := by
  obtain ⟨o, more, own, opens⟩ := begins_of_tops shaped rfl begins leaves
  have enclosed := enclosed _ isKind
  rw [own] at enclosed
  refine reread_of_readable fun eof' => ?_
  rw [own]
  refine readable_parenthesized opens fun rest Q ends => enclosed.passes_parenthesized.imp ?_
  rintro _ _ _ ⟨rfl, rfl, rfl⟩
  exact ends

theorem reread_block (fits : (Kind.blockExpr.shape false).Matches inner.tops)
    (enclosed : Enclosed tokens .blockExpr inner) : Reread eof tokens .blockExpr inner := by
  obtain ⟨o, more, own, opens⟩ := begins_of_tops shaped rfl (starts_of_row fits) leaves
  have enclosed := enclosed .block rfl
  rw [own] at enclosed
  refine reread_of_readable fun eof' => ?_
  rw [own]
  refine readable_block opens fun rest Q ends => (enclosed eof' rest).imp ?_
  rintro _ _ _ ⟨rfl, rfl⟩
  exact ends

include lexed in
theorem reread_call (fits : (Kind.callExpr.shape false).Matches inner.tops)
    (composed : Kind.callExpr.Composed inner) (each : inner.Each (Reread eof) tokens)
    (enclosed : inner.Each Enclosed tokens) : Reread eof tokens .callExpr inner := by
  obtain ⟨k, callee, args, rfl, isExpr⟩ := call_parts (Forest.plain_of_prefix lexed leaves) fits
  obtain ⟨_, _, _, same, noBinary, noReference⟩ := composed
  cases same
  obtain ⟨level?, readable, -⟩ := each.1 isExpr
  obtain ⟨-, -, -, -, fitsArgs, shapedArgs, -⟩ := shaped
  have behind : args.leaves <+: (tokens.drop callee.leaves.length).map Token.leaf :=
    (Forest.leaves_node (Forest.leaves_node leaves).2).1
  obtain ⟨o, more, own, opens⟩ := begins_of_tops shapedArgs rfl (starts_of_row fitsArgs) behind
  have enclosed := enclosed.2.2.1 .arguments rfl
  rw [own] at enclosed
  refine reread_of_readable fun eof' => ?_
  simp only [Forest.leaves, List.append_nil, List.length_append, List.take_add, own]
  refine readable_call (readable eof') noBinary noReference opens fun rest Q ends => ?_
  refine (enclosed eof' rest).imp ?_
  rintro _ _ _ ⟨rfl, rfl⟩
  exact ends

include lexed in
theorem reread_reference (fits : (Kind.refExpr.shape false).Matches inner.tops)
    (composed : Kind.refExpr.Composed inner) (each : inner.Each (Reread eof) tokens) :
    Reread eof tokens .refExpr inner := by
  obtain ⟨a, k, operand, isRef, isExpr, rfl | ⟨word, isWord, rfl⟩⟩ :=
    reference_parts shaped (Forest.plain_of_prefix lexed leaves) fits
  · obtain ⟨t, tokens, rfl, rfl, -⟩ := Forest.exists_token leaves
    obtain ⟨level?, readable, -⟩ := each.1 isExpr
    refine reread_of_readable fun eof' => ?_
    simpa [Forest.leaves] using readable_reference isRef (readable eof') composed.1
  · obtain ⟨t, tokens, rfl, rfl, behind⟩ := Forest.exists_token leaves
    obtain ⟨m, tokens, rfl, rfl, -⟩ := Forest.exists_token behind
    obtain ⟨level?, readable, -⟩ := each.1 isExpr
    refine reread_of_readable fun eof' => ?_
    simpa [Forest.leaves] using readable_mutable isRef (readable eof') composed.1 isWord

theorem complete_of_shape (lexed : ∀ t ∈ tokens, t.Lexed)
    (fits : (Kind.binaryExpr.shape false).Matches inner.tops) : inner.Complete := by
  obtain ⟨k, left, operator, k', right, rfl, -, -, isExpr⟩ :=
    binary_parts shaped (Forest.plain_of_prefix lexed leaves) fits
  rintro rfl
  revert isExpr
  decide

include lexed in
theorem reread_binary (fits : (Kind.binaryExpr.shape false).Matches inner.tops)
    (ranked : Ranked eof tokens .binaryExpr inner) (each : inner.Each (Reread eof) tokens) :
    Reread eof tokens .binaryExpr inner := by
  obtain ⟨k, left, operator, k', right, rfl, isExpr, isOperator, isExpr'⟩ :=
    binary_parts shaped (Forest.plain_of_prefix lexed leaves) fits
  obtain ⟨_, _, _, _, _, level, same, here, graded⟩ := ranked.resolve_left id
  cases same
  obtain ⟨level?, readable, own⟩ := each.1 isExpr
  obtain ⟨level?', readable', own'⟩ := each.2.2.1 isExpr'
  obtain ⟨inside, behind⟩ := Forest.leaves_node leaves
  obtain ⟨o, more, drop, rfl, -⟩ := Forest.exists_token behind
  have lexedOperator : o.Lexed := lexed o (List.mem_of_mem_drop (drop ▸ List.mem_cons_self))
  obtain ⟨level', ahead_, found, pos⟩ := lexedOperator.operator_level isOperator
  obtain rfl : level' = level := by
    rw [Forest.levelAt, drop] at here
    exact Option.some.inj (ahead_.symm.trans here)
  refine fun _ => ⟨some level', fun eof' => ?_, ?_⟩
  · have after : tokens.drop (left.leaves.length + 1) = more := by rw [← List.drop_drop, drop]; rfl
    simp only [Forest.leaves, List.append_nil, List.length_append, List.length_cons, List.take_add, drop,
      List.take_succ_cons]
    rw [drop, List.tail_cons] at readable' own'
    refine readable_binary isOperator found pos (readable eof') (readable' eof') ?_ ?_
    · intro l mem
      obtain ⟨rfl, levelAt⟩ := own l mem
      obtain ⟨l', same, above⟩ := graded.before rfl
        (complete_of_shape shaped.2.2.1 inside lexed shaped.2.1)
      obtain rfl := Option.some.inj (levelAt.symm.trans same)
      exact above
    · intro l mem
      obtain ⟨rfl, levelAt⟩ := own' l mem
      obtain ⟨l', same, above⟩ := graded.behind right rfl
      rw [after] at same
      obtain rfl := Option.some.inj (levelAt.symm.trans same)
      exact above
  · rintro _ ⟨⟩
    exact ⟨rfl, here⟩

end Kinds

theorem Forest.each_reread {f : Forest} (lexed : ∀ t ∈ tokens, t.Lexed) (shaped : f.Shaped false)
    (leaves : f.leaves <+: tokens.map Token.leaf) (enclosed : f.Each Enclosed tokens)
    (ranked : f.Each (Ranked eof) tokens) : f.Each (Reread eof) tokens := by
  induction f generalizing tokens with
  | nil => trivial
  | leaf l rest ih =>
      obtain ⟨t, tokens, rfl, rfl, behind⟩ := exists_token leaves
      exact ih (fun t mem => lexed t (List.mem_cons_of_mem _ mem)) shaped behind enclosed ranked
  | node k inner rest ih ih' =>
      obtain ⟨isNode, fits, shaped, shaped'⟩ := shaped
      obtain ⟨enclosed, within, behind⟩ := enclosed
      obtain ⟨ranked, within', behind'⟩ := ranked
      obtain ⟨here, after⟩ := leaves_node leaves
      have each := ih lexed shaped here within within'
      refine ⟨?_, each, ih' (fun t mem => lexed t (List.mem_of_mem_drop mem)) shaped' after behind behind'⟩
      cases k with
      | literal => exact reread_literal shaped here fits
      | pathExpr => exact reread_path lexed shaped here fits
      | tupleExpr =>
          refine reread_parenthesized shaped here rfl ?_ enclosed
          rcases derives_alt.mp fits with fits | fits <;> exact starts_of_row fits
      | parenExpr => exact reread_parenthesized shaped here rfl (starts_of_row fits) enclosed
      | blockExpr => exact reread_block shaped here fits enclosed
      | callExpr =>
          exact reread_call lexed shaped here fits (ranked.resolve_right (by simp)) each within
      | refExpr => exact reread_reference lexed shaped here fits (ranked.resolve_right (by simp)) each
      | binaryExpr => exact reread_binary lexed shaped here fits ranked each
      | _ => exact fun isExpr => absurd isExpr (by decide)

theorem TokenStream.run_reread {s : TokenStream} (atEof : s.eof.kind = .eof)
    (lexed : ∀ t ∈ s.tokens, t.Lexed) (quiet : (s.run .file).reports = []) :
    (s.run .file).parts.Each (Reread s.eof) s.tokens := by
  have plain : ∀ t ∈ s.tokens, t.kind.isNode = false := fun t mem => (lexed t mem).isNode
  have whole : (s.run .file).Quiet false := fun _ => quiet
  obtain ⟨shaped, -, -⟩ := run_file_fits atEof plain whole
  exact Forest.each_reread lexed shaped ⟨_, (s.run_keeps Rule.file).symm⟩
    (run_enclosed atEof plain quiet).parts (run_ranked atEof plain).parts

theorem Rule.Passes.mirrored {α : Type} {rule : Rule α} {P : α → Prop} {k : Kind} {inner : Forest}
    {own own' later : List Token}
    (same : own.map Token.lookahead = own'.map Token.lookahead)
    (h : Passes eof rule (own ++ later) fun a parts rest => P a ∧ parts = .node k inner .nil ∧ rest = later) :
    ∃ inner', inner'.bare = inner.bare ∧ inner'.leaves = own'.map Token.leaf ∧
      Passes eof rule (own' ++ later) fun a parts rest =>
        P a ∧ parts = .node k inner' .nil ∧ rest = later := by
  obtain ⟨s, given, quiet, value, built, left⟩ := h
  have all : List.Forall₂ (fun t t' : Token => t.lookahead = t'.lookahead) (own ++ later) (own' ++ later) := by
    rw [← List.forall₂_eq_eq_eq, List.forall₂_map_left_iff, List.forall₂_map_right_iff] at same
    exact List.rel_append same (List.forall₂_same.mpr fun _ _ => rfl)
  obtain ⟨s', given', mirrored⟩ := Rule.Gives.mirrored (fun _ _ => id) rfl
    (Production.Gives.mirrored (fun _ _ => id) rfl) rule _ _ given _ all
  have silent : s'.reports = [] := by
    have reports := mirrored.reports
    rw [quiet] at reports
    exact List.forall₂_nil_left_iff.mp reports
  have rest : s'.rest = later := by
    have framed : Frames (rule.Gives eof (Production.Gives eof)) (rule.Gives eof (Production.Gives eof)) :=
      Rule.Gives.framed Production.Gives.framed rule
    have suffix := (framed _ _ given').1
    have length := mirrored.rest.length_eq
    rw [left] at length
    exact (List.suffix_of_suffix_length_le suffix (List.suffix_append own' later)
      (Nat.le_of_eq length.symm)).eq_of_length length.symm
  obtain ⟨inner', bare, parts⟩ : ∃ inner', inner'.bare = inner.bare ∧ s'.parts = .node k inner' .nil := by
    have parts := mirrored.parts
    rw [built] at parts
    cases made : s'.parts with
    | nil => simp [made, Forest.bare] at parts
    | leaf => simp [made, Forest.bare] at parts
    | node k' inner' behind =>
        simp only [made, Forest.bare, Forest.node.injEq] at parts
        obtain ⟨rfl, bare, none⟩ := parts
        cases behind with
        | nil => exact ⟨inner', bare.symm, rfl⟩
        | leaf => cases none
        | node => cases none
  refine ⟨inner', bare, ?_, s', given', silent, mirrored.value ▸ value, parts, rest⟩
  have keeps := given'.keeps
  simpa [Step.Keeps, parts, rest, Forest.leaves, eq_comm] using keeps

end LosslessTree
