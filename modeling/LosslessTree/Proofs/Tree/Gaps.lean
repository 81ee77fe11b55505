import LosslessTree.Proofs.Token.Passages

set_option autoImplicit false

namespace LosslessTree

namespace SyntaxTree

def written (t : SyntaxTree) (i : Nat) : Kind × Text := (t.tokenKind i, t.tokenText i)

def sides (t : SyntaxTree) (i : Nat) : List (Kind × Text) × List (Kind × Text) :=
  ((t.leadingTrivia i).map t.written, (t.trailingTrivia i).map t.written)

def gaps (t : SyntaxTree) (n : Nat) : List (List (Kind × Text) × List (Kind × Text)) :=
  let sides := (t.significantTokens n).map t.sides
  sides.zipWith (fun s s' => (s.2, s'.1)) sides.tail

end SyntaxTree

def Trivia.written (t : Trivia) : Kind × Text := (t.kind.kind, t.text)

def Token.sides (t : Token) : List (Kind × Text) × List (Kind × Text) :=
  (t.leading.map Trivia.written, t.trailing.map Trivia.written)

namespace SyntaxTree

variable {t : SyntaxTree} {parent offset start : Nat} {tokens : List Token}

theorem written_stretch {pieces : List Trivia}
    (h : Piece.layout parent offset (pieces.map Trivia.piece) <+: t.tokens.toList.drop start)
    {before after : Text} (text : t.text = before ++ (Trivia.textOf pieces ++ after))
    (place : before.byteLength = offset) :
    (List.range' start pieces.length).map t.written = pieces.map Trivia.written := by
  induction pieces generalizing offset start before with
  | nil => rfl
  | cons piece pieces ih =>
      have data : t.token start = ⟨piece.kind.kind, parent, ⟨offset, offset + piece.length⟩, 0, 0⟩ := by
        rw [token_eq_getD]
        exact getD_of_prefix_drop _ h
      have split : t.text = before ++ (piece.text ++ (Trivia.textOf pieces ++ after)) := by
        rw [text]
        simp [Trivia.textOf]
      have split' : t.text = (before ++ piece.text) ++ (Trivia.textOf pieces ++ after) := by
        rw [split, List.append_assoc]
      have further := ih (prefix_drop_tail h) split' (by rw [Text.byteLength_append, place]; rfl)
      have own : t.written start = piece.written := by
        rw [written, tokenKind, tokenText, tokenSpan, textAt, data, split, ← place]
        exact congrArg _ (Text.slice_append before piece.text _)
      rw [List.length_cons, List.range'_succ, List.map_cons, List.map_cons, own, further]

theorem Carries.leaf_sides {p : Place} {token : Token} {rest : Forest}
    (h : t.Carries parent p (.leaf token.leaf rest) (token :: tokens)) :
    t.sides (p.token + token.leaf.leading.length) = token.sides := by
  obtain ⟨before, after, text, place⟩ := h.text
  have here := h.embeds.leaf.1
  have data := leaf_token here
  obtain ⟨leading, own⟩ := prefix_drop_append here
  rw [Piece.layout_length] at own
  have trailing := prefix_drop_tail own
  have split : t.text = before ++ (Trivia.textOf token.leading ++ (token.text ++
      (Trivia.textOf token.trailing ++ ((tokens.map Token.fullText).flatten ++ after)))) := by
    rw [text]
    simp [Token.fullText]
  have split' : t.text = (before ++ (Trivia.textOf token.leading ++ token.text)) ++
      (Trivia.textOf token.trailing ++ ((tokens.map Token.fullText).flatten ++ after)) := by
    rw [split]
    simp only [List.append_assoc]
  have place' : Text.byteLength (before ++ (Trivia.textOf token.leading ++ token.text)) =
      p.offset + Piece.lengthOf token.leaf.leading + token.leaf.length := by
    rw [Text.byteLength_append, Text.byteLength_append, place, Trivia.byteLength_textOf,
      ← Token.lengthOf_pieces, ← Nat.add_assoc]
    rfl
  have front := written_stretch leading split place
  have back := written_stretch trailing split' place'
  have leads : token.leaf.leading.length = token.leading.length := List.length_map _
  have trails : token.leaf.trailing.length = token.trailing.length := List.length_map _
  rw [sides, Token.sides, leadingTrivia, trailingTrivia, data]
  simp only [Nat.add_sub_cancel, leads, trails] at back ⊢
  rw [front, back]

theorem filter_leaf {l : Leaf} (h : l.layout parent offset <+: t.tokens.toList.drop start)
    (own : l.kind.isTrivia = false) :
    (List.range' start l.tokenCount).filter (fun i => !(t.tokenKind i).isTrivia) =
      [start + l.leading.length] := by
  obtain ⟨leading, behind⟩ := prefix_drop_append h
  rw [Piece.layout_length] at behind
  have trailing := prefix_drop_tail behind
  have kind := tokenKind_leaf h
  have none {start n : Nat} (trivia : ∀ i, start ≤ i → i < start + n → (t.tokenKind i).isTrivia = true) :
      (List.range' start n).filter (fun i => !(t.tokenKind i).isTrivia) = [] := by
    rw [List.filter_eq_nil_iff]
    intro i mem
    rw [List.mem_range'_1] at mem
    simp [trivia i mem.1 mem.2]
  have split : List.range' start l.tokenCount = List.range' start l.leading.length ++
      (start + l.leading.length) :: List.range' (start + l.leading.length + 1) l.trailing.length := by
    rw [Leaf.tokenCount, Nat.add_assoc, Nat.add_comm 1, ← List.range'_append_1, List.range'_succ]
  rw [split, List.filter_append, List.filter_cons, none (isTrivia_of_stretch leading),
    none (isTrivia_of_stretch trailing), kind, own]
  rfl

theorem Carries.map_sides {p : Place} {f : Forest} (h : t.Carries parent p f tokens)
    (own : ∀ l ∈ f.leaves, l.kind.isTrivia = false) :
    ((List.range' p.token f.tokenCount).filter fun i => !(t.tokenKind i).isTrivia).map t.sides =
      (tokens.take f.leaves.length).map Token.sides := by
  induction f generalizing parent p tokens with
  | nil => rfl
  | leaf l rest ih =>
      obtain ⟨token, behind, rfl, rfl, -, further⟩ := h.leaf
      obtain ⟨here, others⟩ := List.forall_mem_cons.mp own
      have more := ih further others
      simp only [Place.afterLeaf] at more
      rw [Forest.tokenCount, ← List.range'_append_1, List.filter_append, filter_leaf h.embeds.leaf.1 here,
        List.map_append, more, List.map_singleton, h.leaf_sides]
      rfl
  | node k inner rest hi hr =>
      obtain ⟨within, behind⟩ := h.node
      have first := hi within fun l mem => own l (List.mem_append_left _ mem)
      have more := hr behind fun l mem => own l (List.mem_append_right _ mem)
      simp only [Place.after, Place.inside] at first more
      rw [Forest.tokenCount, ← List.range'_append_1, List.filter_append, List.map_append, first, more,
        Forest.leaves, List.length_append, List.take_add, List.map_append]

theorem Site.gaps_of_tokens {around : Option Nat} {p : Place} {k : Kind} {inner : Forest}
    (site : t.Site around p k inner) (carries : t.Carries p.node p.inside inner tokens)
    (own : ∀ l ∈ inner.leaves, l.kind.isTrivia = false) :
    t.gaps p.node = (Token.gaps (tokens.take inner.leaves.length)).map fun g =>
      (g.1.map Trivia.written, g.2.map Trivia.written) := by
  have sides := carries.map_sides own
  rw [show List.range' p.inside.token inner.tokenCount = t.tokensOf p.node from site.tokensOf.symm] at sides
  rw [SyntaxTree.gaps, significantTokens, sides, Token.gaps, ← List.map_tail, List.zipWith_map,
    List.map_zipWith]
  rfl

structure Quotes (t : SyntaxTree) (n offset : Nat) (k : Kind) (f : Forest) (excerpt : Text)
    (base : List Token) : Prop where
  kind : t.kind n = k
  span : t.trimmedSpan n = ⟨offset, offset + excerpt.byteLength⟩
  text : t.trimmedText n = excerpt
  glimpses : t.glimpses n = (Glimpse.enter k :: f.glimpses base ++ [Glimpse.leave k]).map (Glimpse.shift offset)
  gaps : t.gaps n = (Token.gaps base).map fun g => (g.1.map Trivia.written, g.2.map Trivia.written)

theorem Covers.quotes {p : Place} {k : Kind} {inner rest f : Forest} {own more base : List Token}
    {before excerpt after : Text} (covers : t.Covers parent p (.node k inner rest) (own ++ more))
    (length : inner.leaves.length = own.length) (bare : inner.bare = f.bare)
    (solid : ∀ l ∈ inner.leaves, l.Solid) (text : t.text = before ++ (excerpt ++ after))
    (h : Passage excerpt base) (alike : Token.Alike before.byteLength base own) :
    t.Quotes p.node before.byteLength k f excerpt base := by
  obtain ⟨site, inside, -⟩ := covers.node
  have take : (own ++ more).take inner.leaves.length = own := by rw [length, List.take_left]
  have plain : ∀ l ∈ inner.leaves, l.kind.isTrivia = false := fun l mem => (solid l mem).1
  have span : t.trimmedSpan p.node = ⟨before.byteLength, before.byteLength + excerpt.byteLength⟩ := by
    obtain ⟨first, first', head, head', moved⟩ := Token.Moved.head alike.moved h.some_
    obtain ⟨last, last', final, final', moved'⟩ := Token.Moved.last alike.moved h.some_
    have start := h.start first head
    have stop := h.stop last final
    rw [site.trimmedSpan_of_tokens inside plain (by rw [take, head']) (by rw [take, final'])]
    rw [Token.stop] at stop ⊢
    rw [moved.start, moved'.start, moved'.text, Span.mk.injEq]
    omega
  refine ⟨site.kind, span, ?_, ?_, ?_⟩
  · rw [trimmedText, span, textAt, text]
    exact Text.slice_append before excerpt after
  · have here : inner.glimpses (own ++ more) = (f.glimpses base).map (Glimpse.shift before.byteLength) := by
      rw [Forest.glimpses_prefix (Nat.le_of_eq length), ← Forest.glimpses_bare, bare, Forest.glimpses_bare,
        Forest.glimpses_moved f alike.moved]
    rw [covers.carries.glimpses_node covers.tiled, here]
    simp [Glimpse.shift]
  · rw [site.gaps_of_tokens inside.carries plain, take, alike.gaps]

end SyntaxTree

end LosslessTree
