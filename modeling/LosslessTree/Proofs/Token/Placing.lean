import LosslessTree.Proofs.Token.Lexing
import LosslessTree.Proofs.Tree.Acceptance
import LosslessTree.Proofs.Tree.Chain
import LosslessTree.Token.Lexer

set_option autoImplicit false

namespace LosslessTree

namespace Lexer

def left (l : Lexer) : Nat := if l.current.kind = .eof then 0 else l.rest.length + 1

theorem left_take {l : Lexer} (more : l.current.kind ≠ .eof) : l.take.2.left < l.left := by
  rw [left, left, if_neg more]
  split
  · omega
  · next behind =>
      have := Token.scan_length behind
      simp only [take, scan] at this ⊢
      omega

def drain (l : Lexer) : List Token :=
  if _more : l.current.kind ≠ .eof then l.take.1 :: drain l.take.2 else [l.take.1]
termination_by l.left
decreasing_by exact left_take _more

theorem drain_scan (offset : Nat) (t : Text) :
    (scan offset t).drain = (TokenStream.ofTextAt offset t).all := by
  fun_induction TokenStream.ofTextAt offset t with
  | case1 offset t first more rest ih =>
      have here : (scan offset t).current.kind ≠ .eof := more
      rw [drain, dif_pos here]
      exact congrArg (first.1 :: ·) ih
  | case2 offset t first ended =>
      have here : ¬(scan offset t).current.kind ≠ .eof := ended
      rw [drain, dif_neg here]
      rfl

theorem drain_start (text : Text) : (start text).drain = (TokenStream.ofText text).all :=
  drain_scan 0 text

end Lexer

namespace Token

def placed (t : Token) : List (Kind × Span) :=
  Piece.placed t.fullSpan.start (t.leading.map Trivia.piece) ++
    (t.kind, t.span) :: Piece.placed t.stop (t.trailing.map Trivia.piece)

def pieces (t : Token) : List Text :=
  t.leading.map Trivia.text ++ t.text :: t.trailing.map Trivia.text

theorem pieces_flatten (t : Token) : t.pieces.flatten = t.fullText := by
  simp [pieces, fullText, Trivia.textOf]

theorem flatten_pieces (tokens : List Token) :
    (tokens.flatMap pieces).flatten = (tokens.map fullText).flatten := by
  induction tokens with
  | nil => rfl
  | cons t tokens ih => simp [ih, pieces_flatten]

theorem pieces_byteLength (t : Token) :
    t.pieces.map Text.byteLength = Assembly.pieceLengths t.leaf := by
  simp only [pieces, Assembly.pieceLengths, leaf, List.map_append, List.map_cons, List.map_map]
  rfl

theorem lengthOf_pieces (pieces : List Trivia) :
    Piece.lengthOf (pieces.map Trivia.piece) = Trivia.lengthOf pieces := total_map _ _ _

theorem leaf_byteLength (t : Token) : t.leaf.byteLength = t.fullText.byteLength := by
  simp only [Leaf.byteLength, leaf, lengthOf_pieces, fullText, Text.byteLength_append,
    Trivia.byteLength_textOf]

theorem total_leaf_byteLength (tokens : List Token) :
    total Leaf.byteLength (tokens.map leaf) = Text.byteLength (tokens.map fullText).flatten := by
  induction tokens with
  | nil => rfl
  | cons t tokens ih => simp [ih, leaf_byteLength]

theorem scan_start (offset : Nat) (t : Text) :
    (scan offset t).1.start = offset + Trivia.lengthOf (scan offset t).1.leading := by
  simp only [scan]
  split <;> rfl

theorem scan_leaf_placed (offset : Nat) (t : Text) :
    (scan offset t).1.leaf.placed offset = (scan offset t).1.placed := by
  have first : (scan offset t).1.fullSpan.start = offset := by rw [scan_fullSpan]
  rw [placed, first, span, stop, scan_start]
  simp only [Leaf.placed, leaf, lengthOf_pieces]

end Token

namespace TokenStream

theorem ofTextAt_placed (offset : Nat) (t : Text) :
    Leaf.placedAll offset ((ofTextAt offset t).all.map Token.leaf) =
      (ofTextAt offset t).all.flatMap Token.placed := by
  fun_induction ofTextAt offset t with
  | case1 offset t first more rest ih =>
      have stop : first.1.fullSpan.stop = offset + first.1.leaf.byteLength := by
        rw [Token.leaf_byteLength, Token.scan_fullSpan]
      have own : first.1.leaf.placed offset = first.1.placed := Token.scan_leaf_placed offset t
      simp only [all, List.cons_append, List.map_cons, List.flatMap_cons, Leaf.placedAll, own]
      rw [← stop]
      exact congrArg (first.1.placed ++ ·) ih
  | case2 offset t first ended =>
      have own : first.1.leaf.placed offset = first.1.placed := Token.scan_leaf_placed offset t
      simp [all, Leaf.placedAll, own]

theorem ofText_cover {text : Text} (short : text.byteLength < Assembly.offsetLimit) :
    Assembly.cover text 0
      (((ofText text).all.map Token.leaf).flatMap Assembly.pieceLengths) = .ok text.byteLength := by
  have whole : text = [] ++ (((ofText text).all.flatMap Token.pieces).flatten ++ []) := by
    rw [Token.flatten_pieces, List.nil_append, List.append_nil]
    exact (ofTextAt_text 0 text).symm
  have covered := Assembly.cover_pieces whole short
  rw [Token.flatten_pieces, List.map_flatMap] at covered
  simp only [Token.pieces_byteLength, Text.byteLength_nil, Nat.zero_add] at covered
  rw [List.flatMap_map, covered]
  exact congrArg (fun t => Except.ok (Text.byteLength t)) (ofTextAt_text 0 text)

end TokenStream

end LosslessTree
