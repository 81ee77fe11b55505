import Mathlib.Data.List.Sort
import LosslessTree.Proofs.Grammar.Likeness
import LosslessTree.Proofs.Tree.Glimpses

set_option autoImplicit false

namespace LosslessTree

theorem Forest.tokenCount_leaves (f : Forest) : f.tokenCount = total Leaf.tokenCount f.leaves := by
  induction f with
  | nil => rfl
  | leaf l rest ih => simp [tokenCount, leaves, ih]
  | node k inner rest hi hr => simp [tokenCount, leaves, hi, hr]

namespace Leaf

def Solid (l : Leaf) : Prop := l.kind.isTrivia = false ∧ 0 < l.length

def owned : Nat → List Leaf → List (Kind × Span)
  | _, [] => []
  | offset, l :: leaves =>
      let start := offset + Piece.lengthOf l.leading
      (l.kind, ⟨start, start + l.length⟩) :: owned (offset + l.byteLength) leaves

theorem owned_length (offset : Nat) (leaves : List Leaf) :
    (owned offset leaves).length = leaves.length := by
  induction leaves generalizing offset with
  | nil => rfl
  | cons l leaves ih => simp [owned, ih]

variable {offset : Nat} {leaves : List Leaf}

theorem placedAll_filter (own : ∀ l ∈ leaves, l.kind.isTrivia = false) :
    (placedAll offset leaves).filter (fun p => !p.1.isTrivia) = owned offset leaves := by
  induction leaves generalizing offset with
  | nil => rfl
  | cons l leaves ih =>
      obtain ⟨here, more⟩ := List.forall_mem_cons.mp own
      simp [placedAll, placed, owned, Piece.placed_filter, here, ih more]

theorem owned_solid (solid : ∀ l ∈ leaves, l.Solid) :
    ∀ p ∈ owned offset leaves, p.2.start < p.2.stop := by
  induction leaves generalizing offset with
  | nil => simp [owned]
  | cons l leaves ih =>
      obtain ⟨here, more⟩ := List.forall_mem_cons.mp solid
      intro p mem
      rcases List.mem_cons.mp mem with rfl | mem
      · have := here.2
        simp only
        omega
      · exact ih more p mem

end Leaf

theorem Token.Lexed.solid {t : Token} (h : t.Lexed) : t.leaf.Solid := by
  have lexeme := h.isLexeme
  simp only [Lexeme.isLexeme, Bool.and_eq_true, Bool.not_eq_true'] at lexeme
  exact ⟨lexeme.1.1.1, Text.byteLength_pos h.text_ne_nil⟩

theorem Token.Tiled.owned {offset : Nat} {tokens : List Token} (h : Token.Tiled offset tokens) :
    Leaf.owned offset (tokens.map Token.leaf) = tokens.map fun t => (t.kind, t.span) := by
  induction tokens generalizing offset with
  | nil => rfl
  | cons t tokens ih =>
      have start : offset + Piece.lengthOf t.leaf.leading = t.start := by
        rw [h.1, ← Token.lengthOf_pieces]
        rfl
      simp only [List.map_cons, Leaf.owned, start, ih h.2]
      rfl

namespace SyntaxTree

variable {t : SyntaxTree} {around : Option Nat} {p : Place} {k : Kind} {inner : Forest}

section Sites

variable (site : t.Site around p k inner)
include site

theorem Site.map_placed_significantTokens (own : ∀ l ∈ inner.leaves, l.kind.isTrivia = false) :
    (t.significantTokens p.node).map t.placedToken = Leaf.owned p.offset inner.leaves := by
  have placed := congrArg (List.map TokenData.placed) site.within.tokens_eq
  rw [List.map_map, Forest.layout_placed] at placed
  rw [placed_significantTokens, site.tokensOf, ← Leaf.placedAll_filter own]
  exact congrArg (List.filter _) placed

variable (solid : ∀ l ∈ inner.leaves, l.Solid)
include solid

theorem Site.length_significantTokens :
    (t.significantTokens p.node).length = inner.leaves.length := by
  rw [← Leaf.owned_length p.offset, ← List.length_map t.placedToken,
    site.map_placed_significantTokens fun l mem => (solid l mem).1]

theorem Site.significant_solid {i : Nat} (mem : i ∈ t.significantTokens p.node) :
    (t.tokenSpan i).start < (t.tokenSpan i).stop := by
  have owned : t.placedToken i ∈ Leaf.owned p.offset inner.leaves := by
    rw [← site.map_placed_significantTokens fun l mem => (solid l mem).1]
    exact List.mem_map_of_mem mem
  exact Leaf.owned_solid solid _ owned

end Sites

end SyntaxTree

theorem Token.Tiled.take {offset : Nat} {tokens : List Token} (h : Token.Tiled offset tokens)
    (n : Nat) : Token.Tiled offset (tokens.take n) := by
  induction tokens generalizing offset n with
  | nil => simpa using h
  | cons t tokens ih =>
      cases n with
      | zero => trivial
      | succ n => exact ⟨h.1, ih h.2 n⟩

namespace SyntaxTree

-- The forest stands in the tree over tokens that stand end to end.
structure Covers (t : SyntaxTree) (parent : Nat) (p : Place) (f : Forest) (tokens : List Token) :
    Prop where
  carries : t.Carries parent p f tokens
  tiled : Token.Tiled p.offset tokens

variable {t : SyntaxTree} {parent : Nat} {p : Place} {tokens : List Token}

theorem parse_covers (text : Text) :
    (parse text).tree.Covers 0 ⟨1, 0, 0⟩ ((TokenStream.ofText text).run .file).parts
      (TokenStream.ofText text).tokens :=
  ⟨parse_carries text, TokenStream.ofTextAt_tiled 0 text⟩

theorem Covers.leaf {token : Token} {rest : Forest}
    (h : t.Covers parent p (.leaf token.leaf rest) (token :: tokens)) :
    t.tokenKind (p.token + token.leaf.leading.length) = token.kind ∧
      t.tokenSpan (p.token + token.leaf.leading.length) = token.span ∧
      t.tokenText (p.token + token.leaf.leading.length) = token.text ∧
        t.Covers parent (p.afterLeaf token.leaf) rest tokens := by
  obtain ⟨_, _, same, -, text, further⟩ := h.carries.leaf
  cases same
  have data := leaf_token h.carries.embeds.leaf.1
  refine ⟨by rw [tokenKind, data]; rfl, h.carries.leaf_span h.tiled, text, further, h.tiled.2⟩

theorem Covers.node {k : Kind} {inner rest : Forest}
    (h : t.Covers parent p (.node k inner rest) tokens) :
    t.Site (some parent) p k inner ∧ t.Covers p.node p.inside inner tokens ∧
      t.Covers parent (p.inside.after inner) rest (tokens.drop inner.leaves.length) :=
  ⟨h.carries.embeds.site, ⟨h.carries.node.1, h.tiled⟩, h.carries.node.2,
    h.carries.tiled_behind h.tiled⟩

theorem Covers.leaves {f : Forest} (h : t.Covers parent p f tokens) :
    f.leaves = (tokens.take f.leaves.length).map Token.leaf := by
  obtain ⟨more, split⟩ := h.carries.leaves
  rw [List.map_take, ← split, List.take_left]

theorem Covers.exists_site_behind {P : List Token → Kind → Forest → Prop} {f : Forest}
    (h : t.Covers parent p f tokens) (each : f.Each P tokens) {n : Nat} (first : p.node ≤ n)
    (last : n < p.node + f.nodeCount) :
    ∃ parent q k inner rest front behind, q.node = n ∧ P behind k inner ∧
      t.Covers parent q (.node k inner rest) behind ∧ tokens = front ++ behind ∧
        q.token = p.token + total Leaf.tokenCount (front.map Token.leaf) := by
  induction f generalizing parent p tokens with
  | nil => exact absurd last (by simpa [Forest.nodeCount] using first)
  | leaf l rest ih =>
      obtain ⟨token, behind, rfl, rfl, -, -⟩ := h.carries.leaf
      obtain ⟨parent', q, k, inner, rest', front, behind', at_, here, covers, rfl, place⟩ :=
        ih h.leaf.2.2.2 each first last
      refine ⟨parent', q, k, inner, rest', token :: front, behind', at_, here, covers, rfl, ?_⟩
      rw [place, List.map_cons, total_cons]
      exact Nat.add_assoc _ _ _
  | node k inner rest hi hr =>
      have leaves : inner.leaves = (tokens.take inner.leaves.length).map Token.leaf :=
        h.node.2.1.leaves
      obtain ⟨-, within, behind⟩ := h.node
      obtain ⟨here, below, further⟩ := each
      simp only [Forest.nodeCount] at last
      by_cases at_ : p.node = n
      · exact ⟨parent, p, k, inner, rest, [], tokens, at_, here, h, rfl, rfl⟩
      by_cases inside : n < p.node + 1 + inner.nodeCount
      · have found := hi within below (by change p.node + 1 ≤ n; omega) inside
        exact found
      · obtain ⟨parent', q, k', inner', rest', front, behind', at_', here', covers, split, place⟩ :=
          hr behind further (by simp only [Place.after, Place.inside]; omega)
            (by simp only [Place.after, Place.inside]; omega)
        refine ⟨parent', q, k', inner', rest', tokens.take inner.leaves.length ++ front, behind', at_',
          here', covers, ?_, ?_⟩
        · rw [List.append_assoc, ← split, List.take_append_drop]
        · rw [place, List.map_append, total_append, ← leaves, ← Forest.tokenCount_leaves]
          exact Nat.add_assoc _ _ _

theorem Covers.exists_site {P : List Token → Kind → Forest → Prop} {f : Forest}
    (h : t.Covers parent p f tokens) (each : f.Each P tokens) {n : Nat} (first : p.node ≤ n)
    (last : n < p.node + f.nodeCount) :
    ∃ parent q k inner rest behind, q.node = n ∧ P behind k inner ∧
      t.Covers parent q (.node k inner rest) behind := by
  obtain ⟨parent, q, k, inner, rest, -, behind, at_, here, covers, -⟩ :=
    h.exists_site_behind each first last
  exact ⟨parent, q, k, inner, rest, behind, at_, here, covers⟩

theorem Covers.solid {f : Forest} (h : t.Covers parent p f tokens) (lexed : ∀ t ∈ tokens, t.Lexed) :
    ∀ l ∈ f.leaves, l.Solid := by
  intro l mem
  rw [h.leaves] at mem
  obtain ⟨token, inside, rfl⟩ := List.mem_map.mp mem
  exact (lexed token (List.mem_of_mem_take inside)).solid

theorem Site.trimmedSpan_of_tokens {around : Option Nat} {k : Kind} {inner : Forest}
    (site : t.Site around p k inner) (covers : t.Covers p.node p.inside inner tokens)
    (own : ∀ l ∈ inner.leaves, l.kind.isTrivia = false) {first last : Token}
    (head : (tokens.take inner.leaves.length).head? = some first)
    (final : (tokens.take inner.leaves.length).getLast? = some last) :
    t.trimmedSpan p.node = ⟨first.start, last.stop⟩ := by
  have placed := site.map_placed_significantTokens own
  have tiled : Token.Tiled p.offset (tokens.take inner.leaves.length) := covers.tiled.take _
  rw [covers.leaves, tiled.owned] at placed
  have starts := congrArg List.head? placed
  have stops := congrArg List.getLast? placed
  rw [List.head?_map, List.head?_map, head, Option.map_some, Option.map_eq_some_iff] at starts
  rw [List.getLast?_map, List.getLast?_map, final, Option.map_some, Option.map_eq_some_iff] at stops
  obtain ⟨i, isFirst, first_⟩ := starts
  obtain ⟨j, isLast, last_⟩ := stops
  rw [placedToken, Prod.mk.injEq] at first_ last_
  simp only [SyntaxTree.trimmedSpan, isFirst, isLast, first_.2, last_.2]
  rfl

theorem Site.trimmedSpan_start_of_tokens {around : Option Nat} {k : Kind} {inner : Forest}
    (site : t.Site around p k inner) (covers : t.Covers p.node p.inside inner tokens)
    (own : ∀ l ∈ inner.leaves, l.kind.isTrivia = false) {first : Token}
    (head : (tokens.take inner.leaves.length).head? = some first) :
    (t.trimmedSpan p.node).start = first.start := by
  have some_ := List.ne_nil_of_mem (List.mem_of_mem_head? head)
  rw [site.trimmedSpan_of_tokens covers own head (List.getLast?_eq_some_getLast some_)]

end SyntaxTree

end LosslessTree
