import LosslessTree.Proofs.Grammar.Certifying
import LosslessTree.Proofs.Grammar.Reporting
import LosslessTree.Proofs.Tree.Nesting
import LosslessTree.Proofs.Tree.Trimming
import LosslessTree.Proofs.View.Reading

set_option autoImplicit false

namespace LosslessTree

open TokenStream

namespace SyntaxTree

def following? (t : SyntaxTree) (n : Nat) : Option Nat :=
  let stop := (t.node n).tokenStop
  (List.range' stop (t.tokens.size - stop)).find? fun i => !(t.tokenKind i).isTrivia

def Reports (t : SyntaxTree) (told : List Diagnostic) (i : Nat) : Prop :=
  ∃ d ∈ told, d.span = t.tokenSpan i

def Stray (t : SyntaxTree) (told : List Diagnostic) (n : Nat) : Prop :=
  ∃ i, t.children n = [.token i] ∧ t.Reports told i

-- An error node around what stands in front of an item. A problem is reported at the token behind
-- it.
def Unfinished (t : SyntaxTree) (told : List Diagnostic) (n : Nat) : Prop :=
  (∀ c ∈ t.children n, (t.childKind c).IsFront) ∧ ∃ i, t.following? n = some i ∧ t.Reports told i

end SyntaxTree

theorem Token.length_placed (t : Token) : t.placed.length = t.leaf.tokenCount := by
  have length (offset : Nat) (pieces : List Piece) :
      (Piece.placed offset pieces).length = pieces.length := by
    rw [← Piece.layout_placed 0, List.length_map, Piece.layout_length]
  simp only [placed, List.length_append, List.length_cons, length, Leaf.tokenCount, leaf]
  omega

theorem Token.length_flatMap_placed (tokens : List Token) :
    (tokens.flatMap placed).length = total Leaf.tokenCount (tokens.map leaf) := by
  induction tokens with
  | nil => rfl
  | cons t tokens ih => simp [length_placed, ih]

namespace SyntaxTree

variable {text : Text}

theorem following_parse {n : Nat} {front behind : List Token} {next : Token}
    (split : (ofText text).all = front ++ next :: behind)
    (stop : ((parse text).tree.node n).tokenStop = total Leaf.tokenCount (front.map Token.leaf)) :
    ∃ i, (parse text).tree.following? n = some i ∧ (parse text).tree.tokenSpan i = next.span := by
  have plain : next.kind.isTrivia = false := all_not_trivia text next (by simp [split])
  have further : (List.range' (total Leaf.tokenCount (front.map Token.leaf))
        ((parse text).tree.tokens.size - total Leaf.tokenCount (front.map Token.leaf))).map
        (parse text).tree.placedToken = (next :: behind).flatMap Token.placed := by
    have whole : (parse text).tree.tokensOf 0 = List.range' 0 (parse text).tree.tokens.size :=
      tokensOf_ofRoot _ _ _
    have placed := map_placedToken_parse text
    rw [whole, split, List.flatMap_append] at placed
    have dropped := congrArg (List.drop (front.flatMap Token.placed).length) placed
    rw [List.drop_left, ← List.map_drop, Token.length_flatMap_placed, List.drop_range'] at dropped
    simpa using dropped
  have first := congrArg (fun placed => (placed.filter fun p => !p.1.isTrivia).head?) further
  simp only [List.flatMap_cons, List.filter_append, Token.placed_filter plain, List.filter_map,
    List.head?_map, List.singleton_append, List.head?_cons, List.head?_filter,
    Option.map_eq_some_iff, Function.comp_def, placedToken] at first
  obtain ⟨i, found, same⟩ := first
  refine ⟨i, ?_, (Prod.mk.inj same).2⟩
  rw [following?, stop]
  exact found

theorem Covers.following {parent : Nat} {q : Place} {k : Kind} {inner rest : Forest}
    {front behind : List Token} (covers : (parse text).tree.Covers parent q (.node k inner rest) behind)
    (split : (ofText text).tokens = front ++ behind)
    (place : q.token = total Leaf.tokenCount (front.map Token.leaf)) :
    ∃ i, (parse text).tree.following? q.node = some i ∧ (parse text).tree.tokenSpan i =
      ((behind.drop inner.leaves.length).headD (ofText text).eof).span := by
  obtain ⟨site, within, -⟩ := covers.node
  have own : inner.tokenCount =
      total Leaf.tokenCount ((behind.take inner.leaves.length).map Token.leaf) := by
    rw [← within.leaves, Forest.tokenCount_leaves]
  have stop : ((parse text).tree.node q.node).tokenStop = total Leaf.tokenCount
      ((front ++ behind.take inner.leaves.length).map Token.leaf) := by
    rw [site.data, List.map_append, total_append, ← own, ← place]
    rfl
  obtain ⟨later, next⟩ : ∃ later, behind.drop inner.leaves.length ++ [(ofText text).eof] =
      (behind.drop inner.leaves.length).headD (ofText text).eof :: later := by
    cases behind.drop inner.leaves.length with
    | nil => exact ⟨[], rfl⟩
    | cons next later => exact ⟨_, rfl⟩
  -- The tokens of the stream are those in front of the node, its own, and those behind.
  have whole : (ofText text).all = (front ++ behind.take inner.leaves.length) ++
      (behind.drop inner.leaves.length).headD (ofText text).eof :: later := by
    rw [← next, TokenStream.all, split, List.append_assoc, List.append_assoc,
      ← List.append_assoc (behind.take _), List.take_append_drop]
  exact following_parse whole stop

end SyntaxTree

/-- An error node is around the next token, which is reported, or around what stands in front of an
item, and the token behind it is reported. -/
def Blamed (told : List Diagnostic) (eof : Token) (tokens : List Token) (k : Kind) (inner : Forest) :
    Prop :=
  k = .error → inner = .taken tokens ∧ Blames told eof tokens ∨
    (∀ k ∈ inner.tops, k.IsFront) ∧ Blames told eof (tokens.drop inner.leaves.length)

theorem judged_blamed (told : List Diagnostic) (eof : Token) : Judged told eof (Blamed told eof) where
  other := by
    rintro _ free _ _ rfl
    cases free
  made := by
    rintro m _ _ _ _ isKind - - - rfl
    cases m <;> cases isKind
  skipped _ blamed _ := .inl ⟨rfl, blamed⟩
  unfinished _ _ front blamed _ := .inr ⟨front, blamed⟩

namespace SyntaxTree

variable {text : Text}

theorem parse_blamed {n : Nat} (lies : n < (parse text).tree.nodes.size)
    (error : (parse text).tree.kind n = .error) :
    (parse text).tree.Stray (parse text).errors n ∨
      (parse text).tree.Unfinished (parse text).errors n := by
  have below : 0 < n := by
    rcases Nat.eq_zero_or_pos n with rfl | below
    · have root := (parse_rooted text).site.kind
      rw [error] at root
      cases root
    · exact below
  have blamed := (run_certified (judged_blamed _ _) (ofText_eof text) (ofText_plain text)
    (List.Subset.refl _)).parts
  have size := lies
  rw [parse_nodes_size] at size
  obtain ⟨parent, q, k, inner, rest, front, behind, rfl, ⟨blamed, -, -, some_⟩, covers, split, place⟩ :=
    (parse_covers text).exists_site_behind (blamed.and (run_file text).shaped.each) (n := n) below size
  obtain ⟨site, within, -⟩ := covers.node
  rcases blamed (site.kind.symm.trans error) with ⟨rfl, d, mem, span⟩ | ⟨tops, d, mem, span⟩
  · left
    cases behind with
    | nil => exact absurd rfl some_
    | cons t behind =>
        have own : (parse text).tree.Covers q.node q.inside (.leaf t.leaf .nil) (t :: behind) := within
        refine ⟨q.token + t.leaf.leading.length, site.children, d, mem, ?_⟩
        rw [span, List.headD_cons, ← own.leaf.2.1]
        rfl
  · right
    have kinds := site.within.children_kinds
    rw [← site.children] at kinds
    obtain ⟨i, found, same⟩ := covers.following split (place.trans (Nat.zero_add _))
    exact ⟨fun c inside => tops _ (kinds ▸ List.mem_map_of_mem inside), i, found, d, mem,
      span.trans same.symm⟩

theorem exists_anchor_of_error {e : Diagnostic} (mem : e ∈ (parse text).errors) :
    ∃ i ∈ (parse text).tree.significantTokens 0, e.span = (parse text).tree.tokenSpan i ∧
      ((parse text).tree.tokenKind i = .eof → e.span = .empty text.byteLength) := by
  obtain ⟨t, inside, span⟩ := exists_token_of_error mem
  have listed : (t.kind, t.span) ∈ ((parse text).tree.significantTokens 0).map
      (parse text).tree.placedToken := by
    rw [significantTokens_parse]
    exact List.mem_map_of_mem inside
  obtain ⟨i, significant, same⟩ := List.mem_map.mp listed
  obtain ⟨kind, place⟩ := Prod.mk.inj same
  refine ⟨i, significant, span.trans place.symm, fun isEof => ?_⟩
  rcases List.mem_append.mp inside with early | last
  · exact absurd (kind.symm.trans isEof) (ofText_lexed text t early).ne_eof
  · obtain rfl := List.mem_singleton.mp last
    rw [span, Token.span, Token.stop, ofText, ofTextAt_eof_text, ofTextAt_eof_start]
    simp [Span.empty]

end SyntaxTree

/-- Problems are reported in the order of the text, each at a token that is not trivia, and every error
node has one: at its only token, or at the first token behind it if it is what stands in front of an
item. -/
theorem parse_anchored (text : Text) :
    (parse text).errors.Pairwise (fun e e' => e.span.start ≤ e'.span.start) ∧
      (∀ e ∈ (parse text).errors, ∃ i ∈ (parse text).tree.significantTokens 0,
        e.span = (parse text).tree.tokenSpan i ∧
          ((parse text).tree.tokenKind i = .eof → e.span = .empty text.byteLength)) ∧
      ∀ n < (parse text).tree.nodes.size, (parse text).tree.kind n = .error →
        (parse text).tree.Stray (parse text).errors n ∨
          (parse text).tree.Unfinished (parse text).errors n :=
  ⟨parse_errors_sorted text, fun _ mem => SyntaxTree.exists_anchor_of_error mem,
    fun _ lies error => SyntaxTree.parse_blamed lies error⟩

end LosslessTree
