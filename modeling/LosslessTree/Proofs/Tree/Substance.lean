import LosslessTree.Proofs.Check.Anchoring
import LosslessTree.Proofs.Token.Isolating
import LosslessTree.Proofs.Token.Tiling
import LosslessTree.Proofs.Tree.Attaching
import LosslessTree.Proofs.Tree.Surroundings

set_option autoImplicit false

namespace LosslessTree

open TokenStream Lexeme

namespace SyntaxTree

/-- The end of the file is the last child of the root and of no other node. It has no bytes, and every
other token has some. -/
structure EndsWith (t : SyntaxTree) (i : Nat) : Prop where
  inside : i < t.tokens.size
  last : (t.children 0).getLast? = some (.token i)
  only : ∀ n, .token i ∈ t.children n → n = 0
  kind : ∀ j < t.tokens.size, t.tokenKind j = .eof ↔ j = i
  length : ∀ j < t.tokens.size, (t.tokenSpan j).length = 0 ↔ j = i

def isOpen (t : SyntaxTree) (i : Nat) : Bool :=
  t.tokenKind i == .stringLiteral && !closes (t.tokenText i).tail

/-- The first and the last token of a node that are no trivia are where its bytes begin and end. Its text
is not empty and has no blank at its ends, unless it ends in a string that is not closed. -/
structure Bounded (t : SyntaxTree) (n first last : Nat) : Prop where
  head : (t.significantTokens n).head? = some first
  final : (t.significantTokens n).getLast? = some last
  span : t.trimmedSpan n = ⟨(t.tokenSpan first).start, (t.tokenSpan last).stop⟩
  wide : (t.trimmedSpan n).start < (t.trimmedSpan n).stop
  text : t.trimmedText n ≠ []
  begins : ∀ c ∈ (t.trimmedText n).head?, Unicode.isBlank c = false
  ends : t.isOpen last = false → ∀ c ∈ (t.trimmedText n).getLast?, Unicode.isBlank c = false

/-- An error node stands around one token, or around attributes and a visibility. No other error node is
below it. -/
structure Stranded (t : SyntaxTree) (n : Nat) : Prop where
  around : (∃ i, t.children n = [.token i]) ∨
    ∀ c ∈ t.children n, ∃ m, c = .node m ∧ (t.kind m = .attr ∨ t.kind m = .visibility)
  below : ∀ m ∈ t.descendants n, t.kind m ≠ .error

end SyntaxTree

theorem Text.append_inj_bytes {a b c d : Text} (same : a ++ b = c ++ d) (length : a.byteLength = c.byteLength) :
    a = c ∧ b = d := by
  have front : a = c := by rw [← takeBytes_byteLength a b, same, length, takeBytes_byteLength]
  exact ⟨front, List.append_cancel_left (front ▸ same)⟩

theorem Piece.placed_solid {pieces : List Piece} (solid : ∀ p ∈ pieces, 0 < p.length) (offset : Nat) :
    ∀ p ∈ Piece.placed offset pieces, p.1 ≠ .eof ∧ p.2.length ≠ 0 := by
  induction pieces generalizing offset with
  | nil => simp [placed]
  | cons piece pieces ih =>
      obtain ⟨here, behind⟩ := List.forall_mem_cons.mp solid
      have kind : piece.kind.kind ≠ .eof := by cases piece.kind <;> decide
      refine List.forall_mem_cons.mpr ⟨⟨kind, ?_⟩, ih behind _⟩
      rw [Span.length, Nat.add_sub_cancel_left]
      omega

namespace TokenStream

variable {text : Text} {t : Token}

theorem piece_solid (mem : t ∈ (ofText text).all) :
    ∀ p ∈ (t.leading ++ t.trailing).map Trivia.piece, 0 < p.length := by
  intro p inside
  obtain ⟨piece, here, rfl⟩ := List.mem_map.mp inside
  obtain ⟨offset, text', same⟩ := exists_scan mem
  rw [same] at here
  exact Text.byteLength_pos (Token.pieces_scan here).1

theorem placed_solid (mem : t ∈ (ofText text).tokens) :
    ∀ p ∈ t.placed, p.1 ≠ .eof ∧ p.2.length ≠ 0 := by
  have pieces := piece_solid (List.mem_append_left [(ofText text).eof] mem)
  rw [List.map_append, List.forall_mem_append] at pieces
  have lexed := ofText_lexed text t mem
  have length : t.span.length ≠ 0 := by
    have := lexed.solid.2
    rw [Span.length, Token.span, Token.stop, Nat.add_sub_cancel_left]
    exact Nat.ne_of_gt this
  rw [Token.placed, List.forall_mem_append, List.forall_mem_cons]
  exact ⟨Piece.placed_solid pieces.1 _, ⟨lexed.ne_eof, length⟩, Piece.placed_solid pieces.2 _⟩

theorem exists_front (text : Text) : ∃ front : List (Kind × Span),
    (ofText text).all.flatMap Token.placed = front ++ [(.eof, .empty text.byteLength)] ∧
      ∀ p ∈ front, p.1 ≠ .eof ∧ p.2.length ≠ 0 := by
  have pieces := piece_solid (List.mem_append_right (ofText text).tokens
    (List.mem_singleton_self (ofText text).eof))
  rw [List.map_append, List.forall_mem_append] at pieces
  refine ⟨(ofText text).tokens.flatMap Token.placed ++ Piece.placed (ofText text).eof.fullSpan.start
    ((ofText text).eof.leading.map Trivia.piece), ?_, ?_⟩
  · have trailing : (ofText text).eof.trailing = [] := eof_trailing 0 text
    rw [TokenStream.all, List.flatMap_append, List.flatMap_singleton, Token.placed, ofText_eof,
      eof_span, trailing, List.append_assoc]
    rfl
  · rw [List.forall_mem_append]
    refine ⟨fun p mem => ?_, Piece.placed_solid pieces.1 _⟩
    obtain ⟨t, inside, here⟩ := List.mem_flatMap.mp mem
    exact placed_solid inside p here

theorem token_ends (mem : t ∈ (ofText text).tokens) : t.text ≠ [] ∧
    (∀ c ∈ t.text.head?, Unicode.isBlank c = false) ∧
      (t.isOpen = false → ∀ c ∈ t.text.getLast?, Unicode.isBlank c = false) := by
  obtain ⟨front, tokens, split⟩ := List.append_of_mem mem
  obtain ⟨_, _, further⟩ := ofTextAt_behind split
  obtain ⟨after, rest, reads, -⟩ := reads_of_cons further.symm
  obtain ⟨first, more, begins, dark⟩ := reads.head
  have head : ∀ c ∈ t.text.head?, Unicode.isBlank c = false := by
    rw [begins]
    simpa using dark
  refine ⟨by simp [begins], head, fun shut => ?_⟩
  have whole := (reads.within rfl (Nat.le_refl _)).2
  exact last_of_measure whole (fun string => by simpa [Token.isOpen, string] using shut) head

end TokenStream

namespace SyntaxTree

variable {text : Text}

theorem last_of_placed {t : SyntaxTree} {front : List (Kind × Span)} {stop : Nat}
    (placed : (List.range' 0 t.tokens.size).map t.placedToken = front ++ [(.eof, .empty stop)])
    (solid : ∀ p ∈ front, p.1 ≠ .eof ∧ p.2.length ≠ 0) :
    ∀ j < t.tokens.size, (t.tokenKind j = .eof ↔ j = front.length) ∧
      ((t.tokenSpan j).length = 0 ↔ j = front.length) := by
  have size : t.tokens.size = front.length + 1 := by simpa using congrArg List.length placed
  intro j lies
  have here : some (t.placedToken j) = (front ++ [(.eof, .empty stop)])[j]? := by
    rw [← placed, List.getElem?_map, List.getElem?_range' lies]
    simp
  rcases Nat.lt_or_eq_of_le (Nat.le_of_lt_succ (size ▸ lies)) with less | rfl
  · rw [List.getElem?_append_left less] at here
    obtain ⟨kind, length⟩ := solid _ (List.mem_of_getElem? here.symm)
    exact ⟨iff_of_false kind (Nat.ne_of_lt less), iff_of_false length (Nat.ne_of_lt less)⟩
  · rw [List.getElem?_concat_length, Option.some_inj, placedToken, Prod.mk.injEq] at here
    exact ⟨iff_of_true here.1 rfl, iff_of_true (by rw [here.2, Span.length]; exact Nat.sub_self _) rfl⟩

theorem exists_last (text : Text) : ∃ i, ∀ j < (parse text).tree.tokens.size,
    ((parse text).tree.tokenKind j = .eof ↔ j = i) ∧
      (((parse text).tree.tokenSpan j).length = 0 ↔ j = i) := by
  obtain ⟨front, all, solid⟩ := exists_front text
  have placed := map_placedToken_parse text
  rw [parse_tree, tokensOf_ofRoot, ← parse_tree, all] at placed
  exact ⟨front.length, last_of_placed placed solid⟩

theorem exists_endsWith (text : Text) : ∃ i, (parse text).tree.EndsWith i := by
  obtain ⟨i, each⟩ := exists_last text
  have root := parse_rooted text
  have size := nodes_size_parse text
  have whole : (parse text).tree.tokensOf 0 = _ := tokensOf_ofRoot text .sourceFile (ofText text).forest
  obtain ⟨c, last, kind⟩ : ∃ c, ((parse text).tree.children 0).getLast? = some (.token c) ∧
      (parse text).tree.tokenKind c = .eof := by
    have embeds : (parse text).tree.Embeds 0 ⟨1, 0, 0⟩ (ofText text).forest :=
      ofRoot_embeds text .sourceFile _
    have children : (parse text).tree.children 0 = _ := root.site.children
    rw [TokenStream.forest, Forest.layout_append] at children
    refine ⟨_, by rw [children, List.getLast?_append]; rfl, ?_⟩
    exact (tokenKind_leaf embeds.append.2.leaf.1).trans (ofText_eof text)
  have child := List.mem_of_getLast? last
  have lies : c < (parse text).tree.tokens.size := by
    have mem : c ∈ (parse text).tree.tokensOf 0 :=
      root.site.flatMap_tokensUnder ▸ List.mem_flatMap.mpr ⟨_, child, mem_tokensUnder_self c⟩
    rw [whole, List.mem_range'_1, Nat.zero_add] at mem
    exact mem.2
  -- The last child of the root is of the kind that only the last token has.
  obtain rfl := (each c lies).1.mp kind
  exact ⟨c, lies, last, fun n other => (root.under_unique size other child (mem_tokensUnder_self c)
    (mem_tokensUnder_self c)).1, fun j lies => (each j lies).1, fun j lies => (each j lies).2⟩

section Nodes

variable {n : Nat} (below : 0 < n) (inside : n < (parse text).tree.nodes.size)
include below inside

omit below inside in
theorem exists_token_of_wide {i : Nat} (mem : i ∈ (parse text).tree.significantTokens 0)
    (wide : ((parse text).tree.tokenSpan i).start < ((parse text).tree.tokenSpan i).stop) :
    ∃ t ∈ (ofText text).tokens, (parse text).tree.tokenKind i = t.kind ∧
      (parse text).tree.tokenSpan i = t.span ∧ (parse text).tree.tokenText i = t.text := by
  obtain ⟨t, listed, same⟩ := exists_paired (glimpse_significantTokens text).flip mem
  obtain ⟨kind, span, shown⟩ := Glimpse.token.inj same
  rcases List.mem_append.mp listed with listed | last
  · exact ⟨t, listed, kind, span, shown⟩
  · obtain rfl := List.mem_singleton.mp last
    rw [span, eof_span] at wide
    exact absurd wide (Nat.lt_irrefl _)

theorem exists_bounded : ∃ first last, (parse text).tree.Bounded n first last := by
  obtain ⟨first, last, head, final, each⟩ := exists_ends below inside
  obtain ⟨a, e, b, whole, span, shown⟩ := exists_cut_of_node below inside
  have wide : ((parse text).tree.trimmedSpan n).start < ((parse text).tree.trimmedSpan n).stop := by
    obtain ⟨_, p, _, _, rfl, site, -, -, leaves, -⟩ := parse_inner_site below inside
    have wide := (parse_rooted text).trimmedSpan_solid site leaves head final
    simpa only [trimmedSpan_of_ends head final] using wide
  have some_ : e ≠ [] := by
    rintro rfl
    rw [span, List.append_nil] at wide
    exact Nat.lt_irrefl _ wide
  have ends := trimmedSpan_of_ends head final
  rw [span, Span.mk.injEq] at ends
  refine ⟨first, last, head, final, trimmedSpan_of_ends head final, wide, shown ▸ some_, ?_, ?_⟩
  · obtain ⟨here, solid⟩ := each first (List.mem_of_mem_head? head)
    obtain ⟨t, mem, -, begins, -⟩ := exists_token_of_wide here solid
    obtain ⟨before, after, split, start⟩ := text_around mem
    obtain ⟨own, dark, -⟩ := token_ends mem
    -- The text of the node and that of its first token begin at one place.
    have same := (Text.append_inj_bytes (whole.symm.trans split) (by rw [ends.1, begins, start]; rfl)).2
    have heads := congrArg List.head? same
    rw [List.head?_append_of_ne_nil _ some_, List.head?_append_of_ne_nil _ own] at heads
    rwa [shown, heads]
  · intro shut
    obtain ⟨here, solid⟩ := each last (List.mem_of_getLast? final)
    obtain ⟨t, mem, kind, stops, spelt⟩ := exists_token_of_wide here solid
    obtain ⟨before, after, split, start⟩ := text_around mem
    obtain ⟨own, -, dark⟩ := token_ends mem
    -- They end at one place, too.
    have place : Text.byteLength (a ++ e) = Text.byteLength (before ++ t.text) := by
      rw [ends.2, stops, Text.byteLength_append before, start]
      rfl
    rw [← List.append_assoc] at whole split
    have same := (Text.append_inj_bytes (whole.symm.trans split) place).1
    have lasts := congrArg List.getLast? same
    rw [List.getLast?_append_of_ne_nil _ some_, List.getLast?_append_of_ne_nil _ own] at lasts
    rw [shown, lasts]
    exact dark (by rw [Token.isOpen, ← kind, ← spelt]; exact shut)

end Nodes

end SyntaxTree

def Kind.isFront : Kind → Bool
  | attr | visibility | path | nameRef => true
  | _ => false

theorem Kind.lacks_front {k : Kind} (front : k.isFront = true) :
    (k.shape true).lacks (fun k' => k'.isNode && !k'.isFront) = true := by
  revert front
  cases k <;> decide

theorem Forest.Shaped.isFront_of_tops {f : Forest} (shaped : f.Shaped true)
    (tops : ∀ k ∈ f.tops, (k.isNode && !k.isFront) = false) {k : Kind} {inner : Forest}
    (has : f.HasNode k inner) : k.isFront = true := by
  induction f with
  | nil => exact has.elim
  | leaf l rest ih => exact ih shaped (List.forall_mem_cons.mp tops).2 has
  | node k' within rest hi hr =>
      obtain ⟨isNode, fits, below, behind⟩ := shaped
      obtain ⟨here, others⟩ := List.forall_mem_cons.mp tops
      have front : k'.isFront = true := by simpa [isNode] using here
      rcases has with ⟨rfl, -⟩ | has | has
      · exact front
      · exact hi below (fits.not_of_lacks (Kind.lacks_front front)) has
      · exact hr behind others has

namespace SyntaxTree

variable {text : Text}

theorem parse_stranded {n : Nat} (lies : n < (parse text).tree.nodes.size)
    (error : (parse text).tree.kind n = .error) : (parse text).tree.Stranded n := by
  obtain ⟨around, p, k, inner, rfl, site, fits, shaped, plain⟩ := parse_site lies
  have formed := site.formed fits shaped plain
  have made := parse_blamed lies error
  -- No kind that stands in attributes is that of an error node, so none is below what is right inside.
  have tops : ∀ k ∈ inner.tops, (k.isNode && !k.isFront) = false := by
    intro k mem
    rw [← site.within.children_kinds, ← site.children] at mem
    obtain ⟨c, child, rfl⟩ := List.mem_map.mp mem
    rcases made with ⟨i, alone, -⟩ | ⟨front, -⟩
    · obtain rfl := List.mem_singleton.mp (alone ▸ child)
      have told := formed.told _ child
      simp only [Child.node?, Option.isSome_none] at told
      rw [told, Bool.false_and]
    · rcases front c child with kind | kind <;> rw [kind] <;> rfl
  constructor
  · rcases made with ⟨i, alone, -⟩ | ⟨front, -⟩
    · exact .inl ⟨i, alone⟩
    refine .inr fun c child => ?_
    have isNode : ((parse text).tree.childKind c).isNode = true := by
      rcases front c child with kind | kind <;> rw [kind] <;> rfl
    obtain ⟨m, rfl⟩ := formed.node_of child isNode
    exact ⟨m, rfl, front _ child⟩
  · intro m mem isError
    obtain ⟨first, last⟩ := site.mem_descendants.mp mem
    obtain ⟨_, q, k', within, rfl, lies', has⟩ := site.within.exists_site first last
    have front := shaped.isFront_of_tops tops has
    rw [← lies'.kind, isError] at front
    cases front

end SyntaxTree

/-- In a parse the end of the file is there once, behind everything else, and is the only token without
bytes. Every other node than the root begins and ends with tokens that have some. Error nodes are around one
token or around what stands in front of an item, and not in one another. -/
theorem parse_substance (text : Text) :
    (parse text).tree.kind 0 = .sourceFile ∧ (∃ i, (parse text).tree.EndsWith i) ∧
      (∀ n < (parse text).tree.nodes.size, 0 < n →
        ∃ first last, (parse text).tree.Bounded n first last) ∧
      ∀ n < (parse text).tree.nodes.size, (parse text).tree.kind n = .error →
        (parse text).tree.Stranded n :=
  ⟨(parse_rooted text).site.kind, SyntaxTree.exists_endsWith text,
    fun _ inside below => SyntaxTree.exists_bounded below inside,
    fun _ inside error => SyntaxTree.parse_stranded inside error⟩

end LosslessTree
