import LosslessTree.Proofs.Token.Passages
import LosslessTree.Proofs.Token.Seams
import LosslessTree.Proofs.Tree.Nesting

set_option autoImplicit false

namespace LosslessTree

open TokenStream

namespace TokenStream

variable {text : Text} {t : Token}

theorem text_around (mem : t ∈ (ofText text).tokens) :
    ∃ before after, text = before ++ (t.text ++ after) ∧ before.byteLength = t.start := by
  obtain ⟨front, behind, split⟩ := List.append_of_mem mem
  obtain ⟨rest, whole, further⟩ := ofTextAt_behind split
  obtain ⟨rest', rfl, start, unled⟩ := ofTextAt_unled further.symm
  obtain ⟨after, _, reads, -⟩ := reads_of_cons unled
  refine ⟨(front.map Token.fullText).flatten ++ Trivia.textOf t.leading, after, ?_, ?_⟩
  · rw [whole, reads.text]
    simp [Trivia.textOf]
  · rw [start, Text.byteLength_append, Trivia.byteLength_textOf, Nat.zero_add]

theorem slice_span (mem : t ∈ (ofText text).all) : text.slice t.span = t.text := by
  rcases List.mem_append.mp mem with inside | last
  · obtain ⟨before, after, whole, start⟩ := text_around inside
    rw [Token.span, Token.stop, ← start, whole]
    exact Text.slice_append before t.text after
  · obtain rfl := List.mem_singleton.mp last
    have none : (ofText text).eof.text = [] := ofTextAt_eof_text 0 text
    rw [Token.span, Token.stop, none, Text.slice, Span.length, Text.byteLength_nil, Nat.add_zero,
      Nat.sub_self]
    cases text.dropBytes (ofText text).eof.start <;> rfl

end TokenStream

namespace SyntaxTree

theorem glimpse_token (t : SyntaxTree) (i : Nat) : t.glimpse (.token i) =
    .token (t.placedToken i).1 (t.placedToken i).2 (t.text.slice (t.placedToken i).2) := rfl

theorem glimpse_significantTokens (text : Text) :
    List.Forall₂ (fun i t => (parse text).tree.glimpse (.token i) = t.glimpse)
      ((parse text).tree.significantTokens 0) (ofText text).all := by
  have placed := significantTokens_parse text
  rw [← List.forall₂_eq_eq_eq, List.forall₂_map_left_iff, List.forall₂_map_right_iff] at placed
  have inStream := (List.forall₂_and_left _ _).mpr ⟨fun t (mem : t ∈ (ofText text).all) => mem, placed.flip⟩
  refine inStream.flip.imp fun i t ⟨mem, same⟩ => ?_
  have source : (parse text).tree.text = text := rfl
  rw [glimpse_token, same, source, slice_span mem]
  rfl

section Tokens

variable {text : Text} {n i j : Nat}

theorem exists_token (mem : i ∈ (parse text).tree.significantTokens 0) :
    ∃ t ∈ (ofText text).all, (parse text).tree.tokenSpan i = t.span := by
  obtain ⟨t, inside, same⟩ := exists_paired (glimpse_significantTokens text).flip mem
  exact ⟨t, inside, (Glimpse.token.inj same).2.1⟩

theorem exists_token_of_solid (mem : i ∈ (parse text).tree.significantTokens 0)
    (solid : ((parse text).tree.tokenSpan i).start < ((parse text).tree.tokenSpan i).stop) :
    ∃ t ∈ (ofText text).tokens, (parse text).tree.tokenSpan i = t.span := by
  obtain ⟨t, inside, span⟩ := exists_token mem
  rcases List.mem_append.mp inside with inside | last
  · exact ⟨t, inside, span⟩
  · have none : t.text = [] := List.mem_singleton.mp last ▸ ofTextAt_eof_text 0 text
    simp [span, Token.span, Token.stop, none] at solid

theorem tokenSpan_le (mem : i ∈ (parse text).tree.tokensOf 0) :
    ((parse text).tree.tokenSpan i).stop ≤ text.byteLength := by
  have root := parse_rooted text
  rw [root.site.tokensOf] at mem
  have within := (root.site.within.token_within mem).2.1
  rwa [forest_byteLength, Place.inside, Nat.zero_add] at within

theorem start_lt_start (here : i ∈ (parse text).tree.significantTokens 0)
    (there : j ∈ (parse text).tree.tokensOf 0) (less : i < j)
    (solid : ((parse text).tree.tokenSpan j).start < ((parse text).tree.tokenSpan j).stop) :
    ((parse text).tree.tokenSpan i).start < ((parse text).tree.tokenSpan j).start := by
  have order := (parse_rooted text).stop_le_start less there
  obtain ⟨t, mem, span⟩ := exists_token here
  rw [span] at order ⊢
  rcases List.mem_append.mp mem with inside | last
  · have := (ofText_lexed text t inside).solid.2
    simp only [Token.span, Token.stop, Token.leaf] at *
    omega
  · -- Nothing that is not empty stands behind the end of the file.
    have bound := tokenSpan_le there
    have ended : t.start = 0 + text.byteLength := List.mem_singleton.mp last ▸ ofTextAt_eof_start 0 text
    simp only [Token.span, Token.stop] at *
    omega

end Tokens

def outside (t : SyntaxTree) (n : Nat) : List Nat :=
  (t.significantTokens 0).filter fun i => i ∉ t.significantTokens n

section Outside

variable {text : Text} {n i : Nat} (below : 0 < n) (inside : n < (parse text).tree.nodes.size)
include below inside

theorem exists_ends : ∃ first last, ((parse text).tree.significantTokens n).head? = some first ∧
    ((parse text).tree.significantTokens n).getLast? = some last ∧
      ∀ i ∈ (parse text).tree.significantTokens n, i ∈ (parse text).tree.significantTokens 0 ∧
        ((parse text).tree.tokenSpan i).start < ((parse text).tree.tokenSpan i).stop := by
  obtain ⟨_, p, k, inner, rfl, site, -, some_, solid, -⟩ := parse_inner_site below inside
  have own : (parse text).tree.significantTokens p.node ≠ [] := by
    rw [← List.length_pos_iff, site.length_significantTokens solid]
    exact List.length_pos_iff.mpr some_
  refine ⟨_, _, List.head?_eq_some_head own, List.getLast?_eq_some_getLast own, fun i mem => ?_⟩
  obtain ⟨lies, trivia⟩ := List.mem_filter.mp mem
  have whole := (parse_rooted text).tokensOf_subset site lies
  exact ⟨List.mem_filter.mpr ⟨whole, trivia⟩, site.significant_solid solid mem⟩

theorem mem_significantTokens_parse (there : i ∈ (parse text).tree.significantTokens 0) :
    i ∈ (parse text).tree.significantTokens n ↔
      ((parse text).tree.trimmedSpan n).isOutside ((parse text).tree.tokenSpan i) = false := by
  obtain ⟨first, last, head, final, each⟩ := exists_ends below inside
  obtain ⟨whole, solid⟩ := each first (List.mem_of_mem_head? head)
  obtain ⟨whole', solid'⟩ := each last (List.mem_of_getLast? final)
  obtain ⟨lies, own⟩ := List.mem_filter.mp there
  have root := parse_rooted text
  have low : first ≤ i ↔
      ((parse text).tree.tokenSpan first).start ≤ ((parse text).tree.tokenSpan i).start := by
    refine ⟨fun le => ?_, fun le => Nat.le_of_not_lt fun less => ?_⟩
    · rcases Nat.lt_or_eq_of_le le with less | rfl
      · have := root.stop_le_start less lies
        omega
      · exact Nat.le_refl _
    · have := start_lt_start there (List.mem_filter.mp whole).1 less solid
      omega
  have high : i ≤ last ↔
      ((parse text).tree.tokenSpan i).start < ((parse text).tree.tokenSpan last).stop := by
    refine ⟨fun le => ?_, fun lt => Nat.le_of_not_lt fun less => ?_⟩
    · rcases Nat.lt_or_eq_of_le le with less | rfl
      · have := start_lt_start there (List.mem_filter.mp whole').1 less solid'
        omega
      · exact solid'
    · have := root.stop_le_start less lies
      omega
  rw [Bool.not_eq_true'] at own
  rw [mem_significantTokens head final, low, high, Span.isOutside_eq_false_iff,
    trimmedSpan_of_ends head final, own, and_iff_left rfl]

theorem map_outside :
    ((parse text).tree.outside n).map (fun i => (parse text).tree.glimpse (.token i)) =
      ((ofText text).all.filter fun u => ((parse text).tree.trimmedSpan n).isOutside u.span).map
        Token.glimpse := by
  have alike : (parse text).tree.outside n =
      ((parse text).tree.significantTokens 0).filter fun i =>
        ((parse text).tree.trimmedSpan n).isOutside ((parse text).tree.tokenSpan i) :=
    List.filter_congr fun i there => by simp [mem_significantTokens_parse below inside there]
  rw [alike, ← List.forall₂_eq_eq_eq, List.forall₂_map_left_iff, List.forall₂_map_right_iff]
  refine List.rel_filter (fun i u shown => ?_) (glimpse_significantTokens text)
  have same : (parse text).tree.tokenSpan i = u.span := (Glimpse.token.inj shown).2.1
  simp only [same]

theorem exists_cut_of_node : ∃ a e b, text = a ++ (e ++ b) ∧
    (parse text).tree.trimmedSpan n = ⟨a.byteLength, Text.byteLength (a ++ e)⟩ ∧
      (parse text).tree.trimmedText n = e := by
  obtain ⟨first, last, head, final, each⟩ := exists_ends below inside
  obtain ⟨whole, solid⟩ := each first (List.mem_of_mem_head? head)
  obtain ⟨whole', solid'⟩ := each last (List.mem_of_getLast? final)
  obtain ⟨t, mem, begins⟩ := exists_token_of_solid whole solid
  obtain ⟨t', mem', ends⟩ := exists_token_of_solid whole' solid'
  obtain ⟨a, rest, split, start⟩ := text_around mem
  obtain ⟨front, b, split', start'⟩ := text_around mem'
  have wide : t.start < t'.stop := by
    obtain ⟨_, p, _, _, rfl, site, -, -, leaves, -⟩ := parse_inner_site below inside
    have wide := (parse_rooted text).trimmedSpan_solid site leaves head final
    rwa [begins, ends] at wide
  -- The text up to the last token goes on from the text in front of the first.
  have stop : Text.byteLength (front ++ t'.text) = t'.stop := by
    rw [Text.byteLength_append, start', Token.stop]
  obtain ⟨e, long⟩ : a <+: front ++ t'.text := by
    rw [← List.append_assoc] at split'
    refine (List.prefix_or_prefix_of_prefix ⟨_, split.symm⟩ ⟨_, split'.symm⟩).resolve_right ?_
    rintro ⟨more, short⟩
    have := congrArg Text.byteLength short
    rw [Text.byteLength_append, start, stop] at this
    omega
  have whole : text = a ++ (e ++ b) := by
    rw [← List.append_assoc, long, List.append_assoc]
    exact split'
  have span : (parse text).tree.trimmedSpan n = ⟨a.byteLength, Text.byteLength (a ++ e)⟩ := by
    rw [trimmedSpan_of_ends head final, begins, ends, long, stop, start]
    rfl
  refine ⟨a, e, b, whole, span, ?_⟩
  have shown : (parse text).tree.trimmedText n = text.slice ((parse text).tree.trimmedSpan n) := rfl
  rw [shown, span, whole, Text.byteLength_append]
  exact Text.slice_append a e b

end Outside

section Parts

variable {a e b : Text} {n : Nat} (below : 0 < n) (inside : n < (parse (a ++ (e ++ b))).tree.nodes.size)
  (span : (parse (a ++ (e ++ b))).tree.trimmedSpan n = ⟨a.byteLength, Text.byteLength (a ++ e)⟩)
include below inside span

theorem seams_of_trimmedSpan : Cut.Seam a (e ++ b) ∧ Cut.Seam (a ++ e) b := by
  obtain ⟨first, last, head, final, each⟩ := exists_ends below inside
  rw [trimmedSpan_of_ends head final, Span.mk.injEq] at span
  obtain ⟨whole, solid⟩ := each first (List.mem_of_mem_head? head)
  obtain ⟨whole', solid'⟩ := each last (List.mem_of_getLast? final)
  obtain ⟨t, mem, begins⟩ := exists_token_of_solid whole solid
  obtain ⟨t', mem', ends⟩ := exists_token_of_solid whole' solid'
  rw [begins, ends] at span
  refine ⟨seam_of_token mem (.inl span.1), ?_⟩
  rw [← List.append_assoc] at mem'
  exact seam_of_token mem' (.inr span.2)

theorem parse_outside :
    ((parse (a ++ (e ++ b))).tree.outside n).map (fun i => (parse (a ++ (e ++ b))).tree.glimpse (.token i)) =
      (ofText a).tokens.map Token.glimpse ++
        (ofText b).all.map fun t => t.glimpse.shift (Text.byteLength (a ++ e)) := by
  obtain ⟨front, back⟩ := seams_of_trimmedSpan below inside span
  obtain ⟨before, behind, outside, moved, moved'⟩ := all_outside front back
  rw [map_outside below inside, span, outside, List.map_append,
    Token.Moved.map_glimpse moved, Token.Moved.map_glimpse moved', Glimpse.shift_zero]
  rfl

end Parts

end SyntaxTree

/-- How far out a node of the kind stands among nodes with the same tokens. Kinds of one category stand
equally far out. -/
def Kind.tier : Kind → Nat
  | error => 5
  | param => 4
  | letStmt | exprStmt | identPat | wildcardPat | tuplePat | refPat | literalPat | restPat => 3
  | literal | pathExpr | tupleExpr | parenExpr | binaryExpr | callExpr | refExpr | blockExpr => 2
  | pathType | tupleType | refType => 2
  | path | field => 1
  | _ => 0

theorem Kind.tier_falls : Kind.Falls tier :=
  falls_of_singles (fun k apart => by revert apart; cases k <;> decide) fun k' other => by
    revert other
    cases k' <;> decide

namespace SyntaxTree

section Nodes

variable {t : SyntaxTree} {rootKind k k' : Kind} {all inner inner' : Forest} {around around' : Option Nat}
  {p p' : Place} (root : t.Rooted rootKind all) (site : t.Site around p k inner)
  (site' : t.Site around' p' k' inner') (solid : ∀ l ∈ inner.leaves, l.Solid)
  (solid' : ∀ l ∈ inner'.leaves, l.Solid) (some_ : inner.leaves ≠ [])
include root site site' solid solid' some_

theorem Rooted.below_of_trimmedSpan (same : t.trimmedSpan p.node = t.trimmedSpan p'.node)
    (less : p.node < p'.node) : p'.node ∈ t.descendants p.node := by
  have own : t.significantTokens p.node ≠ [] := by
    rw [← List.length_pos_iff, site.length_significantTokens solid]
    exact List.length_pos_iff.mpr some_
  have tokens := root.significantTokens_eq site site' solid solid' some_ same
  obtain ⟨first, head⟩ : ∃ first, (t.significantTokens p.node).head? = some first :=
    ⟨_, List.head?_eq_some_head own⟩
  obtain ⟨last, final⟩ : ∃ last, (t.significantTokens p.node).getLast? = some last :=
    ⟨_, List.getLast?_eq_some_getLast own⟩
  have wide := site.significant_solid solid (List.mem_of_mem_head? head)
  obtain ⟨m, found, under⟩ := root.innermost_below site head final wide
  obtain ⟨m', found', under'⟩ := root.innermost_below site' (tokens ▸ head) (tokens ▸ final) wide
  obtain rfl : m = m' := Except.ok.inj (found.symm.trans found')
  rw [site.mem_descendants] at under ⊢
  rw [site'.mem_descendants] at under'
  omega

end Nodes

section

variable {text : Text} {n m : Nat}

theorem tier_lt_of_trimmedSpan (below : 0 < n) (less : n < m) (inside : m < (parse text).tree.nodes.size)
    (same : (parse text).tree.trimmedSpan n = (parse text).tree.trimmedSpan m) :
    ((parse text).tree.kind m).tier < ((parse text).tree.kind n).tier := by
  have root := parse_rooted text
  obtain ⟨_, p, k, inner, rfl, site, -, some_, solid, fewer⟩ :=
    parse_inner_site below (Nat.lt_trans less inside)
  obtain ⟨_, p', k', inner', rfl, site', -, -, solid', -⟩ :=
    parse_inner_site (Nat.lt_trans below less) inside
  obtain ⟨first, last⟩ := site.mem_descendants.mp
    (root.below_of_trimmedSpan site site' solid solid' some_ same less)
  obtain ⟨_, q, k'', within, at_, lies, has⟩ := site.within.exists_site first last
  have tokens := congrArg List.length (root.significantTokens_eq site site' solid solid' some_ same)
  rw [← at_, lies.kind, site.kind]
  have leaves : ∀ l ∈ within.leaves, l.Solid := fun l mem => solid l (has.leaves_sublist.subset mem)
  rw [← at_, site.length_significantTokens solid, lies.length_significantTokens leaves] at tokens
  refine Nat.lt_of_not_le fun high => ?_
  have := fewer _ Kind.tier_falls k'' within has high
  omega

theorem eq_of_trimmedSpan (below : 0 < n) (inside : n < (parse text).tree.nodes.size) (below' : 0 < m)
    (inside' : m < (parse text).tree.nodes.size)
    (same : (parse text).tree.trimmedSpan n = (parse text).tree.trimmedSpan m)
    (tier : ((parse text).tree.kind n).tier = ((parse text).tree.kind m).tier) : n = m := by
  rcases Nat.lt_trichotomy n m with less | eq | more
  · exact absurd tier.symm (Nat.ne_of_lt (tier_lt_of_trimmedSpan below less inside' same))
  · exact eq
  · exact absurd tier (Nat.ne_of_lt (tier_lt_of_trimmedSpan below' more inside same.symm))

end

end SyntaxTree

end LosslessTree
