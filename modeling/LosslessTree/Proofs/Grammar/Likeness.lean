import LosslessTree.Proofs.Grammar.Mirroring
import LosslessTree.Proofs.Grammar.Wholeness

set_option autoImplicit false

namespace LosslessTree

namespace Token

def gist (t : Token) : Kind × Text := (t.kind, if t.kind = .binaryOperator then t.text else [])

theorem lookahead_eq_of_gist {t t' : Token} (h : t.gist = t'.gist) : t.lookahead = t'.lookahead := by
  obtain ⟨kind, text⟩ := Prod.mk.inj h
  rw [← kind] at text
  simp only [lookahead, ← kind]
  split
  · next operator =>
      simp only [operator, if_true] at text
      rw [text]
  · rfl

end Token

namespace TokenStream

theorem all_not_trivia (text : Text) : ∀ t ∈ (ofText text).all, t.kind.isTrivia = false := by
  intro t mem
  rcases List.mem_append.mp mem with inside | last
  · have lexeme := (ofText_lexed text t inside).isLexeme
    simp only [Lexeme.isLexeme, Bool.and_eq_true, Bool.not_eq_true'] at lexeme
    exact lexeme.1.1.1
  · rw [List.mem_singleton.mp last, ofText_eof]
    rfl

theorem forest_not_trivia (text : Text) :
    ∀ l ∈ (ofText text).forest.leaves, l.kind.isTrivia = false := by
  rw [forest_leaves]
  intro l mem
  obtain ⟨t, inside, rfl⟩ := List.mem_map.mp mem
  exact all_not_trivia text t inside

end TokenStream

theorem Piece.placed_filter (offset : Nat) (pieces : List Piece) :
    (Piece.placed offset pieces).filter (fun p => !p.1.isTrivia) = [] := by
  induction pieces generalizing offset with
  | nil => rfl
  | cons p pieces ih => simp [placed, p.kind.kind_isTrivia, ih]

theorem Token.placed_filter {t : Token} (own : t.kind.isTrivia = false) :
    t.placed.filter (fun p => !p.1.isTrivia) = [(t.kind, t.span)] := by
  simp [placed, Piece.placed_filter, own]

namespace SyntaxTree

open TokenStream

theorem placed_significantTokens (t : SyntaxTree) (n : Nat) :
    (t.significantTokens n).map t.placedToken =
      ((t.tokensOf n).map t.placedToken).filter fun p => !p.1.isTrivia := by
  rw [List.filter_map]
  rfl

theorem parse_tree (text : Text) :
    (parse text).tree = ofRoot text .sourceFile (ofText text).forest := rfl

theorem map_placedToken_parse (text : Text) :
    ((parse text).tree.tokensOf 0).map (parse text).tree.placedToken =
      (ofText text).all.flatMap Token.placed := by
  rw [parse_tree, map_placedToken_tokensOf, TokenStream.forest_leaves]
  exact ofTextAt_placed 0 text

theorem significantTokens_parse (text : Text) :
    ((parse text).tree.significantTokens 0).map (parse text).tree.placedToken =
      (ofText text).all.map fun t => (t.kind, t.span) := by
  rw [placed_significantTokens, map_placedToken_parse, List.filter_flatMap, List.map_eq_flatMap]
  exact List.flatMap_congr fun t mem => Token.placed_filter (all_not_trivia text t mem)

-- The span is that of the token with the number among those that are not trivia.
def Anchors (t : SyntaxTree) (number : Nat) (span : Span) : Prop :=
  ∃ i, (t.significantTokens 0)[number]? = some i ∧ t.tokenSpan i = span

theorem anchors_parse {text : Text} {number : Nat} {t : Token}
    (h : (ofText text).all[number]? = some t) : (parse text).tree.Anchors number t.span := by
  have told := congrArg (fun l => l[number]?) (significantTokens_parse text)
  simp only [List.getElem?_map, h, Option.map_some, Option.map_eq_some_iff] at told
  obtain ⟨i, found, same⟩ := told
  rw [placedToken, Prod.mk.injEq] at same
  exact ⟨i, found, same.2⟩

end SyntaxTree

namespace TokenStream

def Paired (s s' : TokenStream) (t t' : Token) : Prop :=
  ∃ number : Nat, s.all[number]? = some t ∧ s'.all[number]? = some t'

variable {s s' : TokenStream}

theorem Paired.gist (same : s.all.map Token.gist = s'.all.map Token.gist) {t t' : Token}
    (h : s.Paired s' t t') : t.gist = t'.gist := by
  obtain ⟨number, here, there⟩ := h
  have told := congrArg (fun l => l[number]?) same
  simpa only [List.getElem?_map, here, there, Option.map_some, Option.some.injEq] using told

variable (length : s.tokens.length = s'.tokens.length)
include length

theorem paired_eof : s.Paired s' s.eof s'.eof :=
  ⟨s.tokens.length, by simp [all], by simp [all, length]⟩

theorem paired_tokens : List.Forall₂ (s.Paired s') s.tokens s'.tokens := by
  refine List.forall₂_iff_get.mpr ⟨length, fun number here there => ⟨number, ?_, ?_⟩⟩
  · rw [all, List.getElem?_append_left here]
    exact List.getElem?_eq_getElem here
  · rw [all, List.getElem?_append_left there]
    exact List.getElem?_eq_getElem there

end TokenStream

open TokenStream

/-- Texts whose tokens agree in kind, operators also in text, have trees of one skeleton and the
same messages at tokens of the same number. -/
theorem parse_alike {a b : Text}
    (same : (ofText a).tokens.map Token.gist = (ofText b).tokens.map Token.gist) :
    (parse a).tree.skeleton = (parse b).tree.skeleton ∧
      List.Forall₂ (fun d d' => d.message = d'.message ∧
          ∃ number, (parse a).tree.Anchors number d.span ∧ (parse b).tree.Anchors number d'.span)
        (parse a).errors (parse b).errors := by
  have length : (ofText a).tokens.length = (ofText b).tokens.length := by
    simpa using congrArg List.length same
  have every : (ofText a).all.map Token.gist = (ofText b).all.map Token.gist := by
    simp [TokenStream.all, same, Token.gist, ofText_eof]
  have mirrored := run_mirrored (fun _ _ paired => Token.lookahead_eq_of_gist (paired.gist every))
    (ofText_eof a) (ofText_plain a) (ofText_eof b) (ofText_plain b) (paired_eof length)
    (paired_tokens length)
  constructor
  · have bare : (ofText a).forest.bare = (ofText b).forest.bare := by
      simp [TokenStream.forest, mirrored.parts, Forest.bare, Leaf.bare, Token.leaf, ofText_eof]
    rw [SyntaxTree.parse_tree, SyntaxTree.parse_tree]
    exact SyntaxTree.skeleton_congr bare (forest_not_trivia a) (forest_not_trivia b)
  · refine mirrored.reports.imp ?_
    rintro d d' ⟨message, t, t', ⟨number, ha, hb⟩, span, span'⟩
    rw [span, span']
    exact ⟨message, number, SyntaxTree.anchors_parse ha, SyntaxTree.anchors_parse hb⟩

-- The operand behind the sum is missing in both texts.
theorem parse_alike_missing_operand :
    let a : Text := ['f', 'n', ' ', 'f', '(', ')', '\x7b', '1', '+', '\x7d']
    let b : Text := ['f', 'n', ' ', 'g', 'o', '(', ')', '\n', '\x7b', '2', '3', ' ', '+', '/', '/', 'x',
      '\n', '\x7d']
    (ofText a).tokens.map Token.gist = (ofText b).tokens.map Token.gist ∧
      (parse a).tree.skeleton = (parse b).tree.skeleton ∧
        List.Forall₂ (fun d d' => d.message = d'.message ∧
            ∃ number, (parse a).tree.Anchors number d.span ∧ (parse b).tree.Anchors number d'.span)
          (parse a).errors (parse b).errors :=
  ⟨by decide +kernel, parse_alike (by decide +kernel)⟩

end LosslessTree
