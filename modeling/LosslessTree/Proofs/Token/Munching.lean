import LosslessTree.Proofs.Token.Passages
import LosslessTree.Proofs.Token.Scanning

set_option autoImplicit false

namespace LosslessTree

open Lexeme

theorem Token.Reads.within {offset : Nat} {t : Token} {text after rest stretch behind : Text}
    (reads : Token.Reads offset text t after rest) (split : t.text ++ after = stretch ++ behind)
    (long : t.text.length ≤ stretch.length) :
    Trivia.measure .leading stretch = none ∧ measure stretch = some (t.kind, t.text.length) := by
  have none := Trivia.measure_scan .leading text
  have lexeme := reads.lexeme
  rw [reads.leading, split] at none
  rw [split] at lexeme
  have starts : t.text <+: stretch :=
    List.prefix_of_prefix_length_le (split ▸ List.prefix_append t.text after)
      (List.prefix_append stretch behind) long
  obtain ⟨more, rfl⟩ := starts
  have bare := Trivia.measure_none_replace none (reads.dark more) (r := []) (by simp)
  rw [List.append_nil] at bare
  exact ⟨bare, measure_within lexeme long⟩

namespace TokenStream

def single (k : Kind) (w : Text) : TokenStream := ⟨[⟨[], k, 0, w, []⟩], Lexer.eofAt w.byteLength⟩

variable {k : Kind} {w text : Text}

theorem eq_of_single (alone : ofText text = single k w) : text = w := by
  have whole : ((ofText text).all.map Token.fullText).flatten = text := ofTextAt_text 0 text
  rw [alone] at whole
  simpa [single, all, Lexer.eofAt, Token.fullText, Trivia.textOf] using whole.symm

theorem ofText_eq_single_iff :
    ofText w = single k w ↔ Trivia.measure .leading w = none ∧ measure w = some (k, w.length) := by
  constructor
  · intro alone
    obtain ⟨after, rest, reads, -⟩ := reads_of_cons (congrArg tokens alone)
    obtain rfl : after = [] := by simpa [Trivia.textOf] using reads.text
    have nothing := reads.within rfl (Nat.le_refl _)
    exact nothing
  · rintro ⟨none, whole⟩
    have reads : Token.Reads 0 w ⟨[], k, 0, w, []⟩ [] [] := by
      refine ⟨?_, ?_, Trivia.scan_of_none rfl, rfl⟩
      · rw [Trivia.scan_of_none none, List.append_nil]
      · rwa [List.append_nil]
    have more : (Token.scan 0 w).1.kind ≠ .eof := by
      rw [reads.scan]
      rintro rfl
      cases measure_isLexeme whole
    have last (offset : Nat) : ofTextAt offset [] = ⟨[], Lexer.eofAt offset⟩ := by
      have ended := congrArg Lexer.current (Lexer.scan_nil offset)
      change (Token.scan offset []).1 = _ at ended
      rw [ofTextAt, ended]
      rfl
    rw [ofText, ofTextAt, dif_pos more]
    simp only [reads.scan, last, single]
    simp [Token.fullSpan, Token.stop, Trivia.lengthOf]

/-- A token is a text of one token of its kind. From where it starts, no longer stretch of the text is a
text of one token. -/
theorem ofText_maximal {t : Token} (mem : t ∈ (ofText text).tokens) :
    text.slice t.span = t.text ∧ ofText t.text = single t.kind t.text ∧
      ∀ before stretch behind, text = before ++ (stretch ++ behind) → before.byteLength = t.start →
        t.text.length < stretch.length → ∀ k w, ofText stretch ≠ single k w := by
  obtain ⟨front, tokens, split⟩ := List.append_of_mem mem
  obtain ⟨here, whole, further⟩ := ofTextAt_behind split
  obtain ⟨after, rest, reads, -⟩ := reads_of_cons further.symm
  have place : text = ((front.map Token.fullText).flatten ++ Trivia.textOf t.leading) ++
      (t.text ++ after) := by
    rw [whole, reads.text, List.append_assoc]
  have start : Text.byteLength ((front.map Token.fullText).flatten ++ Trivia.textOf t.leading) = t.start := by
    rw [Text.byteLength_append, Trivia.byteLength_textOf, reads.start, Nat.zero_add]
  refine ⟨?_, ofText_eq_single_iff.mpr (reads.within rfl (Nat.le_refl _)), ?_⟩
  · rw [Token.span, Token.stop, place, ← start]
    exact Text.slice_append _ _ _
  · intro before stretch behind place' start' long k w alone
    have cut : t.text ++ after = stretch ++ behind := by
      have same := place.symm.trans place'
      rw [← Text.dropBytes_byteLength _ (t.text ++ after), start, same, ← start']
      exact Text.dropBytes_byteLength before _
    -- The lexeme at the head of the stretch is the token, so it does not go to the end.
    obtain rfl := eq_of_single alone
    have own := (ofText_eq_single_iff.mp alone).2
    rw [(reads.within cut (Nat.le_of_lt long)).2, Option.some.injEq, Prod.mk.injEq] at own
    omega

-- A number in front of a range. With one of the points, or both, it is more than a token.
theorem ofText_maximal_range :
    let text : Text := [' ', '1', '.', '.', '2']
    let t : Token := ⟨[⟨.whitespace, [' ']⟩], .intNumber, 1, ['1'], []⟩
    t ∈ (ofText text).tokens ∧ text.slice t.span = ['1'] ∧ ofText ['1'] = single .intNumber ['1'] ∧
      ∀ k w, ofText ['1', '.'] ≠ single k w ∧ ofText ['1', '.', '.'] ≠ single k w := by
  intro text t
  have mem : t ∈ (ofText text).tokens := by decide +kernel
  obtain ⟨here, alone, longest⟩ := ofText_maximal mem
  refine ⟨mem, here, alone, fun k w => ⟨?_, ?_⟩⟩
  · exact longest [' '] ['1', '.'] ['.', '2'] rfl rfl (by decide) k w
  · exact longest [' '] ['1', '.', '.'] ['2'] rfl rfl (by decide) k w

end TokenStream

end LosslessTree
