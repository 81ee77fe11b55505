import LosslessTree.Grammar.Rule
import LosslessTree.Token.Stream

set_option autoImplicit false

namespace LosslessTree

namespace Lexeme

theorem fixed?_mem {t : Text} {entry : Kind × Nat} (h : fixed? t = some entry) :
    (t.take entry.2, entry.1) ∈ fixed := by
  obtain ⟨⟨spelling, k⟩, found, rfl⟩ := Option.map_eq_some_iff.mp h
  have starts := List.find?_some found
  have cut := List.prefix_iff_eq_take.mp (List.isPrefixOf_iff_prefix.mp starts)
  change (t.take spelling.length, k) ∈ fixed
  rw [← cut]
  exact List.mem_of_find?_eq_some found

-- Operators have a fixed spelling.
theorem free_ne_operator (first : Char) (rest : Text) : (free first rest).1 ≠ .binaryOperator := by
  unfold free
  split
  · simp
  split
  · simp only [number]
    split <;> simp
  split
  · simp only [word, wordKind]
    split
    · simp
    · cases found : Kind.ofKeyword? (first :: rest.takeWhile isIdentContinue) with
      | none => simp
      | some k =>
          have apart : ∀ entry ∈ Kind.keywords, entry.2 ≠ .binaryOperator := by decide
          exact apart _ (mem_of_ofKeyword? found)
  · simp

theorem measure_operator {t : Text} {n : Nat} (h : measure t = some (.binaryOperator, n)) :
    (t.take n, Kind.binaryOperator) ∈ fixed := by
  cases t with
  | nil => cases h
  | cons first rest =>
      simp only [measure, Option.some.injEq] at h
      cases found : fixed? (first :: rest) with
      | none =>
          rw [found, Option.getD_none] at h
          exact absurd (congrArg Prod.fst h) (free_ne_operator _ _)
      | some entry =>
          rw [found, Option.getD_some] at h
          rw [h] at found
          exact fixed?_mem found

end Lexeme

def Token.Lexed (t : Token) : Prop :=
  ∃ text n, Lexeme.measure text = some (t.kind, n) ∧ t.text = text.take n

namespace Token

variable {t : Token}

theorem Lexed.isLexeme (h : t.Lexed) : Lexeme.isLexeme t.kind = true := by
  obtain ⟨text, n, measured, _⟩ := h
  exact Lexeme.measure_isLexeme measured

theorem Lexed.ne_eof (h : t.Lexed) : t.kind ≠ .eof := by
  have lexeme := h.isLexeme
  intro eof
  rw [eof] at lexeme
  cases lexeme

theorem Lexed.isNode (h : t.Lexed) : t.kind.isNode = false := by
  have lexeme := h.isLexeme
  simp only [Lexeme.isLexeme, Bool.and_eq_true, Bool.not_eq_true'] at lexeme
  exact lexeme.1.1.2

theorem Lexed.text_ne_nil (h : t.Lexed) : t.text ≠ [] := by
  obtain ⟨text, n, measured, cut⟩ := h
  obtain ⟨some_text, pos⟩ := Lexeme.measure_pos measured
  rw [cut]
  intro none
  rcases List.take_eq_nil_iff.mp none with zero | empty
  · omega
  · exact some_text empty

theorem Lexed.operator_level (h : t.Lexed) (operator : t.kind = .binaryOperator) :
    ∃ level, t.lookahead.level = some level ∧ operatorLevel? t.text = some level ∧ 1 ≤ level := by
  obtain ⟨text, n, measured, cut⟩ := h
  rw [operator] at measured
  have each : ∀ entry ∈ Lexeme.fixed, entry.2 = .binaryOperator →
      ∃ level ∈ operatorLevel? entry.1, 1 ≤ level := by decide
  obtain ⟨level, found, pos⟩ := each _ (Lexeme.measure_operator measured) rfl
  have found : operatorLevel? t.text = some level := by
    rw [cut]
    exact found
  exact ⟨level, by simp [lookahead, operator, found], found, pos⟩

end Token

namespace TokenStream

theorem scan_lexed {offset : Nat} {t : Text} (h : (Token.scan offset t).1.kind ≠ .eof) :
    (Token.scan offset t).1.Lexed := by
  simp only [Token.scan] at h ⊢
  split at h
  · contradiction
  · next measured => exact ⟨_, _, measured, rfl⟩

theorem ofTextAt_lexed (offset : Nat) (t : Text) :
    ∀ token ∈ (ofTextAt offset t).tokens, token.Lexed := by
  fun_induction ofTextAt offset t with
  | case1 offset t first more rest ih =>
      intro token mem
      rcases List.mem_cons.mp mem with rfl | mem
      · exact scan_lexed more
      · exact ih token mem
  | case2 => simp

theorem ofText_lexed (text : Text) : ∀ token ∈ (ofText text).tokens, token.Lexed :=
  ofTextAt_lexed 0 text

theorem ofText_plain (text : Text) : ∀ t ∈ (ofText text).tokens, t.kind.isNode = false :=
  fun t mem => (ofText_lexed text t mem).isNode

theorem ofText_eof (text : Text) : (ofText text).eof.kind = .eof := ofTextAt_eof 0 text

end TokenStream

end LosslessTree
