import LosslessTree.Proofs.Printing.Lexed
import LosslessTree.Proofs.Printing.Parsed
import LosslessTree.Proofs.Printing.Viewed
import LosslessTree.Proofs.Snippet.Accepting

set_option autoImplicit false

namespace LosslessTree

namespace Snippet

open TokenStream SyntaxTree Expression

abbrev fileOf (e : Expression) : Text := inInitializer.fill e.print

-- The tokens of a written expression in the file around it, and their forest.
structure Filled (e : Expression) (base own : List Token) (f : Forest) : Prop where
  passage : Passage e.print base
  fills : ∃ before behind, Fills inInitializer (fnKinds ++ [.letKw, .underscore, .equal])
    ([.semicolon] ++ [.rightBrace]) e.print base before own behind
  built : Built e own f

theorem exists_filled {e : Expression} (formed : e.wellFormed = true) :
    ∃ base own f, Filled e base own f := by
  obtain ⟨base, passage, spelled⟩ := exists_passage_spaced (isWord_words formed) (words_ne_nil e)
  obtain ⟨before, own, behind, fills⟩ := reads_inInitializer.fill passage
  obtain ⟨f, built⟩ :=
    built_of_spelled formed ((Token.Moved.map_spelling fills.alike.moved).trans spelled)
  exact ⟨base, own, f, passage, ⟨before, behind, fills⟩, built⟩

section Filled

variable {e : Expression} {base own : List Token} {f : Forest} (h : Filled e base own f)
  (formed : e.wellFormed = true)
include h formed

theorem Filled.stands : Stands inInitializer e.print Category.expr.members 7 e.kind own f := by
  obtain ⟨before, behind, fills⟩ := h.fills
  obtain ⟨semicolon, more, rfl, is, -⟩ := List.map_eq_cons_iff.mp fills.kinds'
  have ends : seen (ofText (fileOf e)).eof (semicolon :: more) ∉ Rule.expressionMore := by
    simp [is, Rule.expressionMore, Rule.operandMore]
  exact stands_inInitializer h.passage fills e.accepts_kind h.built.leaves
    ((h.built.parsed formed).inner_passes ends ⟨rfl, rfl⟩)

theorem Filled.run : (parse (fileOf e)).errors = [] ∧ ∃ parent p rest more, p.node = 7 ∧
    (parse (fileOf e)).tree.Covers parent p (.node e.kind f rest) (own ++ more) :=
  ⟨(h.stands formed).clean, (h.stands formed).covers⟩

theorem Filled.find_isWhole : ((parse (fileOf e)).tree.descendants 0).find?
    (Snippet.isWhole (parse (fileOf e)).tree inInitializer e.print Category.expr.members) = some 7 :=
  (h.stands formed).found

theorem Filled.resolve : (parse (fileOf e)).tree.resolve 0 ((parse (fileOf e)).tree.address 7) = .ok 7 :=
  (h.stands formed).resolve

theorem Filled.reads : (parse (fileOf e)).tree.ReadsAs e 7 := by
  obtain ⟨-, parent, p, rest, more, at_, covers⟩ := h.run formed
  rw [← at_]
  exact viewed arranged_of_kind e h.built covers

end Filled

/-- What is written for an expression is accepted as a snippet, and its node reads as the expression
and as no other. -/
theorem expression_print (e : Expression) (formed : e.wellFormed = true) :
    ∃ s n, expression e.print = some s ∧ s.node = .ok n ∧ ∀ e', s.file.tree.ReadsAs e' n ↔ e' = e := by
  obtain ⟨x, own, f, h⟩ := exists_filled formed
  have reads := h.reads formed
  refine ⟨⟨parse (fileOf e), (parse (fileOf e)).tree.address 7⟩, 7, ?_, h.resolve formed, fun e' => ?_⟩
  · have quiet : (parse (fileOf e)).hasErrors = false := by
      have none : (parse (fileOf e)).errors = [] := (h.run formed).1
      rw [Parse.hasErrors, none]
      rfl
    have trimmed : e.print.trim = e.print := Text.trim_spaced (isWord_words formed)
    simp only [expression, read, trimmed, quiet, Bool.false_eq_true, if_false, h.find_isWhole formed]
    rfl
  · constructor
    · exact fun other => sole _ _ other reads rfl
    · rintro rfl
      exact reads

-- A call with a reference and a tuple of one field, times a sum in parentheses.
theorem expression_print_product :
    let e : Expression := .binary
      (.call (.path ['f'] [['g']]) [.reference true (.path ['x'] []), .tuple [.literal ['1']]]) ['*']
      (.paren (.binary (.path ['a'] []) ['+'] (.path ['b'] [])))
    e.wellFormed = true ∧ ∃ s n, expression e.print = some s ∧ s.node = .ok n ∧
      ∀ e', s.file.tree.ReadsAs e' n ↔ e' = e :=
  ⟨by decide +kernel, expression_print _ (by decide +kernel)⟩

end Snippet

end LosslessTree
