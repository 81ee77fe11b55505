import LosslessTree.Proofs.Token.Munching
import LosslessTree.Proofs.Token.Wording

set_option autoImplicit false

namespace LosslessTree

open Lexeme

namespace Lexeme

-- A string that is not closed takes a line break behind it.
theorem measure_open {w : Text} {n : Nat} (found : measure w = some (.stringLiteral, n))
    (open_ : closes w.tail = false) :
    n = w.length ∧ measure (w ++ ['\n']) = some (.stringLiteral, n + 1) := by
  have whole {t : Text} (open_ : closes t = false) : stringLength t = t.length := by
    refine Nat.le_antisymm (stringLength_le t) (Nat.le_of_not_lt fun short => ?_)
    rw [closes_of_stringLength_lt short] at open_
    cases open_
  obtain ⟨rest, rfl, rfl⟩ := quote_of_measure found
  rw [List.tail_cons] at open_
  have longer : closes (rest ++ ['\n']) = false := (closes_concat (by decide) rest).trans open_
  refine ⟨by rw [whole open_, List.length_cons, Nat.add_comm], ?_⟩
  rw [List.cons_append, measure_quote, whole longer, whole open_, List.length_append]
  rfl

end Lexeme

namespace TokenStream

def marks (s : TokenStream) : List (Kind × Text × Span) :=
  s.tokens.map fun t => (t.kind, t.text, t.span)

variable {text a b : Text} {t : Token}

theorem measure_stretch (mem : t ∈ (ofText text).tokens) : ∃ before after,
    text = before ++ (t.text ++ after) ∧ before.byteLength = t.start ∧
      ∀ stretch behind, t.text ++ after = stretch ++ behind → t.text.length ≤ stretch.length →
        measure stretch = some (t.kind, t.text.length) := by
  obtain ⟨front, tokens, split⟩ := List.append_of_mem mem
  obtain ⟨here, whole, further⟩ := ofTextAt_behind split
  obtain ⟨after, rest, reads, -⟩ := reads_of_cons further.symm
  refine ⟨(front.map Token.fullText).flatten ++ Trivia.textOf t.leading, after, ?_, ?_,
    fun stretch behind cut long => (reads.within cut long).2⟩
  · rw [whole, reads.text, List.append_assoc]
  · rw [Text.byteLength_append, Trivia.byteLength_textOf, reads.start, Nat.zero_add]

theorem mem_marks {s : TokenStream} (mem : (t.kind, t.text, t.span) ∈ s.marks) :
    ∃ u ∈ s.tokens, u.kind = t.kind ∧ u.text = t.text ∧ u.start = t.start := by
  obtain ⟨u, inside, same⟩ := List.mem_map.mp mem
  simp only [Prod.mk.injEq, Token.span, Span.mk.injEq] at same
  exact ⟨u, inside, same.1, same.2.1, same.2.2.1⟩

theorem marks_moved {n : Nat} {tokens tokens' : List Token}
    (moved : List.Forall₂ (Token.Moved n) tokens tokens') :
    tokens'.map (fun t => (t.kind, t.text, t.span)) =
      tokens.map fun t => (t.kind, t.text, t.span.shift n) := by
  rw [eq_comm, ← List.forall₂_eq_eq_eq, List.forall₂_map_left_iff, List.forall₂_map_right_iff]
  exact moved.imp fun t t' same => by rw [same.kind, same.text, same.span]

theorem not_mem_marks (mem : t ∈ (ofText a).tokens) (open_ : t.isOpen = true) :
    (t.kind, t.text, t.span) ∉ (ofText (a ++ ['\n'])).marks := by
  intro again
  simp only [Token.isOpen, Bool.and_eq_true, beq_iff_eq, Bool.not_eq_true'] at open_
  obtain ⟨string, open_⟩ := open_
  obtain ⟨before, after, split, start, longest⟩ := measure_stretch mem
  obtain ⟨u, mem', kind, text, start'⟩ := mem_marks again
  obtain ⟨before', after', split', at_, longest'⟩ := measure_stretch mem'
  have own := longest t.text after rfl (Nat.le_refl _)
  have goes := longest (t.text ++ after) [] (List.append_nil _).symm (by simp)
  rw [string] at own goes
  -- With more text behind it the string would be closed.
  obtain rfl : after = [] := by
    by_contra more
    rw [closes_of_more goes (Nat.le_refl _) (.inr more)] at open_
    cases open_
  -- The same token in front of the line break would end before it, where the longer lexeme goes on.
  have here : t.text ++ ['\n'] = u.text ++ after' := by
    rw [List.append_nil] at split
    rw [← Text.dropBytes_byteLength before (t.text ++ ['\n']), ← List.append_assoc, ← split, split', start,
      ← start', ← at_, Text.dropBytes_byteLength]
  have longer := (measure_open own open_).2
  have same := longest' (t.text ++ ['\n']) [] (by rw [List.append_nil, here]) (by simp [text])
  rw [longer, text] at same
  simp at same

/-- A line break keeps the tokens of two texts apart, whatever the second one is, if and only if the first
one leaves no string open. -/
theorem isolates_iff (a : Text) :
    (∀ b : Text, (ofText (a ++ '\n' :: b)).marks = (ofText a).marks ++
        (ofText b).marks.map fun (k, w, s) => (k, w, s.shift (a.byteLength + 1))) ↔
      ∀ t ∈ (ofText a).tokens.getLast?, t.isOpen = false := by
  constructor
  · intro isolates t last
    have mem : t ∈ (ofText a).tokens := List.mem_of_getLast? last
    refine Bool.eq_false_iff.mpr fun open_ => not_mem_marks mem open_ ?_
    have none : (ofText []).marks = [] := congrArg (List.map _) (ofTextAt_nil 0)
    rw [isolates [], none, List.map_nil, List.append_nil]
    exact List.mem_map_of_mem (f := fun t : Token => (t.kind, t.text, t.span)) mem
  · intro shut b
    obtain ⟨before, after, split, front, back⟩ := ofText_join shut b
    rw [marks, split, List.map_append, marks_moved front, marks_moved back]
    simp [marks, Span.shift]

-- A string at the end of a text, closed and without its closing quote.
theorem isolates_iff_quoted :
    (∀ b : Text, (ofText ('"' :: 'x' :: '"' :: '\n' :: b)).marks = (.stringLiteral, ['"', 'x', '"'], ⟨0, 3⟩) ::
        (ofText b).marks.map fun (k, w, s) => (k, w, s.shift 4)) ∧
      ¬∀ b : Text, (ofText ('"' :: 'x' :: '\n' :: b)).marks = (.stringLiteral, ['"', 'x'], ⟨0, 2⟩) ::
        (ofText b).marks.map fun (k, w, s) => (k, w, s.shift 3) := by
  have closed : (ofText ['"', 'x', '"']).marks = [(.stringLiteral, ['"', 'x', '"'], ⟨0, 3⟩)] := by
    decide +kernel
  have open_ : (ofText ['"', 'x']).marks = [(.stringLiteral, ['"', 'x'], ⟨0, 2⟩)] := by decide +kernel
  refine ⟨fun b => ?_, fun isolates => ?_⟩
  · have apart := (isolates_iff ['"', 'x', '"']).mpr (by decide +kernel) b
    rwa [closed] at apart
  · have shut := (isolates_iff ['"', 'x']).mp (by rw [open_]; exact isolates)
    exact absurd shut (by decide +kernel)

end TokenStream

end LosslessTree
