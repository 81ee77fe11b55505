import LosslessTree.Proofs.Token.Passages
import LosslessTree.Snippet

set_option autoImplicit false

namespace LosslessTree.Snippet

open TokenStream Lexeme

-- How a template is read around a snippet: a blank in front of it, a token in front of the blank,
-- and tokens of these kinds on either side.
structure Template.Reads (template : Template) (kinds kinds' : List Kind) : Prop where
  lead : ∃ core words, template.lead = core ++ [' '] ∧ Passage core words ∧ words.map Token.kind = kinds ∧
    ∀ t ∈ words, t.start < template.lead.byteLength
  tail : (ofText (Trivia.scan .trailing template.tail).2).tokens.map Token.kind = kinds'
  ends : template.tail.head?.all isBreak = true

-- The tokens of a filled template: those in front of the snippet, its own and those behind.
structure Fills (template : Template) (kinds kinds' : List Kind) (excerpt : Text)
    (base before own behind : List Token) : Prop where
  tokens : (ofText (template.fill excerpt)).tokens = before ++ (own ++ behind)
  kinds : before.map Token.kind = kinds
  alike : Token.Alike template.lead.byteLength base own
  kinds' : behind.map Token.kind = kinds'
  start : ∀ t ∈ before, t.start < template.lead.byteLength

theorem Template.Reads.fill {template : Template} {kinds kinds' : List Kind} {excerpt : Text}
    {base : List Token} (reads : template.Reads kinds kinds') (h : Passage excerpt base) :
    ∃ before own behind, Fills template kinds kinds' excerpt base before own behind := by
  obtain ⟨core, words, lead, front, rfl, starts⟩ := reads.lead
  have ends : ∀ c ∈ template.tail.head?, isBreak c = true :=
    fun c mem => (Option.all_eq_true _ _).mp reads.ends c mem
  have blank : ∀ c ∈ (' ' :: (excerpt ++ template.tail)).head?, isBreak c = true := by
    simp only [List.head?_cons, Option.mem_some, forall_eq']
    decide +kernel
  obtain ⟨before, alike, first⟩ := front.again 0 _ blank
  have length : template.lead.byteLength = 0 + core.byteLength + Trivia.lengthOf [⟨.whitespace, [' ']⟩] := by
    rw [lead, Text.byteLength_append, Nat.zero_add]
    rfl
  rw [Trivia.scan_blank (h.unled _ ends), ← length] at first
  obtain ⟨own, alike', second⟩ := h.again template.lead.byteLength _ ends
  obtain ⟨place, second⟩ : ∃ place, (ofTextAt template.lead.byteLength (excerpt ++ template.tail)).tokens =
      own ++ (ofTextAt place (Trivia.scan .trailing template.tail).2).tokens := ⟨_, second⟩
  refine ⟨before, own, (ofTextAt place (Trivia.scan .trailing template.tail).2).tokens, ?_,
    Token.Moved.map_kind alike.moved, alike', ?_, fun t mem => ?_⟩
  · have fill : template.fill excerpt = core ++ ' ' :: (excerpt ++ template.tail) := by
      simp [Template.fill, lead]
    rw [ofText, fill, first, second]
  · have shifted := ofTextAt_shift place 0 (Trivia.scan .trailing template.tail).2
    rw [Nat.zero_add] at shifted
    rw [← reads.tail, shifted, List.map_map]
    rfl
  · have still (t t' : Token) (moved : t.Moved 0 t') : t.start = t'.start := by rw [moved.start, Nat.add_zero]
    have moved := Token.Moved.map_congr still alike.moved
    have inside : t.start ∈ words.map Token.start := moved ▸ List.mem_map_of_mem mem
    obtain ⟨word, mem, start⟩ := List.mem_map.mp inside
    exact start ▸ starts word mem

def fnKinds : List Kind := [.fnKw, .ident, .leftParen, .rightParen, .leftBrace]

theorem reads_inInitializer :
    inInitializer.Reads (fnKinds ++ [.letKw, .underscore, .equal]) ([.semicolon] ++ [.rightBrace]) where
  lead := ⟨"fn f() \x7b let _ =".toList, _, by decide, passage_of_ends (by decide +kernel) (by decide +kernel)
    (by decide +kernel) (by decide +kernel), by decide +kernel, by decide +kernel⟩
  tail := by decide +kernel
  ends := by decide +kernel

theorem reads_inLetPattern :
    inLetPattern.Reads (fnKinds ++ [.letKw]) ([.equal, .ident, .semicolon] ++ [.rightBrace]) where
  lead := ⟨"fn f() \x7b let".toList, _, by decide, passage_of_ends (by decide +kernel) (by decide +kernel)
    (by decide +kernel) (by decide +kernel), by decide +kernel, by decide +kernel⟩
  tail := by decide +kernel
  ends := by decide +kernel

theorem reads_inBlock : inBlock.Reads (fnKinds ++ []) ([] ++ [.rightBrace]) where
  lead := ⟨"fn f() \x7b".toList, _, by decide, passage_of_ends (by decide +kernel) (by decide +kernel)
    (by decide +kernel) (by decide +kernel), by decide +kernel, by decide +kernel⟩
  tail := by decide +kernel
  ends := by decide +kernel

end LosslessTree.Snippet
