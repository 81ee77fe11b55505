import LosslessTree.Proofs.Grammar.Likeness
import LosslessTree.Proofs.Printing.Built
import LosslessTree.Proofs.Token.Passages

set_option autoImplicit false

namespace LosslessTree

open Lexeme

namespace Expression

variable {stop behind : Nat} {tokens : List Token} {words : List Text}
  (cuts : List.Forall₂ (Cut.Is stop) tokens (Cut.ofWords behind words))
include cuts

theorem spelled_of_cuts : Spelled tokens words := by
  induction words generalizing tokens with
  | nil =>
      cases cuts
      rfl
  | cons w words ih =>
      cases cuts with
      | cons is others => exact spelled_cons.mpr ⟨_, _, rfl, is.kind, is.text, ih others⟩

theorem start_of_cuts :
    ∀ t ∈ tokens.head?, t.start + (Text.spaced words).byteLength + behind = stop := by
  cases words with
  | nil => cases cuts; simp
  | cons w words =>
      cases cuts with
      | cons is others =>
          intro t first
          cases first
          have start := is.start
          simp only at start
          omega

theorem stop_of_cuts : ∀ t ∈ tokens.getLast?, t.stop + behind = stop := by
  induction words generalizing tokens with
  | nil => cases cuts; simp
  | cons w words ih =>
      cases cuts with
      | @cons t _ tokens _ is others =>
          intro last mem
          cases words with
          | nil =>
              cases others
              rw [List.getLast?_singleton, Option.mem_some] at mem
              subst mem
              have start := is.start
              rw [Token.stop, is.text]
              simp only [Text.spaced, List.intercalate_singleton] at start ⊢
              omega
          | cons w' words =>
              refine ih others last ?_
              cases others
              simpa using mem

end Expression

namespace Expression

variable {words : List Text} (each : ∀ w ∈ words, isWord w = true)
include each

-- The words and a semicolon, which ends the last of them.
theorem cuts_spaced : ∃ own behind, behind ≠ [] ∧
    (TokenStream.ofText (Text.spaced words ++ [';'])).tokens = own ++ behind ∧
      List.Forall₂ (Cut.Is ((Text.spaced words).byteLength + 1)) own (Cut.ofWords 1 words) := by
  have cuts : List.Forall₂ (Cut.Is ((Text.spaced words).byteLength + 1))
      (TokenStream.ofText (Text.spaced words ++ [';'])).tokens (Cut.ofWords 1 words ++ Cut.all [';']) := by
    have all := TokenStream.ofTextAt_cuts 0 (Text.spaced words ++ [';'])
    rwa [Cut.all_spaced each (by simp only [List.head?_cons, Option.mem_some, forall_eq']; decide +kernel),
      Nat.zero_add, Text.byteLength_append] at all
  refine ⟨_, _, fun ended => ?_, (List.take_append_drop _ _).symm, List.forall₂_take_append _ _ _ cuts⟩
  have none := List.forall₂_drop_append _ _ _ cuts
  rw [ended, List.forall₂_nil_left_iff] at none
  revert none
  decide +kernel

theorem exists_passage_spaced (some_ : words ≠ []) :
    ∃ base, Passage (Text.spaced words) base ∧ Spelled base words := by
  obtain ⟨own, behind, more, split, cuts⟩ := cuts_spaced each
  rw [← List.nil_append (own ++ behind)] at split
  have spelled := spelled_of_cuts cuts
  have full : own ≠ [] := by
    rintro rfl
    exact some_ (List.map_eq_nil_iff.mp spelled.symm)
  obtain ⟨before, excerpt, after, base, whole, isPassage, alike⟩ :=
    TokenStream.exists_passage split full fun _ _ _ => more
  obtain ⟨first, first', head, head', moved⟩ := Token.Moved.head alike.moved isPassage.some_
  obtain ⟨last, last', final, final', moved'⟩ := Token.Moved.last alike.moved isPassage.some_
  -- It begins with the first word and ends with the last.
  have start := start_of_cuts cuts first' head'
  have stop := stop_of_cuts cuts last' final'
  have first_ := isPassage.start first head
  have last_ := isPassage.stop last final
  rw [moved.start] at start
  rw [Token.stop] at stop last_
  rw [moved'.start, moved'.text] at stop
  obtain rfl : before = [] := by
    by_contra some_
    have pos := Text.byteLength_pos some_
    omega
  have same : excerpt = Text.spaced words := by
    have length : excerpt.byteLength = (Text.spaced words).byteLength := by
      rw [Text.byteLength_nil] at stop
      omega
    rw [← Text.takeBytes_byteLength excerpt after, ← List.nil_append (excerpt ++ after), ← whole, length,
      Text.takeBytes_byteLength]
  exact ⟨base, same ▸ isPassage, (Token.Moved.map_spelling alike.moved).symm.trans spelled⟩

end Expression

end LosslessTree
