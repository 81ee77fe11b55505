import LosslessTree.Proofs.Token.Passages
import LosslessTree.Proofs.Token.Seams

set_option autoImplicit false

namespace LosslessTree

open Lexeme

namespace Trivia

variable {blanks t : Text} (blank : ∀ c ∈ blanks, Unicode.isBlank c = true)
  (none : measure .leading t = none)
include blank none

theorem skip_blanks : skip (blanks ++ t) = t := by
  induction blanks with
  | nil => exact skip_of_none none
  | cons c blanks ih =>
      obtain ⟨here, others⟩ := List.forall_mem_cons.mp blank
      rw [List.cons_append, skip_blank here, ih others]

theorem scan_leading_blanks :
    ∃ pieces, scan .leading (blanks ++ t) = (pieces, t) ∧ lengthOf pieces = blanks.byteLength := by
  have left := scan_leading (blanks ++ t)
  rw [skip_blanks blank none] at left
  have whole := scan_text .leading (blanks ++ t)
  rw [left] at whole
  have length := congrArg Text.byteLength (List.append_cancel_right whole)
  rw [byteLength_textOf] at length
  exact ⟨_, Prod.ext rfl left, length⟩

theorem scan_trailing_blanks :
    ∃ pieces left, scan .trailing (blanks ++ t) = (pieces, left ++ t) ∧
      lengthOf pieces + left.byteLength = blanks.byteLength ∧ ∀ c ∈ left, Unicode.isBlank c = true := by
  have behind := skip_suffix (scan .trailing (blanks ++ t)).2
  rw [skip_scan, skip_blanks blank none] at behind
  obtain ⟨left, rest⟩ := behind
  have whole := scan_text .trailing (blanks ++ t)
  rw [← rest, ← List.append_assoc] at whole
  have split := List.append_cancel_right whole
  have length := congrArg Text.byteLength split
  rw [Text.byteLength_append, byteLength_textOf] at length
  exact ⟨_, left, Prod.ext rfl rest.symm, length, fun c mem => blank c (split ▸ List.mem_append_right _ mem)⟩

end Trivia

theorem Text.exists_blanks (t : Text) : ∃ front back, t = front ++ (t.trim ++ back) ∧
    (∀ c ∈ front, Unicode.isBlank c = true) ∧ ∀ c ∈ back, Unicode.isBlank c = true := by
  have split (t : Text) : t.takeWhile Unicode.isBlank ++ t.trimStart = t := List.takeWhile_append_dropWhile
  have blank {t : Text} : ∀ c ∈ t.takeWhile Unicode.isBlank, Unicode.isBlank c = true :=
    List.all_eq_true.mp List.all_takeWhile
  have back := congrArg List.reverse (split t.trimStart.reverse)
  rw [List.reverse_append, List.reverse_reverse] at back
  refine ⟨t.takeWhile Unicode.isBlank, (t.trimStart.reverse.takeWhile Unicode.isBlank).reverse, ?_, blank,
    fun c mem => blank c (List.mem_reverse.mp mem)⟩
  rw [trim, trimEnd, back, split]

namespace TokenStream

variable {offset : Nat} {text rest : Text} {t : Token} {tokens : List Token}

theorem ofTextAt_led {pieces : List Trivia} (scanned : Trivia.scan .leading text = (pieces, rest))
    (split : (ofTextAt (offset + Trivia.lengthOf pieces) rest).tokens = t :: tokens) :
    (ofTextAt offset text).tokens = { t with leading := pieces } :: tokens := by
  obtain ⟨after, left, reads, rfl⟩ := reads_of_cons split
  have none := Trivia.measure_scan .leading text
  rw [scanned] at none
  have unled := reads.leading
  rw [Trivia.scan_of_none none, Prod.mk.injEq] at unled
  have start := reads.start
  rw [← unled.1] at start
  have led : Token.Reads offset text { t with leading := pieces } after left :=
    ⟨unled.2 ▸ scanned, reads.lexeme, reads.trailing, start⟩
  exact ofTextAt_of_reads led

theorem exists_passage_of_ends {first last : Token} (head : (ofText text).tokens.head? = some first)
    (start : first.start = 0) (final : (ofText text).tokens.getLast? = some last)
    (stop : last.stop = text.byteLength) (closed : last.kind ≠ .stringLiteral) :
    ∃ base, Passage text base ∧ Token.Alike 0 base (ofText text).tokens := by
  have some_ : (ofText text).tokens ≠ [] := List.ne_nil_of_mem (List.mem_of_mem_head? head)
  have all : (ofText text).tokens = [] ++ ((ofText text).tokens ++ []) := by simp
  obtain ⟨before, excerpt, after, base, rfl, isPassage, alike⟩ := exists_passage all some_ <| by
    intro t mem string
    rw [final, Option.mem_some] at mem
    exact absurd (mem ▸ string) closed
  obtain ⟨t, t', first_, first_', moved⟩ := Token.Moved.head alike.moved isPassage.some_
  obtain ⟨u, u', last_, last_', moved'⟩ := Token.Moved.last alike.moved isPassage.some_
  have begins := isPassage.start t first_
  have ends := isPassage.stop u last_
  obtain rfl := Option.some.inj (head.symm.trans first_')
  obtain rfl := Option.some.inj (final.symm.trans last_')
  simp only [Token.stop, moved.start, moved'.start, moved'.text, Text.byteLength_append] at start stop ends
  have empty {t : Text} (none : t.byteLength = 0) : t = [] := by
    by_contra more
    exact Nat.ne_of_gt (Text.byteLength_pos more) none
  -- The first token begins where the text does and the last one ends where it does.
  obtain rfl : before = [] := empty (by omega)
  obtain rfl : after = [] := empty (by omega)
  rw [List.nil_append, List.append_nil] at alike ⊢
  exact ⟨base, isPassage, alike⟩

end TokenStream

open TokenStream

theorem Passage.behind_blanks {excerpt : Text} {base : List Token} (h : Passage excerpt base)
    {blanks later : Text} (blank : ∀ c ∈ blanks, Unicode.isBlank c = true)
    (ends : ∀ c ∈ later.head?, isBreak c = true) (offset : Nat) :
    ∃ own, Token.Alike (offset + blanks.byteLength) base own ∧
      (ofTextAt offset (blanks ++ (excerpt ++ later))).tokens = own ++ (ofTextAt
        (offset + blanks.byteLength + excerpt.byteLength + Trivia.lengthOf (Trivia.scan .trailing later).1)
        (Trivia.scan .trailing later).2).tokens := by
  obtain ⟨pieces, scanned, length⟩ := Trivia.scan_leading_blanks blank (h.unled later ends)
  obtain ⟨own, alike, tokens⟩ := h.again (offset + blanks.byteLength) later ends
  obtain ⟨t, t', -, head, -⟩ := Token.Moved.head alike.moved h.some_
  obtain ⟨own, rfl⟩ := List.head?_eq_some_iff.mp head
  obtain ⟨moved, gaps⟩ := alike
  rw [← length] at tokens
  refine ⟨{ t' with leading := pieces } :: own, ⟨?_, ?_⟩, length ▸ ofTextAt_led scanned tokens⟩
  · rw [List.forall₂_cons_right_iff] at moved ⊢
    obtain ⟨first, others, here, moved, rfl⟩ := moved
    exact ⟨first, others, ⟨here.kind, here.text, here.start⟩, moved, rfl⟩
  · rw [← gaps]
    exact Token.gaps_unled t' pieces own

namespace Token

theorem gaps_append (tokens more : List Token) :
    ∃ between, gaps (tokens ++ more) = gaps tokens ++ (between ++ gaps more) := by
  induction tokens with
  | nil => exact ⟨[], rfl⟩
  | cons t tokens ih =>
      cases tokens with
      | cons u tokens =>
          obtain ⟨between, split⟩ := ih
          exact ⟨between, congrArg ((t.trailing, u.leading) :: ·) split⟩
      | nil =>
          cases more with
          | nil => exact ⟨[], rfl⟩
          | cons u more => exact ⟨[(t.trailing, u.leading)], rfl⟩

theorem length_gaps (tokens : List Token) : (gaps tokens).length = tokens.length - 1 := by
  simp [gaps]

variable {n m : Nat} {tokens tokens' tokens'' more : List Token}

theorem Moved.trans (h : List.Forall₂ (Moved n) tokens tokens') (h' : List.Forall₂ (Moved m) tokens' tokens'') :
    List.Forall₂ (Moved (n + m)) tokens tokens'' := by
  induction h generalizing tokens'' with
  | nil =>
      cases h'
      exact .nil
  | cons here _ ih =>
      cases h' with
      | cons there others =>
          have start := there.start
          rw [here.start, Nat.add_assoc] at start
          exact .cons ⟨there.kind.trans here.kind, there.text.trans here.text, start⟩ (ih others)

namespace Alike

theorem symm (h : Alike 0 tokens tokens') : Alike 0 tokens' tokens :=
  ⟨h.moved.flip.imp fun _ _ moved => ⟨moved.kind.symm, moved.text.symm, moved.start.symm⟩, h.gaps.symm⟩

theorem trans (h : Alike n tokens tokens') (h' : Alike m tokens' tokens'') :
    Alike (n + m) tokens tokens'' :=
  ⟨Moved.trans h.moved h'.moved, h'.gaps.trans h.gaps⟩

theorem append (h : Alike n (tokens ++ more) tokens') :
    ∃ front behind, tokens' = front ++ behind ∧ Alike n tokens front ∧ Alike n more behind := by
  have front := List.forall₂_take tokens.length h.moved
  have behind := List.forall₂_drop tokens.length h.moved
  rw [List.take_left] at front
  rw [List.drop_left] at behind
  obtain ⟨between, split⟩ := gaps_append tokens more
  obtain ⟨between', split'⟩ := gaps_append (tokens'.take tokens.length) (tokens'.drop tokens.length)
  have same := h.gaps
  rw [← List.take_append_drop tokens.length tokens', split, split'] at same
  refine ⟨_, _, (List.take_append_drop tokens.length tokens').symm, ⟨front, ?_⟩, ⟨behind, ?_⟩⟩
  · exact (List.append_inj same (by rw [length_gaps, length_gaps, ← front.length_eq])).1
  · simp only [← List.append_assoc] at same
    exact (List.append_inj' same (by rw [length_gaps, length_gaps, ← behind.length_eq])).2

end Alike

end Token

structure Strand where
  blanks : Text
  excerpt : Text
  base : List Token
  blank : ∀ c ∈ blanks, Unicode.isBlank c = true
  isPassage : Passage excerpt base

namespace Strand

def text (s : Strand) : Text := s.blanks ++ s.excerpt

def textOf (strands : List Strand) : Text := (strands.map text).flatten

-- It begins with what continues no lexeme in front of it.
def Apart (s : Strand) : Prop := ∀ c ∈ s.text.head?, isBreak c = true

theorem apart_of_blanks {s : Strand} (some_ : s.blanks ≠ []) : s.Apart := by
  obtain ⟨c, more, text⟩ := List.exists_cons_of_ne_nil some_
  have blank := s.blank c (by simp [text])
  simpa [Apart, Strand.text, text] using isBreak_of_isBlank blank

theorem apart_of_excerpt {s : Strand} (ends : ∀ c ∈ s.excerpt.head?, isBreak c = true) : s.Apart := by
  by_cases bare : s.blanks = []
  · simpa [Apart, text, bare] using ends
  · exact apart_of_blanks bare

-- The tokens are those of the passages, one behind the other from an offset on.
inductive Strung : Nat → List Strand → List Token → Prop
  | nil {n : Nat} : Strung n [] []
  | cons {n : Nat} {s : Strand} {more : List Strand} {own tokens : List Token} :
      Token.Alike (n + s.blanks.byteLength) s.base own → Strung (n + s.text.byteLength) more tokens →
        Strung n (s :: more) (own ++ tokens)

theorem textOf_nil : textOf [] = [] := rfl

theorem textOf_cons (s : Strand) (more : List Strand) : textOf (s :: more) = s.text ++ textOf more := rfl

theorem byteLength_textOf_cons (s : Strand) (more : List Strand) :
    (textOf (s :: more)).byteLength = s.text.byteLength + (textOf more).byteLength :=
  Text.byteLength_append s.text (textOf more)

section Stretches

variable {strands : List Strand} (apart : ∀ s ∈ strands, s.Apart) {later : Text}
  (ends : ∀ c ∈ later.head?, isBreak c = true)
include apart ends

theorem isBreak_textOf : ∀ c ∈ (textOf strands ++ later).head?, isBreak c = true := by
  induction strands with
  | nil => exact ends
  | cons s more ih =>
      obtain ⟨here, others⟩ := List.forall_mem_cons.mp apart
      intro c mem
      rw [textOf_cons, List.append_assoc, List.head?_append, Option.mem_def, Option.or_eq_some_iff] at mem
      rcases mem with mem | ⟨-, mem⟩
      · exact here c mem
      · exact ih others c mem

theorem strung_text (offset : Nat) :
    ∃ own, Strung offset strands own ∧
      (ofTextAt (offset + Trivia.lengthOf (Trivia.scan .trailing (textOf strands ++ later)).1)
        (Trivia.scan .trailing (textOf strands ++ later)).2).tokens = own ++ (ofTextAt
          (offset + (textOf strands).byteLength + Trivia.lengthOf (Trivia.scan .trailing later).1)
          (Trivia.scan .trailing later).2).tokens := by
  induction strands generalizing offset with
  | nil => exact ⟨[], .nil, rfl⟩
  | cons s more ih =>
      obtain ⟨here, others⟩ := List.forall_mem_cons.mp apart
      have next := isBreak_textOf others ends
      have whole : textOf (s :: more) ++ later = s.blanks ++ (s.excerpt ++ (textOf more ++ later)) := by
        simp [textOf_cons, text]
      -- The token in front has some of the blanks, the first token of the passage the others.
      obtain ⟨pieces, left, scanned, length, blank⟩ :=
        Trivia.scan_trailing_blanks s.blank (s.isPassage.unled _ next)
      obtain ⟨own, alike, tokens⟩ :=
        s.isPassage.behind_blanks blank next (offset + Trivia.lengthOf pieces)
      obtain ⟨rest, strung, further⟩ := ih others (offset + s.text.byteLength)
      have start : offset + Trivia.lengthOf pieces + left.byteLength = offset + s.blanks.byteLength := by
        omega
      have stop : offset + s.blanks.byteLength + s.excerpt.byteLength = offset + s.text.byteLength := by
        rw [text, Text.byteLength_append, Nat.add_assoc]
      rw [start] at alike tokens
      refine ⟨own ++ rest, .cons alike strung, ?_⟩
      rw [whole, scanned, tokens, stop, further, byteLength_textOf_cons, List.append_assoc,
        Nat.add_assoc offset]

end Stretches

theorem Strung.uncons {n : Nat} {s : Strand} {more : List Strand} {tokens : List Token}
    (h : Strung n (s :: more) tokens) : ∃ own rest, tokens = own ++ rest ∧
      Token.Alike (n + s.blanks.byteLength) s.base own ∧ Strung (n + s.text.byteLength) more rest := by
  cases h with
  | cons alike strung => exact ⟨_, _, rfl, alike, strung⟩

theorem Strung.eq_nil {n : Nat} {tokens : List Token} (h : Strung n [] tokens) : tokens = [] := by
  cases h
  rfl

theorem Strung.moved {n m : Nat} {strands : List Strand} {tokens tokens' : List Token}
    (h : Strung n strands tokens) (moved : Token.Alike m tokens tokens') : Strung (n + m) strands tokens' := by
  induction h generalizing tokens' with
  | nil =>
      cases moved.moved
      exact .nil
  | cons alike _ ih =>
      obtain ⟨own, behind, rfl, here, further⟩ := moved.append
      have place := alike.trans here
      have rest := ih further
      rw [Nat.add_right_comm] at place rest
      exact .cons place rest

theorem Strung.last {n : Nat} {strands : List Strand} {tokens : List Token} (h : Strung n strands tokens)
    {s : Strand} (final : strands.getLast? = some s) :
    ∃ t t', s.base.getLast? = some t ∧ tokens.getLast? = some t' ∧ t'.kind = t.kind ∧
      t'.stop = n + (textOf strands).byteLength := by
  induction h with
  | nil => cases final
  | @cons n s' more own tokens alike behind ih =>
      cases more with
      | nil =>
          obtain rfl : s' = s := by simpa using final
          cases behind
          obtain ⟨t, t', last, last', moved⟩ := Token.Moved.last alike.moved s'.isPassage.some_
          have stop := s'.isPassage.stop t last
          refine ⟨t, t', last, by rw [List.append_nil, last'], moved.kind, ?_⟩
          rw [Token.stop] at stop ⊢
          simp only [moved.start, moved.text, byteLength_textOf_cons, text, Text.byteLength_append, textOf_nil,
            Text.byteLength_nil]
          omega
      | cons s'' more =>
          obtain ⟨t, t', last, last', kind, stop⟩ := ih (by simpa using final)
          refine ⟨t, t', last, ?_, kind, ?_⟩
          · rw [List.getLast?_append, last', Option.some_or]
          · rw [stop, byteLength_textOf_cons s', Nat.add_assoc]

theorem exists_passage {first : Strand} {strands : List Strand} {s : Strand} (bare : first.blanks = [])
    (apart : ∀ s ∈ strands, s.Apart) (final : (first :: strands).getLast? = some s)
    (closed : ∀ t ∈ s.base.getLast?, t.kind ≠ .stringLiteral) :
    ∃ base, Passage (textOf (first :: strands)) base ∧ Strung 0 (first :: strands) base := by
  have nothing : Trivia.scan .trailing [] = ([], []) := Trivia.scan_of_none rfl
  have stop : first.excerpt.byteLength = 0 + first.text.byteLength := by simp [text, bare]
  have ended : ∀ c ∈ ([] : Text).head?, isBreak c = true := by simp
  have ends := isBreak_textOf apart ended
  obtain ⟨own', strung, behind⟩ := strung_text apart ended first.excerpt.byteLength
  simp only [List.append_nil, nothing, ofTextAt_nil] at ends behind
  obtain ⟨own, alike, tokens⟩ := first.isPassage.again 0 _ ends
  have strung : Strung 0 (first :: strands) (own ++ own') := .cons (by simpa [bare] using alike) (stop ▸ strung)
  have whole : (ofText (textOf (first :: strands))).tokens = own ++ own' := by
    rw [textOf_cons, text, bare, List.nil_append, ofText, tokens, Nat.zero_add, behind]
  obtain ⟨t, t', head, head', moved⟩ := Token.Moved.head alike.moved first.isPassage.some_
  obtain ⟨u, u', last, last', kind, stop'⟩ := strung.last final
  have begins : (ofText (textOf (first :: strands))).tokens.head? = some t' := by
    rw [whole, List.head?_append, head', Option.some_or]
  have start : t'.start = 0 := by rw [moved.start, first.isPassage.start t head]
  obtain ⟨base, isPassage, again⟩ := exists_passage_of_ends begins start (by rw [whole, last'])
    (by rw [stop', Nat.zero_add]) (kind ▸ closed u last)
  exact ⟨base, isPassage, strung.moved (whole ▸ again.symm)⟩

end Strand

structure IsWord (w : Text) (k : Kind) : Prop where
  isPassage : Passage w (ofText w).tokens
  kinds : (ofText w).tokens.map Token.kind = [k]

namespace IsWord

variable {w : Text} {k : Kind} (h : IsWord w k)

def strand (blanks : Text) (blank : ∀ c ∈ blanks, Unicode.isBlank c = true) : Strand :=
  ⟨blanks, w, (ofText w).tokens, blank, h.isPassage⟩

include h

theorem exists_token {n : Nat} {own : List Token} (alike : Token.Alike n (ofText w).tokens own) :
    ∃ t, own = [t] ∧ t.kind = k :=
  List.map_eq_singleton_iff.mp ((Token.Moved.map_kind alike.moved).trans h.kinds)

theorem last (t : Token) (mem : t ∈ (ofText w).tokens.getLast?) : t.kind = k := by
  have kind := List.mem_map_of_mem (f := Token.kind) (List.mem_of_mem_getLast? mem)
  rw [h.kinds] at kind
  exact List.mem_singleton.mp kind

end IsWord

end LosslessTree
