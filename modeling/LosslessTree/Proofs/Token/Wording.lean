import LosslessTree.Proofs.Token.Joining
import LosslessTree.Text.Trim

set_option autoImplicit false

namespace LosslessTree

namespace Lexeme

def kindOf (t : Text) : Kind := ((measure t).map Prod.fst).getD .unknown

-- The text is one lexeme, and is not a string that is still open.
def isWord (t : Text) : Bool :=
  measure t == some (kindOf t, t.length) && kindOf t != .unknown &&
    (kindOf t != .stringLiteral || closes t.tail)

section Word

variable {w : Text} (word : isWord w = true)
include word

theorem measure_word : measure w = some (kindOf w, w.length) := by
  simp only [isWord, Bool.and_eq_true, beq_iff_eq] at word
  exact word.1.1

theorem kindOf_word : kindOf w ≠ .unknown := by
  simp only [isWord, Bool.and_eq_true, bne_iff_ne] at word
  exact word.1.2

theorem closes_word (string : kindOf w = .stringLiteral) : closes w.tail = true := by
  simp only [isWord, string, bne_self_eq_false, Bool.false_or, Bool.and_eq_true] at word
  exact word.2

theorem word_ne_nil : w ≠ [] := (measure_pos (measure_word word)).1

end Word

theorem measure_blank {c : Char} (blank : Unicode.isBlank c = true) (rest : Text) :
    measure (c :: rest) = some (.unknown, 1) := by
  have mem := mem_blanks blank
  have heads : (blanks.all fun d => fixed.all fun entry => entry.1.head? != some d) = true := by
    decide +kernel
  have starts : (blanks.all fun d => !(d == '"' || isDigit d || isIdentStart d)) = true := by
    decide +kernel
  have none : fixed? (c :: rest) = none := by
    rw [fixed?, Option.map_eq_none_iff, List.find?_eq_none]
    rintro ⟨spelling, k⟩ inside prefix_
    have pos := fixed_pos _ inside
    have other := List.all_eq_true.mp (List.all_eq_true.mp heads c mem) _ inside
    cases spelling with
    | nil => cases pos
    | cons d spelling => simp_all [List.isPrefixOf]
  have plain := List.all_eq_true.mp starts c mem
  simp only [Bool.not_eq_true', Bool.or_eq_false_iff] at plain
  simp [measure, none, free, plain.1.1, plain.1.2, plain.2]

theorem closes_concat {c : Char} (other : c ≠ '"') (t : Text) : closes (t ++ [c]) = closes t := by
  fun_induction closes t with
  | case1 =>
      by_cases escape : c = '\\'
      · simp [escape, closes]
      · simp [closes, escape]
  | case2 => rfl
  | case3 => simp [closes]
  | case4 d t ih => simpa [closes] using ih
  | case5 d t quote last escape ih =>
      have plain := ne_backslash last escape
      simpa [closes, plain] using ih

theorem head_word {w : Text} (word : isWord w = true) : ∀ c ∈ w.head?, Unicode.isBlank c = false := by
  intro c mem
  cases blank : Unicode.isBlank c with
  | false => rfl
  | true =>
      obtain ⟨rest, rfl⟩ := List.head?_eq_some_iff.mp mem
      have found := (measure_blank blank rest).symm.trans (measure_word word)
      exact absurd (Prod.mk.inj (Option.some.inj found)).1.symm (kindOf_word word)

theorem last_of_measure {w : Text} {k : Kind} (whole : measure w = some (k, w.length))
    (closed : k = .stringLiteral → closes w.tail = true)
    (head : ∀ c ∈ w.head?, Unicode.isBlank c = false) : ∀ c ∈ w.getLast?, Unicode.isBlank c = false := by
  intro c mem
  cases blank : Unicode.isBlank c with
  | false => rfl
  | true =>
      exfalso
      obtain ⟨front, rfl⟩ := List.getLast?_eq_some_iff.mp mem
      cases found : measure front with
      | none =>
          obtain rfl := (measure_eq_none_iff front).mp found
          exact absurd (head c rfl) (by simp [blank])
      | some entry =>
          obtain ⟨k', n⟩ := entry
          have inside := measure_le found
          -- Without the blank the lexeme would be the same.
          have closed' : k' = .stringLiteral → closes front.tail = true := by
            rintro rfl
            obtain ⟨rest, rfl, rfl⟩ := quote_of_measure found
            have string : k = .stringLiteral := by
              have same := (measure_quote (rest ++ [c])).symm.trans whole
              exact (Prod.mk.inj (Option.some.inj same)).1.symm
            have ended := closed string
            have other : c ≠ '"' := by
              rintro rfl
              revert blank
              decide
            rwa [List.cons_append, List.tail_cons, closes_concat other] at ended
          have same := measure_break (isBreak_of_isBlank blank) found closed' []
          rw [whole, Option.some.injEq, Prod.mk.injEq, List.length_append] at same
          have length := same.2
          simp only [List.length_singleton] at length
          omega

theorem last_word {w : Text} (word : isWord w = true) :
    ∀ c ∈ w.getLast?, Unicode.isBlank c = false :=
  last_of_measure (measure_word word) (closes_word word) (head_word word)

end Lexeme

namespace Cut

open Lexeme

theorem skip_word {w : Text} (word : isWord w = true) {rest : Text}
    (behind : ∀ c ∈ rest.head?, isBreak c = true) : Trivia.skip (w ++ rest) = w ++ rest := by
  obtain ⟨c, w, rfl⟩ := List.exists_cons_of_ne_nil (word_ne_nil word)
  have dark := head_word word c rfl
  rw [List.cons_append, Trivia.skip, if_neg (by simp [dark])]
  rintro more rfl comment
  cases w with
  | nil =>
      rw [List.nil_append] at comment
      subst comment
      exact absurd (behind '/' rfl) (by decide)
  | cons d w =>
      cases comment
      have found := measure_word word
      have short : measure ('/' :: '/' :: w) = some (.binaryOperator, 1) := rfl
      rw [short, Option.some.injEq, Prod.mk.injEq] at found
      simp at found

theorem all_word {w : Text} (word : isWord w = true) {rest : Text}
    (behind : ∀ c ∈ rest.head?, isBreak c = true) :
    all (w ++ rest) = ⟨kindOf w, w, w.byteLength + rest.byteLength⟩ :: all rest := by
  have kept := skip_word word behind
  have found : measure (w ++ rest) = some (kindOf w, w.length) := by
    cases rest with
    | nil => rw [List.append_nil, measure_word word]
    | cons c rest => exact measure_break (behind c rfl) (measure_word word) (closes_word word) rest
  rw [← kept] at found
  rw [all_of_some found, kept, List.take_left, List.drop_left, Text.byteLength_append]

theorem all_blank (rest : Text) : all (' ' :: rest) = all rest :=
  all_congr (Trivia.skip_blank (by decide) rest)

end Cut

def Text.spaced (words : List Text) : Text := List.intercalate [' '] words

open Lexeme

theorem Text.spaced_cons {words : List Text} (more : words ≠ []) (w : Text) :
    spaced (w :: words) = w ++ ' ' :: spaced words := by
  obtain ⟨w', words, rfl⟩ := List.exists_cons_of_ne_nil more
  rw [spaced, List.intercalate_cons_cons, List.append_assoc]
  rfl

theorem Text.trimStart_of_head {t : Text} (dark : ∀ c ∈ t.head?, Unicode.isBlank c = false) :
    t.trimStart = t := by
  cases t with
  | nil => rfl
  | cons c t => exact List.dropWhile_cons_of_neg (by simp [dark c rfl])

theorem Text.trim_of_ends {t : Text} (head : ∀ c ∈ t.head?, Unicode.isBlank c = false)
    (last : ∀ c ∈ t.getLast?, Unicode.isBlank c = false) : t.trim = t := by
  have reversed : trimStart t.reverse = t.reverse := by
    refine trimStart_of_head ?_
    rwa [List.head?_reverse]
  rw [trim, trimStart_of_head head, trimEnd, reversed, List.reverse_reverse]

def Cut.ofWords (behind : Nat) : List Text → List Cut
  | [] => []
  | w :: words =>
      ⟨kindOf w, w, (Text.spaced (w :: words)).byteLength + behind⟩ :: ofWords behind words

section Words

variable {words : List Text} (each : ∀ w ∈ words, isWord w = true)
include each

theorem Cut.all_spaced {rest : Text} (behind : ∀ c ∈ rest.head?, isBreak c = true) :
    all (Text.spaced words ++ rest) = ofWords rest.byteLength words ++ all rest := by
  induction words with
  | nil => rfl
  | cons w words ih =>
      obtain ⟨word, each⟩ := List.forall_mem_cons.mp each
      cases words with
      | nil =>
          have alone : Text.spaced [w] = w := List.intercalate_singleton
          rw [alone, all_word word behind, ofWords, alone]
          rfl
      | cons w' words =>
          have gap : isBreak ' ' = true := isBreak_of_isBlank (by decide)
          rw [ofWords, Text.spaced_cons (List.cons_ne_nil _ _), List.append_assoc, List.cons_append,
            all_word word (by simp [gap]), all_blank, ih each]
          simp [Nat.add_assoc]

theorem Text.head_spaced : ∀ c ∈ (spaced words).head?, Unicode.isBlank c = false := by
  cases words with
  | nil => simp [spaced]
  | cons w words =>
      obtain ⟨word, -⟩ := List.forall_mem_cons.mp each
      have some_ := word_ne_nil word
      cases words with
      | nil => simpa [spaced] using head_word word
      | cons w' words =>
          rw [spaced_cons (List.cons_ne_nil _ _), List.head?_append_of_ne_nil _ some_]
          exact head_word word

theorem Text.spaced_ne_nil (some_ : words ≠ []) : spaced words ≠ [] := by
  obtain ⟨w, words, rfl⟩ := List.exists_cons_of_ne_nil some_
  have first := word_ne_nil (each w List.mem_cons_self)
  cases words with
  | nil => simpa [spaced] using first
  | cons w' words =>
      rw [spaced_cons (List.cons_ne_nil _ _)]
      exact List.append_ne_nil_of_left_ne_nil first _

theorem Text.last_spaced : ∀ c ∈ (spaced words).getLast?, Unicode.isBlank c = false := by
  induction words with
  | nil => simp [spaced]
  | cons w words ih =>
      obtain ⟨word, each⟩ := List.forall_mem_cons.mp each
      cases words with
      | nil => simpa [spaced] using last_word word
      | cons w' words =>
          have some_ := spaced_ne_nil each (List.cons_ne_nil w' words)
          rw [spaced_cons (List.cons_ne_nil _ _), List.append_cons,
            List.getLast?_append_of_ne_nil _ some_]
          exact ih each

theorem Text.trim_spaced : (spaced words).trim = spaced words :=
  trim_of_ends (head_spaced each) (last_spaced each)

end Words

end LosslessTree
