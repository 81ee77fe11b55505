import Mathlib.Tactic.SplitIfs
import LosslessTree.Proofs.Token.Placing
import LosslessTree.Proofs.Token.Truncating

set_option autoImplicit false

namespace LosslessTree

open Lexeme

variable {side : Side} {t b r rest : Text}

namespace Trivia

theorem takeWhile_replace {p : Char → Bool} (short : ((t ++ b).takeWhile p).length < t.length) :
    (t ++ r).takeWhile p = (t ++ b).takeWhile p := by
  have own := takeWhile_within (Nat.le_of_lt short)
  have some_ : ¬(t.takeWhile p).length = t.length := by
    rw [own]
    omega
  rw [List.takeWhile_append, if_neg some_, own]

def breakOf (n : Nat) : Side → Option (TriviaKind × Nat)
  | .leading => some (.newline, n)
  | .trailing => none

theorem measure_cons_cons (c d : Char) (rest : Text) : measure side (c :: d :: rest) =
    if c = '\n' then breakOf 1 side
    else if c = '\r' ∧ d = '\n' then breakOf 2 side
    else if c = '/' ∧ d = '/' then some (.comment, 2 + (rest.takeWhile fun c => !endsComment c).length)
    else if Unicode.isBlank c then some (.whitespace, max 1 ((c :: d :: rest).takeWhile isInline).length)
    else none := by
  by_cases line : c = '\n'
  · subst line
    cases side <;> rfl
  by_cases return_ : c = '\r' ∧ d = '\n'
  · obtain ⟨rfl, rfl⟩ := return_
    cases side <;> rfl
  by_cases slashes : c = '/' ∧ d = '/'
  · obtain ⟨rfl, rfl⟩ := slashes
    rfl
  rw [if_neg line, if_neg return_, if_neg slashes]
  unfold measure
  split
  · next ended => cases ended
  · next same =>
      cases same
      exact absurd rfl line
  · next same =>
      cases same
      exact absurd ⟨rfl, rfl⟩ return_
  · next same =>
      cases same
      exact absurd ⟨rfl, rfl⟩ slashes
  · next same =>
      cases same
      rfl

theorem measure_replace {k : TriviaKind} {n : Nat} (found : measure side (t ++ b) = some (k, n))
    (short : n < t.length) : measure side (t ++ r) = some (k, n) := by
  have pos := (measure_pos found).2
  match t with
  | [] | [c] =>
      simp only [List.length_singleton, List.length_nil] at short
      omega
  | c :: d :: t =>
      simp only [List.cons_append, measure_cons_cons, List.length_cons] at found short ⊢
      split_ifs at found ⊢ with line return_ slashes blank
      · exact found
      · exact found
      · rw [Option.some.injEq, Prod.mk.injEq] at found
        have same := takeWhile_replace (p := fun c => !endsComment c) (t := t) (b := b) (r := r) (by omega)
        rw [same, found.1, found.2]
      · rw [Option.some.injEq, Prod.mk.injEq] at found
        have same := takeWhile_replace (p := isInline) (t := c :: d :: t) (b := b) (r := r)
          (by simp only [List.cons_append, List.length_cons]; omega)
        simp only [List.cons_append] at same
        rw [same, found.1, found.2]

def Dark (t : Text) : Prop := ∃ c ∈ t, Unicode.isBlank c = false

theorem measure_none_replace (none : measure side (t ++ b) = none) (dark : Dark t)
    (ends : ∀ c ∈ r.head?, isBreak c = true) : measure side (t ++ r) = .none := by
  match t with
  | [] =>
      obtain ⟨c, mem, -⟩ := dark
      cases mem
  | [c] =>
      have dark : Unicode.isBlank c = false := by simpa [Dark] using dark
      have line : c ≠ '\n' := by
        rintro rfl
        exact absurd dark (by decide)
      have return_ : c ≠ '\r' := by
        rintro rfl
        exact absurd dark (by decide)
      cases r with
      | nil => simp [measure, dark]
      | cons d r =>
          have slash : d ≠ '/' := ne_break (ends d rfl) (by decide +kernel)
          simp [measure_cons_cons, line, return_, slash, dark]
  | c :: d :: t =>
      simp only [List.cons_append, measure_cons_cons] at none ⊢
      split_ifs at none ⊢ with line return_ slashes blank
      · exact none
      · exact none
      · rfl

theorem scan_of_none (none : measure side t = none) : scan side t = ([], t) := by
  rw [scan]
  split
  · rfl
  · next found =>
      rw [none] at found
      cases found

theorem scan_of_some {k : TriviaKind} {n : Nat} (found : measure side t = some (k, n)) :
    scan side t = (⟨k, t.take n⟩ :: (scan side (t.drop n)).1, (scan side (t.drop n)).2) := by
  rw [scan]
  split
  · next none =>
      rw [found] at none
      cases none
  · next found' =>
      rw [found] at found'
      cases found'
      rfl

theorem measure_scan (side : Side) (t : Text) : measure side (scan side t).2 = none := by
  fun_induction scan side t with
  | case1 t none => exact none
  | case2 t k n found more ih => exact ih

theorem isBlank_of_measure {c : Char} (none : measure .leading (c :: t) = none) :
    Unicode.isBlank c = false := by
  unfold measure at none
  split at none
  · next ended => cases ended
  · cases none
  · cases none
  · cases none
  · next same =>
      cases same
      split at none
      · cases none
      · next dark => exact Bool.eq_false_iff.mpr dark

-- A line break stands in front of a token only.
theorem measure_side (none : measure .leading t = none) (side : Side) : measure side t = .none := by
  cases side with
  | leading => exact none
  | trailing =>
      unfold measure at none ⊢
      split at none <;> simp_all

theorem scan_blank (none : measure .leading t = none) :
    scan .trailing (' ' :: t) = ([⟨.whitespace, [' ']⟩], t) := by
  have blank : Unicode.isBlank ' ' = true := by decide +kernel
  have dark : t.takeWhile isInline = [] := by
    cases t with
    | nil => rfl
    | cons c t => simp [isInline, isBlank_of_measure none]
  have found : measure .trailing (' ' :: t) = some (.whitespace, 1) := by
    simp [measure, blank, dark, isInline]
  rw [scan_of_some found, List.drop_one, List.tail_cons, scan_of_none (measure_side none .trailing)]
  rfl

theorem scan_replace {pieces : List Trivia} (scanned : scan side (t ++ b) = (pieces, rest ++ b))
    (dark : Dark rest) (ends : ∀ c ∈ r.head?, isBreak c = true) :
    scan side (t ++ r) = (pieces, rest ++ r) := by
  induction size : t.length using Nat.strongRecOn generalizing t pieces with
  | ind size ih =>
      cases found : measure side (t ++ b) with
      | none =>
          rw [scan_of_none found, Prod.mk.injEq] at scanned
          obtain ⟨rfl, same⟩ := scanned
          obtain rfl := List.append_cancel_right same
          exact scan_of_none (measure_none_replace found dark ends)
      | some entry =>
          obtain ⟨k, n⟩ := entry
          rw [scan_of_some found, Prod.mk.injEq] at scanned
          obtain ⟨rfl, left⟩ := scanned
          -- The trivia ends in front of what is dark.
          have short : n < t.length := by
            have shorter := scan_length side ((t ++ b).drop n)
            obtain ⟨c, mem, -⟩ := dark
            have some_ := List.length_pos_of_mem mem
            simp only [left, List.length_append, List.length_drop] at shorter
            omega
          have pos := (measure_pos found).2
          have split (more : Text) : (t ++ more).drop n = t.drop n ++ more :=
            List.drop_append_of_le_length (Nat.le_of_lt short)
          have further := ih (t.drop n).length (by rw [List.length_drop]; omega) (t := t.drop n)
            (by rw [← split, ← left]) rfl
          rw [scan_of_some (measure_replace found short), split, further, split,
            List.take_append_of_le_length (Nat.le_of_lt short),
            List.take_append_of_le_length (Nat.le_of_lt short)]

end Trivia

-- A token that is read at the head of a text, the text behind its lexeme and that behind its
-- trivia.
structure Token.Reads (offset : Nat) (t : Text) (token : Token) (after rest : Text) : Prop where
  leading : Trivia.scan .leading t = (token.leading, token.text ++ after)
  lexeme : measure (token.text ++ after) = some (token.kind, token.text.length)
  trailing : Trivia.scan .trailing after = (token.trailing, rest)
  start : token.start = offset + Trivia.lengthOf token.leading

namespace Token

variable {offset : Nat} {token : Token} {after : Text}

theorem reads_of_scan (more : (scan offset t).1.kind ≠ .eof) :
    ∃ after, Reads offset t (scan offset t).1 after (scan offset t).2 := by
  have start := scan_start offset t
  simp only [scan] at more start ⊢
  split at more
  · exact absurd rfl more
  · next k n found =>
      have within := measure_le found
      refine ⟨(Trivia.scan .leading t).2.drop n, ?_, ?_, rfl, rfl⟩
      · rw [List.take_append_drop]
      · rw [List.take_append_drop, found, List.length_take, Nat.min_eq_left within]

theorem Reads.scan (h : Reads offset t token after rest) : scan offset t = (token, rest) := by
  rw [Token.scan, h.leading]
  simp only [h.lexeme, List.drop_left, List.take_left, h.trailing]
  rw [← h.start]

theorem Reads.text (h : Reads offset t token after rest) :
    t = Trivia.textOf token.leading ++ (token.text ++ after) := by
  have whole := Trivia.scan_text .leading t
  rw [h.leading] at whole
  exact whole.symm

theorem Reads.after_eq (h : Reads offset t token after rest) :
    after = Trivia.textOf token.trailing ++ rest := by
  have whole := Trivia.scan_text .trailing after
  rw [h.trailing] at whole
  exact whole.symm

theorem Reads.stop (h : Reads offset t token after rest) :
    token.fullSpan.stop = offset + token.fullText.byteLength := by
  simp only [fullSpan, Token.stop, h.start, fullText, Text.byteLength_append, Trivia.byteLength_textOf]
  omega

theorem Reads.head (h : Reads offset t token after rest) :
    ∃ c more, token.text = c :: more ∧ Unicode.isBlank c = false := by
  have none := Trivia.measure_scan .leading t
  rw [h.leading] at none
  obtain ⟨-, pos⟩ := measure_pos h.lexeme
  cases text : token.text with
  | nil =>
      rw [text] at pos
      cases pos
  | cons c more =>
      rw [text, List.cons_append] at none
      exact ⟨c, more, rfl, Trivia.isBlank_of_measure none⟩

theorem Reads.dark (h : Reads offset t token after rest) (more : Text) :
    Trivia.Dark (token.text ++ more) := by
  obtain ⟨c, chars, text, dark⟩ := h.head
  exact ⟨c, by simp [text], dark⟩

-- The three parts are the text from the token on, from behind its lexeme on and from behind its trivia on.
theorem Reads.replace_within {part behind further : Text}
    (h : Reads offset (part ++ b) token (behind ++ b) (further ++ b)) (dark : Trivia.Dark further)
    (ends : ∀ c ∈ r.head?, isBreak c = true) :
    Reads offset (part ++ r) token (behind ++ r) (further ++ r) := by
  have between : behind = Trivia.textOf token.trailing ++ further := by
    have whole := h.after_eq
    rw [← List.append_assoc] at whole
    exact List.append_cancel_right whole
  have short : token.text.length < (token.text ++ behind).length := by
    obtain ⟨c, mem, -⟩ := dark
    have some_ := List.length_pos_of_mem mem
    simp only [between, List.length_append]
    omega
  have leading := h.leading
  have lexeme := h.lexeme
  rw [← List.append_assoc] at leading lexeme
  refine ⟨?_, ?_, Trivia.scan_replace h.trailing dark ends, h.start⟩
  · rw [← List.append_assoc]
    exact Trivia.scan_replace leading (h.dark behind) ends
  · rw [← List.append_assoc]
    exact measure_replace lexeme (Nat.le_of_lt short) (fun _ => .inl short) ends

theorem Reads.replace_behind (h : Reads offset t token b rest)
    (closed : token.kind = .stringLiteral → b ≠ []) (ends : ∀ c ∈ r.head?, isBreak c = true) :
    Reads offset (Trivia.textOf token.leading ++ token.text ++ r)
      { token with trailing := (Trivia.scan .trailing r).1 } r (Trivia.scan .trailing r).2 := by
  have leading := h.leading
  rw [h.text, ← List.append_assoc] at leading
  have dark : Trivia.Dark token.text := List.append_nil token.text ▸ h.dark []
  exact ⟨Trivia.scan_replace leading dark ends,
    measure_replace h.lexeme (Nat.le_refl _) (fun string => .inr (closed string)) ends, rfl, h.start⟩

end Token

end LosslessTree
