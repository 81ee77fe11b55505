import LosslessTree.Proofs.Token.Wording

set_option autoImplicit false

namespace LosslessTree.Lexeme

variable {t b : Text}

theorem takeWhile_within {p : Char → Bool} (within : ((t ++ b).takeWhile p).length ≤ t.length) :
    t.takeWhile p = (t ++ b).takeWhile p := by
  rw [List.takeWhile_append] at within ⊢
  split at within
  · next all =>
      rw [List.length_append] at within
      have none : b.takeWhile p = [] := List.length_eq_zero_iff.mp (by omega)
      rw [if_pos all, none, List.append_nil]
      exact (List.takeWhile_prefix p).eq_of_length all
  · next some_ => rw [if_neg some_]

theorem isPrefixOf_within {spelling : Text} (within : spelling.length ≤ t.length) :
    spelling.isPrefixOf t = spelling.isPrefixOf (t ++ b) := by
  rw [Bool.eq_iff_iff, List.isPrefixOf_iff_prefix, List.isPrefixOf_iff_prefix]
  constructor
  · exact fun starts => starts.trans (List.prefix_append _ _)
  · exact fun starts => List.prefix_of_prefix_length_le starts (List.prefix_append _ _) within

theorem fixed?_none_within (none : fixed? (t ++ b) = none) : fixed? t = .none := by
  simp only [fixed?, Option.map_eq_none_iff, List.find?_eq_none, List.isPrefixOf_iff_prefix] at none ⊢
  exact fun entry mem starts => none entry mem (starts.trans (List.prefix_append _ _))

theorem fixed?_within {k : Kind} {n : Nat} (found : fixed? (t ++ b) = some (k, n))
    (within : n ≤ t.length) : fixed? t = some (k, n) := by
  simp only [fixed?, Option.map_eq_some_iff, Prod.mk.injEq] at found ⊢
  obtain ⟨entry, first, rfl, rfl⟩ := found
  refine ⟨entry, ?_, rfl, rfl⟩
  obtain ⟨starts, before, after, split, others⟩ := List.find?_eq_some_iff_append.mp first
  refine List.find?_eq_some_iff_append.mpr ⟨?_, before, after, split, fun other mem => ?_⟩
  · rwa [isPrefixOf_within within]
  · have out := others other mem
    simp only [Bool.not_eq_true', ← Bool.not_eq_true, List.isPrefixOf_iff_prefix] at out ⊢
    exact fun starts' => out (starts'.trans (List.prefix_append _ _))

theorem decimalLength_within (within : decimalLength (t ++ b) ≤ t.length) :
    decimalLength t = decimalLength (t ++ b) :=
  congrArg List.length (takeWhile_within within)

theorem wholeLength_within {first : Char} (within : wholeLength first (t ++ b) ≤ t.length) :
    wholeLength first t = wholeLength first (t ++ b) := by
  cases t with
  | nil => exact (Nat.le_zero.mp within).symm
  | cons base more =>
      simp only [List.cons_append, wholeLength, List.length_cons] at within ⊢
      split at within
      · next binary =>
          have digits := decimalLength_within (t := more) (b := b) (by omega)
          rw [if_pos binary, if_pos binary, digits]
      · next decimal =>
          rw [if_neg decimal, if_neg decimal]
          split at within
          · next hex =>
              have digits := takeWhile_within (p := isHex) (t := more) (b := b) (by omega)
              rw [if_pos hex, if_pos hex, digits]
          · next other =>
              rw [if_neg other, if_neg other]
              exact decimalLength_within (t := base :: more) within

theorem exponentLength_within (within : exponentLength (t ++ b) ≤ t.length) :
    exponentLength t = exponentLength (t ++ b) := by
  match t with
  | [] => exact (Nat.le_zero.mp within).symm
  | [e] =>
      simp only [List.cons_append, List.nil_append, exponentLength, List.length_singleton] at within ⊢
      split
      · next marks =>
          rw [if_pos marks] at within
          split at within
          · omega
          · omega
          · have none : decimalLength b = 0 := by omega
            rw [none]
            rfl
      · rfl
  | e :: sign :: more =>
      have digits := decimalLength_within (t := more) (b := b)
      have all := decimalLength_within (t := sign :: more) (b := b)
      simp only [List.cons_append, List.length_cons] at within all ⊢
      by_cases marks : (e == 'e' || e == 'E') = true
      · by_cases signed : sign = '+' ∨ sign = '-'
        · have step (rest : Text) : exponentLength (e :: sign :: rest) = 2 + decimalLength rest := by
            rcases signed with rfl | rfl <;> simp only [exponentLength, marks, if_true]
          rw [step] at within
          rw [step, step, digits (by omega)]
        · have step (rest : Text) :
              exponentLength (e :: sign :: rest) = 1 + decimalLength (sign :: rest) := by
            rw [not_or] at signed
            simp [exponentLength, marks, signed]
          rw [step] at within
          rw [step, step, all (by omega)]
      · simp [exponentLength, marks]

theorem fractionLength_point_within {d : Char} {more : Text}
    (within : fractionLength ('.' :: d :: (more ++ b)) ≤ more.length + 2) :
    fractionLength ('.' :: d :: more) = fractionLength ('.' :: d :: (more ++ b)) := by
  simp only [fractionLength] at within ⊢
  split
  · next digit =>
      rw [if_pos digit] at within
      have digits := decimalLength_within (t := d :: more) (b := b)
        (by simp only [List.cons_append, List.length_cons]; omega)
      rw [List.cons_append] at digits
      have left : (d :: (more ++ b)).drop (decimalLength (d :: more)) =
          (d :: more).drop (decimalLength (d :: more)) ++ b :=
        List.drop_append_of_le_length (decimalLength_le _)
      rw [← digits, left] at within ⊢
      rw [exponentLength_within]
      have := decimalLength_le (d :: more)
      simp only [List.length_drop, List.length_cons] at this ⊢
      omega
  · rfl

theorem fractionLength_within (within : fractionLength (t ++ b) ≤ t.length) :
    fractionLength t = fractionLength (t ++ b) := by
  cases t with
  | nil => exact (Nat.le_zero.mp within).symm
  | cons e more =>
      by_cases point : e = '.'
      · subst point
        cases more with
        | cons d more => exact fractionLength_point_within within
        | nil =>
            -- A point with a digit behind it does not end there.
            cases b with
            | nil => rfl
            | cons d rest =>
                simp only [List.cons_append, List.nil_append, fractionLength, List.length_singleton] at within ⊢
                split
                · next digit =>
                    rw [if_pos digit] at within
                    have some_ : 0 < decimalLength (d :: rest) := by
                      simp [decimalLength, isDecimal, digit]
                    omega
                · rfl
      · have exponent := exponentLength_within (t := e :: more) (b := b)
        simp only [List.cons_append] at exponent within ⊢
        simpa [fractionLength, point] using exponent (by simpa [fractionLength, point] using within)

theorem number_within {first : Char} (within : (number first (t ++ b)).2 ≤ t.length + 1) :
    number first t = number first (t ++ b) := by
  have whole : wholeLength first t = wholeLength first (t ++ b) := by
    refine wholeLength_within ?_
    simp only [number] at within
    split at within <;> simp only at within <;> omega
  have le := wholeLength_le first t
  have left : (t ++ b).drop (wholeLength first t) = t.drop (wholeLength first t) ++ b :=
    List.drop_append_of_le_length le
  have fraction : fractionLength (t.drop (wholeLength first t)) =
      fractionLength (t.drop (wholeLength first t) ++ b) := by
    refine fractionLength_within ?_
    rw [List.length_drop]
    simp only [number, ← whole, left] at within
    split at within <;> simp only at within <;> omega
  rw [number, number, ← whole, left, fraction]

theorem stringLength_within (within : stringLength (t ++ b) ≤ t.length) :
    stringLength t = stringLength (t ++ b) := by
  fun_induction closes t with
  | case1 => exact (Nat.le_zero.mp within).symm
  | case2 => rfl
  | case3 =>
      cases b with
      | nil => rfl
      | cons c rest =>
          simp only [List.cons_append, List.nil_append, stringLength, List.length_singleton] at within
          omega
  | case4 d t ih =>
      simp only [List.cons_append, stringLength, List.length_cons] at within ⊢
      rw [ih (by omega)]
  | case5 d t quote last escape ih =>
      have plain := ne_backslash last escape
      simp only [List.cons_append, List.length_cons] at within ⊢
      have step (rest : Text) : stringLength (d :: rest) = 1 + stringLength rest := by
        simp [stringLength, plain]
      rw [step, step] at *
      rw [ih (by omega)]

theorem stringLength_pos (some_ : t ≠ []) : 0 < stringLength t := by
  fun_cases stringLength t
  · exact absurd rfl some_
  all_goals omega

theorem closes_ne_nil (closed : closes t = true) : t ≠ [] := by
  rintro rfl
  cases closed

theorem closes_within (closed : closes (t ++ b) = true)
    (within : stringLength (t ++ b) ≤ t.length) : closes t = true := by
  fun_induction closes t with
  | case1 =>
      rw [List.nil_append] at closed within
      have pos := stringLength_pos (closes_ne_nil closed)
      exact absurd within (Nat.not_le.mpr pos)
  | case2 => rfl
  | case3 =>
      cases b with
      | nil => cases closed
      | cons c rest =>
          simp only [List.cons_append, List.nil_append, stringLength, List.length_singleton] at within
          omega
  | case4 d t ih =>
      simp only [List.cons_append, stringLength, closes, List.length_cons] at closed within ⊢
      exact ih closed (by omega)
  | case5 d t quote last escape ih =>
      have plain := ne_backslash last escape
      have step : stringLength (d :: (t ++ b)) = 1 + stringLength (t ++ b) := by
        simp [stringLength, plain]
      have shut : closes (d :: (t ++ b)) = closes (t ++ b) := by
        simp [closes, plain]
      rw [List.cons_append, shut] at closed
      rw [List.cons_append, step, List.length_cons] at within
      exact ih closed (by omega)

theorem free_within {first : Char} (within : (free first (t ++ b)).2 ≤ t.length + 1) :
    free first t = free first (t ++ b) := by
  unfold free at within ⊢
  split
  · next quote =>
      rw [if_pos quote] at within
      have inside := stringLength_within (t := t) (b := b) (by simp only at within; omega)
      rw [inside]
  · next plain =>
      rw [if_neg plain] at within
      split
      · next digit =>
          rw [if_pos digit] at within
          exact number_within within
      · next other =>
          rw [if_neg other] at within
          split
          · next starts =>
              rw [if_pos starts] at within
              rw [word, word, takeWhile_within]
              simpa [word] using within
          · rfl

theorem measure_within {k : Kind} {n : Nat} (found : measure (t ++ b) = some (k, n))
    (within : n ≤ t.length) : measure t = some (k, n) := by
  cases t with
  | nil => exact absurd (measure_pos found).2 (Nat.not_lt.mpr within)
  | cons first more =>
      simp only [List.cons_append, measure, Option.some.injEq] at found ⊢
      cases spelled : fixed? (first :: (more ++ b)) with
      | some entry =>
          obtain ⟨k', n'⟩ := entry
          rw [spelled, Option.getD_some] at found
          cases found
          rw [fixed?_within (t := first :: more) spelled within, Option.getD_some]
      | none =>
          rw [spelled, Option.getD_none] at found
          have none := fixed?_none_within (t := first :: more) spelled
          rw [none, Option.getD_none, ← found]
          exact free_within (by rw [found]; exact within)

theorem closes_of_more {n : Nat} (found : measure (t ++ b) = some (.stringLiteral, n))
    (within : n ≤ t.length) (more : n < t.length ∨ b ≠ []) : closes t.tail = true := by
  have own := measure_within found within
  rcases more with short | more
  · exact closes_of_measure own short
  · obtain ⟨rest, rfl, rfl⟩ := quote_of_measure own
    have short : 1 + stringLength rest < ('"' :: rest ++ b).length := by
      have := List.length_pos_iff.mpr more
      rw [List.length_append]
      omega
    have whole := closes_of_measure found short
    have all := (measure_quote (rest ++ b)).symm.trans found
    rw [Option.some.injEq, Prod.mk.injEq] at all
    refine closes_within (t := rest) (b := b) whole ?_
    rw [List.length_cons] at within
    omega

-- A lexeme stays the same if what stands behind the part that it lies in is replaced by what
-- continues no lexeme. A string has to be closed.
theorem measure_replace {k : Kind} {n : Nat} (found : measure (t ++ b) = some (k, n))
    (within : n ≤ t.length) (closed : k = .stringLiteral → n < t.length ∨ b ≠ []) {later : Text}
    (ends : ∀ c ∈ later.head?, isBreak c = true) : measure (t ++ later) = some (k, n) := by
  have own := measure_within found within
  cases later with
  | nil => rwa [List.append_nil]
  | cons c later =>
      refine measure_break (ends c rfl) own ?_ later
      rintro rfl
      exact closes_of_more found within (closed rfl)

end LosslessTree.Lexeme
