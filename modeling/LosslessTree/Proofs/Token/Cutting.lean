import LosslessTree.Proofs.Token.Lexing

set_option autoImplicit false

namespace LosslessTree

namespace Lexeme

-- Characters that continue no lexeme but a string or a comment.
def isBreak (c : Char) : Bool :=
  !isHex c && !isIdentContinue c && !(['+', '-', '/'].contains c) &&
    fixed.all fun entry => !entry.1.tail.contains c

theorem takeWhile_append_cons {p : Char → Bool} {c : Char} (out : p c = false) (t rest : Text) :
    (t ++ c :: rest).takeWhile p = t.takeWhile p := by
  induction t with
  | nil => simp [out]
  | cons d t ih => simp [List.takeWhile_cons, ih]

theorem isPrefixOf_append_cons {spelling : Text} {c : Char} (out : c ∉ spelling) (t rest : Text) :
    spelling.isPrefixOf (t ++ c :: rest) = spelling.isPrefixOf t := by
  induction spelling generalizing t with
  | nil => simp
  | cons d spelling ih =>
      have other : (d == c) = false := by
        rw [beq_eq_false_iff_ne]
        rintro rfl
        exact out List.mem_cons_self
      cases t with
      | nil => simp [List.isPrefixOf, other]
      | cons e t =>
          have more := ih (fun mem => out (List.mem_cons_of_mem _ mem)) t
          simp [List.isPrefixOf, more]

theorem decimalLength_le (t : Text) : decimalLength t ≤ t.length :=
  (List.takeWhile_prefix _).length_le

theorem wholeLength_le (first : Char) (t : Text) : wholeLength first t ≤ t.length := by
  cases t with
  | nil => exact Nat.le_refl _
  | cons base more =>
      have digits := decimalLength_le more
      have hex : (more.takeWhile isHex).length ≤ more.length := (List.takeWhile_prefix _).length_le
      simp only [wholeLength, List.length_cons]
      split
      · omega
      split
      · omega
      · exact decimalLength_le _

theorem exponentLength_le (t : Text) : exponentLength t ≤ t.length := by
  unfold exponentLength
  split
  · exact Nat.le_refl _
  · next e rest =>
      simp only [List.length_cons]
      split
      · split
        · next more =>
            have := decimalLength_le more
            simp only [List.length_cons]
            omega
        · next more =>
            have := decimalLength_le more
            simp only [List.length_cons]
            omega
        · have := decimalLength_le rest
          omega
      · exact Nat.zero_le _

theorem fractionLength_le (t : Text) : fractionLength t ≤ t.length := by
  unfold fractionLength
  split
  · next d rest =>
      split
      · have digits := decimalLength_le (d :: rest)
        have exponent := exponentLength_le ((d :: rest).drop (decimalLength (d :: rest)))
        simp only [List.length_drop, List.length_cons] at digits exponent ⊢
        omega
      · exact Nat.zero_le _
  · exact exponentLength_le _

theorem number_le (first : Char) (rest : Text) : (number first rest).2 ≤ rest.length + 1 := by
  have whole := wholeLength_le first rest
  have fraction := fractionLength_le (rest.drop (wholeLength first rest))
  rw [List.length_drop] at fraction
  simp only [number]
  split <;> simp only <;> omega

theorem stringLength_le (t : Text) : stringLength t ≤ t.length := by
  fun_induction stringLength t <;> simp only [List.length_cons, List.length_nil] <;> omega

theorem free_le (first : Char) (rest : Text) : (free first rest).2 ≤ rest.length + 1 := by
  unfold free
  split
  · have := stringLength_le rest
    simp only
    omega
  split
  · exact number_le first rest
  split
  · exact Nat.succ_le_succ (List.takeWhile_prefix _).length_le
  · exact Nat.succ_le_succ (Nat.zero_le _)

theorem measure_le {t : Text} {k : Kind} {n : Nat} (found : measure t = some (k, n)) :
    n ≤ t.length := by
  cases t with
  | nil => cases found
  | cons first rest =>
      simp only [measure, Option.some.injEq] at found
      cases spelled : fixed? (first :: rest) with
      | none =>
          rw [spelled, Option.getD_none] at found
          have := free_le first rest
          rwa [found] at this
      | some entry =>
          rw [spelled, Option.getD_some] at found
          rw [found] at spelled
          simp only [fixed?, Option.map_eq_some_iff, Prod.mk.injEq] at spelled
          obtain ⟨entry, first_, -, rfl⟩ := spelled
          have starts := List.find?_some first_
          exact (List.isPrefixOf_iff_prefix.mp starts).length_le

def blanks : List Char :=
  Unicode.blankRanges.flatMap fun r => (List.range' r.1 (r.2 + 1 - r.1)).map Char.ofNat

theorem mem_blanks {c : Char} (blank : Unicode.isBlank c = true) : c ∈ blanks := by
  obtain ⟨r, mem, low, high⟩ := (Unicode.Ranges.holds_iff Unicode.blankRanges_rising _).mp blank
  refine List.mem_flatMap.mpr ⟨r, mem, List.mem_map.mpr ⟨c.toNat, ?_, Char.ofNat_toNat c⟩⟩
  rw [List.mem_range'_1]
  omega

theorem isBreak_of_isBlank {c : Char} (blank : Unicode.isBlank c = true) : isBreak c = true := by
  have each : blanks.all isBreak = true := by decide +kernel
  exact List.all_eq_true.mp each c (mem_blanks blank)

theorem isPrefixOf_append_tail {spelling : Text} {c : Char} (out : c ∉ spelling.tail) {t : Text}
    (some_ : t ≠ []) (rest : Text) : spelling.isPrefixOf (t ++ c :: rest) = spelling.isPrefixOf t := by
  obtain ⟨d, t, rfl⟩ := List.exists_cons_of_ne_nil some_
  cases spelling with
  | nil => simp
  | cons e spelling =>
      rw [List.tail_cons] at out
      simp [List.isPrefixOf, isPrefixOf_append_cons out t rest]

section Break

variable {c : Char} (ends : isBreak c = true)
include ends

theorem isHex_break : isHex c = false := by
  simp only [isBreak, Bool.and_eq_true, Bool.not_eq_true'] at ends
  exact ends.1.1.1

theorem isDecimal_break : isDecimal c = false := by
  have hex := isHex_break ends
  simp only [isHex, Bool.or_eq_false_iff] at hex
  exact hex.1.1

theorem isIdentContinue_break : isIdentContinue c = false := by
  simp only [isBreak, Bool.and_eq_true, Bool.not_eq_true'] at ends
  exact ends.1.1.2

theorem not_mem_tail_break : ∀ entry ∈ fixed, c ∉ entry.1.tail := by
  simp only [isBreak, Bool.and_eq_true, List.all_eq_true, Bool.not_eq_true',
    List.contains_eq_mem, decide_eq_false_iff_not] at ends
  exact ends.2

theorem ne_break {d : Char} (goes : isBreak d = false) : c ≠ d := by
  rintro rfl
  rw [ends] at goes
  cases goes

variable (t rest : Text)

theorem fixed?_break (some_ : t ≠ []) : fixed? (t ++ c :: rest) = fixed? t := by
  have apart := not_mem_tail_break ends
  rw [fixed?, fixed?]
  congr 1
  generalize fixed = entries at apart
  induction entries with
  | nil => rfl
  | cons entry entries ih =>
      obtain ⟨here, more⟩ := List.forall_mem_cons.mp apart
      simp only [List.find?_cons, isPrefixOf_append_tail here some_ rest, ih more]

theorem decimalLength_break : decimalLength (t ++ c :: rest) = decimalLength t := by
  rw [decimalLength, decimalLength, takeWhile_append_cons (isDecimal_break ends)]

theorem exponentLength_break : exponentLength (t ++ c :: rest) = exponentLength t := by
  match t with
  | [] =>
      have lower : c ≠ 'e' := ne_break ends (by decide +kernel)
      have upper : c ≠ 'E' := ne_break ends (by decide +kernel)
      simp [exponentLength, lower, upper]
  | [e] =>
      have none : decimalLength (c :: rest) = decimalLength [] := decimalLength_break ends [] rest
      have plus : c ≠ '+' := ne_break ends (by decide +kernel)
      have minus : c ≠ '-' := ne_break ends (by decide +kernel)
      simp [exponentLength, none, plus, minus]
  | e :: sign :: more =>
      have digits := decimalLength_break ends more rest
      have all : decimalLength (sign :: (more ++ c :: rest)) = decimalLength (sign :: more) :=
        decimalLength_break ends (sign :: more) rest
      by_cases plus : sign = '+'
      · simp [exponentLength, plus, digits]
      by_cases minus : sign = '-'
      · simp [exponentLength, minus, digits]
      simp [exponentLength, plus, minus, all]

theorem wholeLength_break (first : Char) :
    wholeLength first (t ++ c :: rest) = wholeLength first t := by
  match t with
  | [] =>
      have none : decimalLength (c :: rest) = 0 := decimalLength_break ends [] rest
      have binary : c ≠ 'b' := ne_break ends (by decide +kernel)
      have octal : c ≠ 'o' := ne_break ends (by decide +kernel)
      have hex : c ≠ 'x' := ne_break ends (by decide +kernel)
      simp [wholeLength, none, binary, octal, hex]
  | base :: more =>
      have digits := decimalLength_break ends more rest
      have all : decimalLength (base :: (more ++ c :: rest)) = decimalLength (base :: more) :=
        decimalLength_break ends (base :: more) rest
      have hex := takeWhile_append_cons (isHex_break ends) more rest
      simp [wholeLength, digits, all, hex]

theorem isDigit_break : isDigit c = false := by
  have decimal := isDecimal_break ends
  simp only [isDecimal, Bool.or_eq_false_iff] at decimal
  exact decimal.1

theorem fractionLength_break : fractionLength (t ++ c :: rest) = fractionLength t := by
  have exponent := exponentLength_break ends
  cases t with
  | nil =>
      have point : c ≠ '.' := ne_break ends (by decide +kernel)
      simpa [fractionLength, point] using exponent [] rest
  | cons e more =>
      by_cases point : e = '.'
      · subst point
        cases more with
        | nil => simp [fractionLength, isDigit_break ends, exponentLength]
        | cons d more =>
            have all : decimalLength (d :: (more ++ c :: rest)) = decimalLength (d :: more) :=
              decimalLength_break ends (d :: more) rest
            have left : (d :: (more ++ c :: rest)).drop (decimalLength (d :: more)) =
                (d :: more).drop (decimalLength (d :: more)) ++ c :: rest :=
              List.drop_append_of_le_length (decimalLength_le _)
            simp [fractionLength, all, left, exponent]
      · simpa [fractionLength, point] using exponent (e :: more) rest

theorem number_break (first : Char) : number first (t ++ c :: rest) = number first t := by
  rw [number, number, wholeLength_break ends t rest first,
    List.drop_append_of_le_length (wholeLength_le first t), fractionLength_break ends]

theorem word_break (first : Char) : word first (t ++ c :: rest) = word first t := by
  rw [word, word, takeWhile_append_cons (isIdentContinue_break ends)]

end Break

def closes : Text → Bool
  | [] => false
  | '"' :: _ => true
  | ['\\'] => false
  | '\\' :: _ :: rest => closes rest
  | _ :: rest => closes rest

theorem ne_backslash {d : Char} {t : Text} (last : d = '\\' → t = [] → False)
    (escape : ∀ e rest, d = '\\' → t = e :: rest → False) : d ≠ '\\' := by
  rintro rfl
  cases t with
  | nil => exact last rfl rfl
  | cons e rest => exact escape e rest rfl rfl

theorem stringLength_append {t : Text} (closed : closes t = true) (rest : Text) :
    stringLength (t ++ rest) = stringLength t := by
  fun_induction closes t with
  | case1 => cases closed
  | case2 => rfl
  | case3 => cases closed
  | case4 d t ih => simp [stringLength, ih closed]
  | case5 d t quote last escape ih =>
      have plain := ne_backslash last escape
      simp [stringLength, plain, ih closed]

theorem closes_of_stringLength_lt {t : Text} (short : stringLength t < t.length) :
    closes t = true := by
  fun_induction closes t with
  | case1 => cases short
  | case2 => rfl
  | case3 => exact absurd short (by decide)
  | case4 d t ih =>
      refine ih ?_
      simp only [stringLength, List.length_cons] at short
      omega
  | case5 d t quote last escape ih =>
      refine ih ?_
      simp only [stringLength, List.length_cons] at short
      omega

theorem quote_of_free {first : Char} {rest : Text} (string : (free first rest).1 = .stringLiteral) :
    first = '"' := by
  unfold free at string
  split at string
  · next quote => exact beq_iff_eq.mp quote
  split at string
  · simp only [number] at string
    split at string <;> cases string
  split at string
  · simp only [word, wordKind] at string
    split at string
    · cases string
    · cases found : Kind.ofKeyword? (first :: rest.takeWhile isIdentContinue) with
      | none =>
          rw [found] at string
          cases string
      | some k =>
          rw [found, Option.getD_some] at string
          have apart : ∀ entry ∈ Kind.keywords, entry.2 ≠ .stringLiteral := by decide
          exact absurd string (apart _ (mem_of_ofKeyword? found))
  · cases string

theorem measure_quote (rest : Text) :
    measure ('"' :: rest) = some (.stringLiteral, 1 + stringLength rest) := rfl

theorem quote_of_measure {t : Text} {n : Nat} (found : measure t = some (.stringLiteral, n)) :
    ∃ rest, t = '"' :: rest ∧ n = 1 + stringLength rest := by
  cases t with
  | nil => cases found
  | cons first rest =>
      have kept := found
      simp only [measure, Option.some.injEq] at found
      cases spelled : fixed? (first :: rest) with
      | none =>
          rw [spelled, Option.getD_none] at found
          obtain rfl := quote_of_free (congrArg Prod.fst found)
          rw [measure_quote, Option.some.injEq, Prod.mk.injEq] at kept
          exact ⟨rest, rfl, kept.2.symm⟩
      | some entry =>
          rw [spelled, Option.getD_some] at found
          rw [found] at spelled
          have apart : ∀ entry ∈ fixed, entry.2 ≠ .stringLiteral := by decide
          exact absurd rfl (apart _ (fixed?_mem spelled))

theorem closes_of_measure {t : Text} {n : Nat} (found : measure t = some (.stringLiteral, n))
    (short : n < t.length) : closes t.tail = true := by
  obtain ⟨rest, rfl, rfl⟩ := quote_of_measure found
  refine closes_of_stringLength_lt ?_
  rw [List.length_cons] at short
  rw [List.tail_cons]
  omega

theorem measure_break {c : Char} (ends : isBreak c = true) {t : Text} {k : Kind} {n : Nat}
    (found : measure t = some (k, n)) (closed : k = .stringLiteral → closes t.tail = true)
    (rest : Text) : measure (t ++ c :: rest) = some (k, n) := by
  cases t with
  | nil => cases found
  | cons first more =>
      have fixed := fixed?_break ends (first :: more) rest (List.cons_ne_nil _ _)
      simp only [measure, Option.some.injEq] at found
      rw [List.cons_append] at fixed ⊢
      rw [measure, fixed, ← found]
      congr 1
      cases spelled : fixed? (first :: more) with
      | some entry => rfl
      | none =>
          rw [spelled] at found
          simp only [Option.getD_none, free] at found ⊢
          split
          · next quote =>
              rw [if_pos quote] at found
              have inside : closes more = true := closed (congrArg Prod.fst found).symm
              rw [stringLength_append inside]
          · rw [number_break ends, word_break ends]

end Lexeme

end LosslessTree
