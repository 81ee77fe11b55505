import LosslessTree.Proofs.Token.Cutting
import LosslessTree.Proofs.Token.Placing
import LosslessTree.Token.Cursor

set_option autoImplicit false

namespace LosslessTree

namespace Cursor

variable {rest : Text} {mark : Nat}

theorem advanceWhile_eq (p : Char → Bool) (rest : Text) (mark : Nat) :
    advanceWhile p ⟨rest, mark⟩ = ⟨rest.drop (rest.takeWhile p).length, mark⟩ := by
  induction rest with
  | nil => simp [advanceWhile]
  | cons x rest ih =>
    rw [advanceWhile]
    by_cases more : p x = true
    · simpa [more] using ih
    · simp [more]

theorem digits_eq {isDigit : Char → Bool} (out : isDigit endMark = false) (rest : Text)
    (mark : Nat) :
    digits isDigit ⟨rest, mark⟩ = ⟨rest.drop (rest.takeWhile isDigit).length, mark⟩ := by
  induction rest with
  | nil => simp [digits]
  | cons x rest ih =>
    rw [digits]
    by_cases more : isDigit x = true
    · have other : x ≠ endMark := fun same => by simp [same ▸ more] at out
      simpa [more, other] using ih
    · simp [more]

theorem string_eq (rest : Text) (mark : Nat) :
    string ⟨rest, mark⟩ = ⟨rest.drop (Lexeme.stringLength rest), mark⟩ := by
  fun_induction Lexeme.stringLength rest with
  | case1 => simp [string]
  | case2 rest => simp [string]
  | case3 => simp [string]
  | case4 x rest ih =>
    rw [string]
    simp [ih, Nat.add_comm 2]
  | case5 x rest quote lone escape ih =>
    have open_ : x ≠ '"' := quote
    have plain : x ≠ '\\' := Lexeme.ne_backslash lone escape
    rw [string]
    simp [open_, plain, ih, Nat.add_comm 1]

theorem sees_of_ne {x : Char} (other : ∀ more, rest = x :: more → False) :
    (⟨rest, mark⟩ : Cursor).sees x = false := by
  cases rest with
  | nil => rfl
  | cons y more =>
    rw [sees_cons, beq_eq_false_iff_ne]
    rintro rfl
    exact other more rfl

theorem exponent_eq (rest : Text) (mark : Nat) :
    exponent ⟨rest, mark⟩ = ⟨rest.drop (Lexeme.exponentLength rest), mark⟩ := by
  have out : Lexeme.isDecimal endMark = false := by decide
  unfold exponent
  fun_cases Lexeme.exponentLength rest with
  | case1 => rfl
  | case2 e marked more =>
    simp only [sees_cons, marked, advance_cons, if_true]
    simp [eat, digits_eq out, Lexeme.decimalLength, Nat.add_comm]
  | case3 e marked more =>
    simp only [sees_cons, marked, advance_cons, if_true]
    simp [digits_eq out, Lexeme.decimalLength, Nat.add_comm]
  | case4 e rest marked plus minus =>
    simp only [sees_cons, marked, advance_cons, if_true]
    simp [eat, sees_of_ne plus, sees_of_ne minus, digits_eq out, Lexeme.decimalLength,
      Nat.add_comm]
  | case5 e rest unmarked => simp [unmarked]

theorem sees_exponent (rest : Text) (mark : Nat) :
    ((⟨rest, mark⟩ : Cursor).sees 'e' || (⟨rest, mark⟩ : Cursor).sees 'E') =
      decide (0 < Lexeme.exponentLength rest) := by
  fun_cases Lexeme.exponentLength rest with
  | case1 => rfl
  | case2 e marked more =>
      rw [sees_cons, sees_cons, marked]
      exact (decide_eq_true (by omega)).symm
  | case3 e marked more =>
      rw [sees_cons, sees_cons, marked]
      exact (decide_eq_true (by omega)).symm
  | case4 e rest marked plus minus =>
      rw [sees_cons, sees_cons, marked]
      exact (decide_eq_true (by omega)).symm
  | case5 e rest unmarked => simpa using unmarked

theorem sees_point (other : ∀ d more, rest = '.' :: d :: more → False) :
    ((⟨rest, mark⟩ : Cursor).sees '.' && Lexeme.isDigit (⟨rest, mark⟩ : Cursor).second) = false := by
  match rest with
  | [] => rfl
  | [x] => simp [Lexeme.isDigit, endMark]
  | x :: d :: more =>
    rw [sees_cons, Bool.and_eq_false_iff, beq_eq_false_iff_ne]
    left
    rintro rfl
    exact other d more rfl

theorem fraction_eq (rest : Text) (mark : Nat) :
    fraction ⟨rest, mark⟩ =
      (if 0 < Lexeme.fractionLength rest then .floatNumber else .intNumber,
        ⟨rest.drop (Lexeme.fractionLength rest), mark⟩) := by
  have out : Lexeme.isDecimal endMark = false := by decide
  rw [fraction, sees_exponent]
  fun_cases Lexeme.fractionLength rest with
  | case1 d rest digit digits =>
    have point (n : Nat) : ('.' :: d :: rest).drop (1 + n) = (d :: rest).drop n := by
      rw [Nat.add_comm, List.drop_succ_cons]
    simp [digit, digits_eq out, exponent_eq, Lexeme.decimalLength, digits, Nat.add_assoc, point]
  | case2 d rest digit => simp [digit, Lexeme.exponentLength]
  | case3 _ other =>
    rw [sees_point other, if_neg Bool.false_ne_true]
    by_cases marked : 0 < Lexeme.exponentLength rest
    · simp [marked, exponent_eq]
    · simp [Nat.eq_zero_of_not_pos marked]

theorem fraction_number (first : Char) (rest : Text) (mark : Nat) :
    fraction ⟨rest.drop (Lexeme.wholeLength first rest), mark⟩ =
      ((Lexeme.number first rest).1, ⟨rest.drop ((Lexeme.number first rest).2 - 1), mark⟩) := by
  rw [fraction_eq, Lexeme.number]
  cases Lexeme.fractionLength (rest.drop (Lexeme.wholeLength first rest)) with
  | zero => simp
  | succ n => simp [Nat.add_assoc, Nat.add_comm 1]

theorem number_eq (first : Char) (rest : Text) (mark : Nat) :
    number first ⟨rest, mark⟩ =
      ((Lexeme.number first rest).1, ⟨rest.drop ((Lexeme.number first rest).2 - 1), mark⟩) := by
  have out : Lexeme.isDecimal endMark = false := by decide
  have hex : Lexeme.isHex endMark = false := by decide
  rw [← fraction_number, number]
  fun_cases Lexeme.wholeLength first rest with
  | case1 base more binary =>
    simp only [Bool.and_eq_true, Bool.or_eq_true, beq_iff_eq] at binary
    simp [binary, digits_eq out, Lexeme.decimalLength, Nat.add_comm 1]
  | case2 base more _ hexadecimal =>
    simp only [Bool.and_eq_true, beq_iff_eq] at hexadecimal
    simp [hexadecimal, digits_eq hex, Nat.add_comm 1]
  | case3 base more binary hexadecimal =>
    simp only [Bool.and_eq_true, Bool.or_eq_true, beq_iff_eq] at binary hexadecimal
    by_cases zero : first = '0'
    · simp only [zero, true_and] at binary hexadecimal
      simp only [zero, binary, hexadecimal, peek_cons, digits_eq out, if_true, if_false]
      split
      · rfl
      · next plain =>
        simp only [not_or, Bool.not_eq_true] at plain
        simp [Lexeme.decimalLength, plain, fraction]
    · simp [zero, digits_eq out, Lexeme.decimalLength]
  | case4 =>
    have none : fraction ⟨[], mark⟩ = (.intNumber, ⟨[], mark⟩) := rfl
    simp [none, digits_eq out, endMark]

def fresh (t : Text) : Cursor := ⟨t, t.byteLength⟩

variable {text before t : Text}

theorem left_eq (short : rest.byteLength < Assembly.offsetLimit) :
    left ⟨rest, mark⟩ = .ok rest.byteLength := if_pos short

theorem pieceLength_eq (short : t.byteLength < Assembly.offsetLimit) (n : Nat) :
    pieceLength ⟨t.drop n, t.byteLength⟩ = .ok (Text.byteLength (t.take n)) := by
  have whole : t.byteLength = Text.byteLength (t.take n) + Text.byteLength (t.drop n) := by
    rw [← Text.byteLength_append, List.take_append_drop]
  rw [pieceLength, left_eq (by omega)]
  change Text.less t.byteLength (Text.byteLength (t.drop n)) = _
  rw [Text.less, if_pos (by omega)]
  exact congrArg Except.ok (by omega)

theorem offset_eq (short : Text.byteLength (before ++ rest) < Assembly.offsetLimit) :
    offset (before ++ rest) ⟨rest, mark⟩ = .ok before.byteLength := by
  have whole := Text.byteLength_append before rest
  rw [offset, left_eq (by omega), Text.extent, if_pos short]
  change Text.less _ _ = _
  rw [Text.less, if_pos (by omega)]
  exact congrArg Except.ok (by omega)

theorem span_eq (short : Text.byteLength (before ++ t) < Assembly.offsetLimit) (n : Nat) :
    span (before ++ t) ⟨t.drop n, t.byteLength⟩ =
      .ok ⟨before.byteLength, before.byteLength + Text.byteLength (t.take n)⟩ := by
  have whole := Text.byteLength_append before t
  have cut : before ++ t = (before ++ t.take n) ++ t.drop n := by
    rw [List.append_assoc, List.take_append_drop]
  rw [span, pieceLength_eq (by omega), cut, offset_eq (cut ▸ short), Text.byteLength_append]
  change (Text.less _ _ >>= _) = _
  rw [Text.less, if_pos (by omega), Nat.add_sub_cancel]
  rfl

theorem second_of_ne {c x y : Char} (real : y ≠ endMark)
    (other : ∀ more, c = x → rest = y :: more → False) :
    ¬(c = x ∧ (⟨rest, mark⟩ : Cursor).peek = y) := by
  rintro ⟨same, shown⟩
  cases rest with
  | nil => exact real shown.symm
  | cons z more => exact other more same (congrArg (· :: more) shown)

theorem piece?_eq (side : Side) (short : t.byteLength < Assembly.offsetLimit) :
    piece? side (fresh t) =
      .ok ((Trivia.measure side t).map fun (k, n) => (k, ⟨t.drop n, t.byteLength⟩)) := by
  unfold piece? fresh
  fun_cases Trivia.measure side t with
  | case1 => rfl
  | case2 => rfl
  | case3 => rfl
  | case4 => simp
  | case5 => simp
  | case6 rest =>
    simp [advanceWhile_eq, Trivia.endsComment, Nat.add_comm 2]
  | case7 _ c rest line crlf comment blank =>
    have line : c ≠ '\n' := line
    simp only [atEnd_cons, peek_cons, second_cons, line, second_of_ne (by decide) crlf,
      second_of_ne (by decide) comment, blank, advanceWhile_eq, pieceLength_eq short, if_true,
      if_false, Bool.false_eq_true]
    -- A carriage return alone is not inline, but takes its character all the same.
    cases inline : (List.takeWhile Trivia.isInline (c :: rest)).length with
    | zero => rfl
    | succ n =>
      have some_ : Text.byteLength ((c :: rest).take (n + 1)) ≠ 0 := by
        have := c.utf8Size_pos
        simp only [List.take_succ_cons, Text.byteLength_cons]
        omega
      simp only [bind, Except.bind, some_, if_false]
      rfl
  | case8 _ c rest line crlf comment blank =>
    have line : c ≠ '\n' := line
    simp [line, second_of_ne (by decide) crlf, second_of_ne (by decide) comment, blank]

theorem byteLength_drop_le (t : Text) (n : Nat) : Text.byteLength (t.drop n) ≤ t.byteLength := by
  have whole := Text.byteLength_append (t.take n) (t.drop n)
  rw [List.take_append_drop] at whole
  omega

theorem trivia_eq (side : Side) (short : t.byteLength < Assembly.offsetLimit) :
    trivia side (fresh t) =
      .ok ((Trivia.scan side t).1.map Trivia.piece, fresh (Trivia.scan side t).2) := by
  fun_induction Trivia.scan side t with
  | case1 t none =>
    rw [trivia, piece?_eq side short, none]
    rfl
  | case2 t k n found more ih =>
    obtain ⟨some_, pos⟩ := Trivia.measure_pos found
    have within := byteLength_drop_le t n
    have shorter : (t.drop n).length < (fresh t).rest.length := by
      have := List.length_pos_iff.mpr some_
      simp only [fresh, List.length_drop]
      omega
    rw [trivia, piece?_eq side short, found]
    have left : left ⟨t.drop n, t.byteLength⟩ = _ := left_eq (by omega)
    have behind := ih (by omega)
    rw [fresh] at behind
    simp only [Option.map_some, bind, Except.bind, pieceLength_eq short, left, shorter, dif_pos,
      behind]
    rfl

theorem sees_eq (x : Char) (rest : Text) (mark : Nat) :
    (⟨rest, mark⟩ : Cursor).sees x = [x].isPrefixOf rest := by
  cases rest with
  | nil => rfl
  | cons y rest =>
    rw [sees_cons, Bool.eq_iff_iff]
    simp only [List.isPrefixOf, Bool.and_true, beq_iff_eq]
    exact eq_comm

theorem either_eq (x : Char) (long short : Kind) (rest : Text) (mark : Nat) :
    either ⟨rest, mark⟩ x long short =
      if [x].isPrefixOf rest then (long, ⟨rest.drop 1, mark⟩) else (short, ⟨rest, mark⟩) := by
  rw [either, sees_eq, List.drop_one]
  rfl

theorem eat_eq (x : Char) (rest : Text) (mark : Nat) :
    eat ⟨rest, mark⟩ x = if [x].isPrefixOf rest then ⟨rest.drop 1, mark⟩ else ⟨rest, mark⟩ := by
  rw [eat, sees_eq, List.drop_one]
  rfl

theorem fixed?_of_head {first : Char} (other : ∀ entry ∈ Lexeme.fixed, entry.1.head? ≠ some first)
    (rest : Text) : Lexeme.fixed? (first :: rest) = none := by
  simp only [Lexeme.fixed?, Option.map_eq_none_iff, List.find?_eq_none]
  intro entry mem starts
  obtain ⟨more, whole⟩ := List.isPrefixOf_iff_prefix.mp starts
  have some_ := Lexeme.fixed_pos entry mem
  cases spelling : entry.1 with
  | nil => simp [spelling] at some_
  | cons x spelled =>
    rw [spelling, List.cons_append, List.cons.injEq] at whole
    exact other entry mem (by rw [spelling, List.head?_cons, whole.1])

theorem word_eq {first : Char}
    (short : Text.byteLength (before ++ first :: rest) < Assembly.offsetLimit) :
    word (before ++ first :: rest) ⟨rest, Text.byteLength (first :: rest)⟩ =
      .ok ((Lexeme.word first rest).1,
        ⟨(first :: rest).drop (Lexeme.word first rest).2, Text.byteLength (first :: rest)⟩) := by
  let read := first :: rest.takeWhile Lexeme.isIdentContinue
  have starts : read <+: first :: rest :=
    List.cons_prefix_cons.mpr ⟨rfl, List.takeWhile_prefix _⟩
  have taken : (first :: rest).take read.length = read := (List.prefix_iff_eq_take.mp starts).symm
  have spanned := span_eq short read.length
  have sliced := Text.slice_append before read ((first :: rest).drop read.length)
  rw [taken] at spanned
  rw [← congrArg (· ++ (first :: rest).drop read.length) taken, List.take_append_drop] at sliced
  simp only [word, advanceWhile_eq]
  change (span (before ++ first :: rest) ⟨(first :: rest).drop read.length, _⟩ >>= _) = _
  rw [spanned]
  change Except.ok (Lexeme.wordKind _, _) = _
  rw [sliced]
  rfl

theorem lexeme_eq (short : Text.byteLength (before ++ t) < Assembly.offsetLimit) {k : Kind}
    {n : Nat} (found : Lexeme.measure t = some (k, n)) :
    lexeme (before ++ t) (fresh t) = .ok (k, ⟨t.drop n, t.byteLength⟩) := by
  cases t with
  | nil => simp [Lexeme.measure] at found
  | cons first rest =>
    simp only [Lexeme.measure, Option.some.injEq] at found
    rw [lexeme, fresh]
    simp only [peek_cons, advance_cons, either_eq, eat_eq]
    split
    -- No spelling begins here: a number, a word or a character on its own.
    case h_25 =>
      have other : ∀ entry ∈ Lexeme.fixed, entry.1.head? ≠ some first := by
        simp only [Lexeme.fixed, List.forall_mem_cons, List.head?_cons, ne_eq, Option.some.injEq,
          eq_comm (b := first)]
        simp_all
      have quote : first ≠ '"' := by assumption
      rw [fixed?_of_head other, Option.getD_none] at found
      simp only [Lexeme.free, quote, beq_iff_eq, if_false] at found
      by_cases digit : Lexeme.isDigit first = true
      · simp only [digit, if_true] at found ⊢
        have pos : 0 < n := by simpa [found] using Lexeme.number_pos first rest
        rw [number_eq, found, ← List.drop_succ_cons (a := first), Nat.sub_add_cancel pos]
      simp only [digit] at found ⊢
      by_cases letter : Lexeme.isIdentStart first = true
      · simp only [letter, if_true, Lexeme.word] at found ⊢
        obtain ⟨rfl, rfl⟩ := Prod.mk.inj found
        exact word_eq short
      · obtain ⟨rfl, rfl⟩ : _ ∧ _ := by simpa [letter] using found
        simp [letter]
    -- A string.
    case h_24 =>
      simp [Lexeme.fixed?, Lexeme.fixed, Lexeme.free] at found
      simp [string_eq, ← found, Nat.add_comm 1]
    -- A spelling of one character that no other spelling extends.
    case h_1 | h_2 | h_3 | h_4 | h_5 | h_6 | h_7 | h_8 | h_9 | h_19 | h_20 | h_21 | h_22 | h_23 =>
      obtain ⟨rfl, rfl⟩ : _ ∧ _ := by simpa [Lexeme.fixed?, Lexeme.fixed] using found
      rfl
    -- A spelling that another one extends by the character that may come next.
    all_goals
      split
      all_goals
        next more =>
          obtain ⟨rfl, rfl⟩ : _ ∧ _ := by simpa [Lexeme.fixed?, Lexeme.fixed, more] using found
          rfl

theorem token_eof (short : before.byteLength < Assembly.offsetLimit) :
    token before (fresh []) = .ok (.eof, .empty before.byteLength, fresh []) := by
  have offset : offset (before ++ []) ⟨[], 0⟩ = .ok before.byteLength :=
    offset_eq (by rwa [List.append_nil])
  rw [List.append_nil] at offset
  simp only [token, fresh, Text.byteLength_nil, atEnd_nil, if_true, offset]
  rfl

theorem token_eq (short : Text.byteLength (before ++ t) < Assembly.offsetLimit) {k : Kind} {n : Nat}
    (found : Lexeme.measure t = some (k, n)) :
    token (before ++ t) (fresh t) =
      .ok (k, ⟨before.byteLength, before.byteLength + Text.byteLength (t.take n)⟩, fresh (t.drop n)) := by
  have more : (fresh t).atEnd = false := List.isEmpty_eq_false_iff.mpr (Lexeme.measure_pos found).1
  have within := byteLength_drop_le t n
  have whole := Text.byteLength_append before t
  have left : left ⟨t.drop n, t.byteLength⟩ = _ := left_eq (by omega)
  simp only [token, more, Bool.false_eq_true, if_false, lexeme_eq short found, bind, Except.bind,
    span_eq short, left]
  rfl

end Cursor

end LosslessTree
