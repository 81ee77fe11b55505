import Mathlib.Data.List.TakeWhile
import LosslessTree.Proofs.Token.Tiling

set_option autoImplicit false

namespace LosslessTree

namespace Text

def breaksLine : Text → Bool
  | '\n' :: _ => true
  | '\r' :: '\n' :: _ => true
  | _ => false

def returnsAlone : Text → Bool
  | '\r' :: '\n' :: _ => false
  | '\r' :: _ => true
  | _ => false

theorem breaksLine_iff {t : Text} :
    t.breaksLine = true ↔ (∃ rest, t = '\n' :: rest) ∨ ∃ rest, t = '\r' :: '\n' :: rest := by
  fun_cases breaksLine t <;> simp_all

theorem returnsAlone_cons {t : Text} (other : t.head? ≠ some '\n') :
    returnsAlone ('\r' :: t) = true := by
  unfold returnsAlone
  split
  · next more same =>
    cases same
    exact absurd rfl other
  · rfl
  · next plain => exact absurd rfl (plain t)

theorem breaksLine_or_returnsAlone {c : Char} (ends : Trivia.endsComment c = true) (t : Text) :
    breaksLine (c :: t) = true ∨ returnsAlone (c :: t) = true := by
  simp only [Trivia.endsComment, Bool.or_eq_true, beq_iff_eq] at ends
  rcases ends with rfl | rfl
  · exact .inl rfl
  · by_cases line : t.head? = some '\n'
    · obtain ⟨more, rfl⟩ := List.head?_eq_some_iff.mp line
      exact .inl rfl
    · exact .inr (returnsAlone_cons line)

theorem newline_of_breaksLine {a b : Text} {c : Char} (line : breaksLine (a ++ c :: b) = true)
    (dark : Unicode.isBlank c = false) : '\n' ∈ a := by
  -- The characters of a line break are blanks, so none of them is the one behind `a`.
  have other (d : Char) (blank : Unicode.isBlank d = true) : d ≠ c := by
    rintro rfl
    rw [blank] at dark
    cases dark
  have newline := other '\n' (by decide +kernel)
  have return_ := other '\r' (by decide +kernel)
  rcases breaksLine_iff.mp line with ⟨rest, same⟩ | ⟨rest, same⟩
  · match a, same with
    | [], same => exact absurd (List.cons.inj same).1.symm newline
    | d :: a, same => simp [(List.cons.inj same).1]
  · match a, same with
    | [], same => exact absurd (List.cons.inj same).1.symm return_
    | [d], same => exact absurd (List.cons.inj (List.cons.inj same).2).1.symm newline
    | d :: e :: a, same => simp [(List.cons.inj (List.cons.inj same).2).1]

theorem head_dropWhile {p : Char → Bool} (t : Text) : ∀ c ∈ (t.dropWhile p).head?, p c = false := by
  intro c mem
  have stops := List.head?_dropWhile_not p t
  rwa [Option.mem_def.mp mem] at stops

theorem take_takeWhile {p : Char → Bool} (t : Text) :
    t.take (t.takeWhile p).length = t.takeWhile p :=
  (List.prefix_iff_eq_take.mp (List.takeWhile_prefix p)).symm

end Text

theorem TriviaKind.kind_injective {k k' : TriviaKind} (same : k.kind = k'.kind) : k = k' := by
  cases k <;> cases k' <;> first | rfl | cases same

namespace Trivia

variable {side : Side} {t : Text} {n : Nat}

theorem measure_le {k : TriviaKind} (found : measure side t = some (k, n)) : n ≤ t.length := by
  revert found
  fun_cases measure side t with
  | case2 rest | case4 rest =>
    rintro ⟨⟩
    simp
  | case6 _ rest =>
    rintro ⟨⟩
    have inside := (List.takeWhile_prefix (l := rest) fun c => !endsComment c).length_le
    simp only [List.length_cons]
    omega
  | case7 _ c rest line crlf comment blank =>
    rintro ⟨⟩
    exact Nat.max_le.mpr ⟨Nat.succ_pos _, (List.takeWhile_prefix _).length_le⟩
  | case1 | case3 | case5 | case8 => simp

theorem newline_of_measure (found : measure side t = some (.newline, n)) :
    side = .leading ∧ (t.take n = ['\n'] ∨ t.take n = ['\r', '\n']) := by
  revert found
  fun_cases measure side t with
  | case2 rest =>
    rintro ⟨⟩
    exact ⟨rfl, .inl rfl⟩
  | case4 rest =>
    rintro ⟨⟩
    exact ⟨rfl, .inr rfl⟩
  | case1 | case3 | case5 | case6 | case7 | case8 => simp

theorem comment_of_measure (found : measure side t = some (.comment, n)) :
    ['/', '/'] <+: t.take n ∧ (∀ c ∈ t.take n, endsComment c = false) ∧
      ∀ c ∈ (t.drop n).head?, endsComment c = true := by
  revert found
  fun_cases measure side t with
  | case6 _ rest =>
    rintro ⟨⟩
    rw [Nat.add_comm]
    simp only [List.take_succ_cons, List.drop_succ_cons, Text.take_takeWhile, drop_takeWhile]
    refine ⟨List.prefix_append ['/', '/'] _, ?_, fun c mem => ?_⟩
    · simp only [List.forall_mem_cons]
      refine ⟨by decide, by decide, fun c mem => ?_⟩
      simpa using List.mem_takeWhile_imp mem
    · simpa using Text.head_dropWhile rest c mem
  | case1 | case2 | case3 | case4 | case5 | case7 | case8 => simp

theorem blank_of_measure (found : measure side t = some (.whitespace, n)) :
    t.take n = ['\r'] ∧ t.returnsAlone = true ∨
      (t.take n ≠ [] ∧ ∀ c ∈ t.take n, isInline c = true) ∧
        ∀ c ∈ (t.drop n).head?, isInline c = false := by
  revert found
  fun_cases measure side t with
  | case7 _ c rest line crlf comment blank =>
    rintro ⟨⟩
    -- A carriage return is the one blank here that does not go on the line.
    by_cases inline : isInline c = true
    · right
      have some_ : 1 ≤ ((c :: rest).takeWhile isInline).length := by simp [inline]
      rw [Nat.max_eq_right some_, Text.take_takeWhile, drop_takeWhile]
      refine ⟨⟨?_, fun d mem => List.mem_takeWhile_imp mem⟩, Text.head_dropWhile _⟩
      rintro none
      simp [none] at some_
    · left
      have none : (c :: rest).takeWhile isInline = [] := by simp [inline]
      have line' : c ≠ '\n' := line
      obtain rfl : c = '\r' := by simpa [isInline, blank, line'] using inline
      rw [none]
      refine ⟨rfl, Text.returnsAlone_cons fun next => ?_⟩
      obtain ⟨more, same⟩ := List.head?_eq_some_iff.mp next
      exact crlf more rfl same
  | case1 | case2 | case3 | case4 | case5 | case6 | case8 => simp

-- The two sides differ at a line break only.
theorem ends_of_trailing (none : measure .trailing t = none) :
    t = [] ∨ t.breaksLine = true ∨ measure .leading t = .none := by
  revert none
  generalize same : Side.trailing = side
  fun_cases measure side t with
  | case1 => exact fun _ => .inl rfl
  | case2 | case4 => cases same
  | case3 | case5 => exact fun _ => .inr (.inl rfl)
  | case6 | case7 => simp
  | case8 =>
    rintro -
    right
    right
    unfold measure
    split <;> simp_all

end Trivia

namespace Text

/-- A kind and a text that are read at the head of a text, in front of all that is behind them. -/
inductive Part : Kind → Text → Text → Prop
  | trivia {side : Side} {kind : TriviaKind} {k : Kind} {w after : Text} (same : kind.kind = k)
      (found : Trivia.measure side (w ++ after) = some (kind, w.length)) : Part k w after
  | lexeme {k : Kind} {w after : Text} (bare : Trivia.measure .leading (w ++ after) = none)
      (found : Lexeme.measure (w ++ after) = some (k, w.length)) : Part k w after
  | eof : Part .eof [] []

-- Parts that are read one behind the other, in front of a text.
inductive Parted : List (Kind × Text) → Text → Prop
  | nil {after : Text} : Parted [] after
  | cons {k : Kind} {w after : Text} {parts : List (Kind × Text)}
      (here : Part k w (joined parts ++ after)) (more : Parted parts after) :
      Parted ((k, w) :: parts) after

variable {k : Kind} {w after : Text} {parts more : List (Kind × Text)}

theorem Part.measured {kind : TriviaKind} (part : Part kind.kind w after) :
    ∃ side, Trivia.measure side (w ++ after) = some (kind, w.length) := by
  generalize same : kind.kind = k at part
  cases part with
  | @trivia side kind' _ _ _ same' found =>
    obtain rfl := TriviaKind.kind_injective (same'.trans same.symm)
    exact ⟨side, found⟩
  | lexeme bare found =>
    have lexeme := Lexeme.measure_isLexeme found
    simp [Lexeme.isLexeme, ← same, TriviaKind.kind_isTrivia] at lexeme
  | eof => cases kind <;> cases same

theorem Part.head (part : Part k w after) (lexeme : Lexeme.isLexeme k = true) :
    ∃ c more, w = c :: more ∧ Unicode.isBlank c = false := by
  cases part with
  | trivia same found => simp [Lexeme.isLexeme, ← same, TriviaKind.kind_isTrivia] at lexeme
  | lexeme bare found =>
    cases w with
    | nil => cases (Lexeme.measure_pos found).2
    | cons c more => exact ⟨c, more, rfl, Trivia.isBlank_of_measure bare⟩
  | eof => cases lexeme

theorem Parted.append (first : Parted parts (joined more ++ after)) (second : Parted more after) :
    Parted (parts ++ more) after := by
  induction parts with
  | nil => exact second
  | cons part parts ih =>
    cases first with
    | cons here first =>
      rw [← List.append_assoc, ← joined_append] at here
      exact .cons here (ih first)

theorem Parted.behind {before : List (Kind × Text)} (parted : Parted (before ++ (k, w) :: more) after) :
    Part k w (joined more ++ after) ∧ Parted more after := by
  induction before with
  | nil =>
    cases parted with
    | cons here further => exact ⟨here, further⟩
  | cons part before ih =>
    cases parted with
    | cons _ further => exact ih further

end Text

namespace Trivia

theorem parted_scan (side : Side) (t : Text) :
    Text.Parted ((scan side t).1.map fun p => (p.kind.kind, p.text)) (scan side t).2 := by
  fun_induction scan side t with
  | case1 => exact .nil
  | case2 t k n found more ih =>
    refine .cons (@Text.Part.trivia side _ _ _ _ rfl ?_) ih
    rw [Token.joined_pieces, scan_text, List.take_append_drop, List.length_take_of_le (measure_le found)]
    exact found

end Trivia

namespace Token

theorem parted_scan (offset : Nat) (text : Text) :
    Text.Parted (scan offset text).1.spelt (scan offset text).2 := by
  have lead := Trivia.parted_scan .leading text
  have bare := Trivia.measure_scan .leading text
  simp only [scan]
  generalize (Trivia.scan .leading text).2 = behind at *
  split
  · next ended =>
    obtain rfl := (Lexeme.measure_eq_none_iff _).mp ended
    exact lead.append (.cons .eof .nil)
  · next k n found =>
    have trail := Trivia.parted_scan .trailing (behind.drop n)
    have read := Trivia.scan_text .trailing (behind.drop n)
    rw [← joined_pieces] at read
    refine .append ?_ (.cons (.lexeme ?_ ?_) trail)
    · rwa [Text.joined_cons, List.append_assoc, read, List.take_append_drop]
    · rwa [read, List.take_append_drop]
    · rw [read, List.take_append_drop, List.length_take_of_le (Lexeme.measure_le found)]
      exact found

end Token

namespace TokenStream

def parts (s : TokenStream) : List (Kind × Text) := s.all.flatMap Token.spelt

theorem parts_cons (t : Token) (s : TokenStream) :
    (⟨t :: s.tokens, s.eof⟩ : TokenStream).parts = t.spelt ++ s.parts := rfl

theorem joined_parts (offset : Nat) (text : Text) : Text.joined (ofTextAt offset text).parts = text :=
  joined_all offset text

theorem parted_parts (offset : Nat) (text : Text) : Text.Parted (ofTextAt offset text).parts [] := by
  fun_induction ofTextAt offset text with
  | case1 offset text first more rest ih =>
    have here := Token.parted_scan offset text
    have whole : Text.joined rest.parts = first.2 := joined_parts _ _
    rw [parts_cons]
    refine .append ?_ ih
    rwa [List.append_nil, whole]
  | case2 offset text first ended =>
    have here := Token.parted_scan offset text
    rw [Lexer.rest_of_eof (Classical.not_not.mp ended)] at here
    simpa [parts, all] using here

variable {text : Text} {before behind : List (Kind × Text)} {k : Kind} {w : Text}

theorem part_of_parts (split : (ofText text).parts = before ++ (k, w) :: behind) :
    text = Text.joined before ++ (w ++ Text.joined behind) ∧ Text.Part k w (Text.joined behind) ∧
      Text.Parted behind [] := by
  have whole := joined_parts 0 text
  have parted := parted_parts 0 text
  rw [← ofText, split] at whole parted
  obtain ⟨here, further⟩ := parted.behind
  rw [List.append_nil] at here
  rw [Text.joined_append, Text.joined_cons] at whole
  exact ⟨whole.symm, here, further⟩

end TokenStream

end LosslessTree
