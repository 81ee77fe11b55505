import LosslessTree.Proofs.Token.Parting

set_option autoImplicit false

namespace LosslessTree

namespace TokenStream

variable {text : Text} {before behind : List (Kind × Text)}

/-- A comment starts with two slashes and stays on its line. Behind it is the end of the line or of the
text, or a carriage return alone; without that, no token starts behind the comment on its line. -/
theorem comment_ends_line {w : Text}
    (split : (ofText text).parts = before ++ (.lineComment, w) :: behind) :
    text = Text.joined before ++ (w ++ Text.joined behind) ∧
      (['/', '/'] <+: w ∧ '\n' ∉ w ∧ '\r' ∉ w) ∧
      (Text.joined behind = [] ∨ (Text.joined behind).breaksLine = true ∨
        (Text.joined behind).returnsAlone = true) ∧
      ((Text.joined behind).returnsAlone = false →
        ∀ between k v further, behind = between ++ (k, v) :: further → Lexeme.isLexeme k = true →
          '\n' ∈ Text.joined between) := by
  obtain ⟨whole, here, parted⟩ := part_of_parts split
  have comment : Text.Part TriviaKind.comment.kind w (Text.joined behind) := here
  obtain ⟨side, found⟩ := comment.measured
  obtain ⟨slashes, inside, ends⟩ := Trivia.comment_of_measure found
  rw [List.take_left] at slashes inside
  rw [List.drop_left] at ends
  have line : Text.joined behind = [] ∨ (Text.joined behind).breaksLine = true ∨
      (Text.joined behind).returnsAlone = true := by
    cases after : Text.joined behind with
    | nil => exact .inl rfl
    | cons c rest =>
      right
      exact Text.breaksLine_or_returnsAlone (ends c (by rw [after]; rfl)) rest
  refine ⟨whole, ⟨slashes, fun mem => ?_, fun mem => ?_⟩, line, ?_⟩
  · cases inside _ mem
  · cases inside _ mem
  · rintro plain between k v further rfl lexeme
    obtain ⟨c, more, rfl, dark⟩ := parted.behind.1.head lexeme
    rw [Text.joined_append, Text.joined_cons, List.cons_append] at line plain
    -- The token starts with no blank, so it is not the line break.
    rcases line with none | line | alone
    · simp at none
    · exact Text.newline_of_breaksLine line dark
    · rw [plain] at alone
      cases alone

-- A comment in front of a line break of two characters.
theorem comment_ends_line_crlf :
    let behind : List (Kind × Text) := [(.newline, ['\r', '\n']), (.ident, ['b']), (.eof, [])]
    (ofText ['/', '/', 'a', '\r', '\n', 'b']).parts = [] ++ (.lineComment, ['/', '/', 'a']) :: behind ∧
      (Text.joined behind).returnsAlone = false ∧
      (['/', '/'] <+: ['/', '/', 'a'] ∧ '\n' ∉ ['/', '/', 'a'] ∧ '\r' ∉ ['/', '/', 'a']) ∧
      ∀ between k v further, behind = between ++ (k, v) :: further → Lexeme.isLexeme k = true →
        '\n' ∈ Text.joined between := by
  intro behind
  have split : (ofText ['/', '/', 'a', '\r', '\n', 'b']).parts =
      [] ++ (.lineComment, ['/', '/', 'a']) :: behind := by decide +kernel
  obtain ⟨-, own, -, line⟩ := comment_ends_line split
  exact ⟨split, rfl, own, line rfl⟩

-- A carriage return alone ends a comment, and a token may be behind it on the line.
theorem not_comment_to_line_end :
    ¬∀ (text : Text) (before behind : List (Kind × Text)) (w : Text),
      (ofText text).parts = before ++ (.lineComment, w) :: behind →
        Text.joined behind = [] ∨ (Text.joined behind).breaksLine = true := by
  intro ends
  have split : (ofText ['/', '/', ' ', 'a', '\r', 'b']).parts = [] ++ (.lineComment, ['/', '/', ' ', 'a']) ::
      [(.whitespace, ['\r']), (.ident, ['b']), (.eof, [])] := by decide +kernel
  rcases ends _ _ _ _ split with none | line
  · cases none
  · cases line

/-- Trivia is cut in one way: a line break belongs to the token behind it, and blanks go on as far as they
can. -/
structure Tidy (s : TokenStream) : Prop where
  newline : ∀ t ∈ s.all, ∀ p ∈ t.leading ++ t.trailing, p.kind = .newline →
    p.text = ['\n'] ∨ p.text = ['\r', '\n']
  blank : ∀ t ∈ s.all, ∀ p ∈ t.leading ++ t.trailing, p.kind = .whitespace →
    p.text ≠ [] ∧ ∀ c ∈ p.text, Unicode.isBlank c = true ∧ c ≠ '\n'
  -- Where blanks are cut in two, a carriage return alone is one of the parts.
  seam : ∀ before w v behind, s.parts = before ++ (.whitespace, w) :: (.whitespace, v) :: behind →
    w = ['\r'] ∧ (Text.joined ((.whitespace, w) :: (.whitespace, v) :: behind)).returnsAlone = true ∨
      v = ['\r'] ∧ (Text.joined ((.whitespace, v) :: behind)).returnsAlone = true
  trailing : ∀ t ∈ s.all, ∀ p ∈ t.trailing, p.kind ≠ .newline
  -- Behind the trivia of a token is a line break, the end of the text or a token without trivia in
  -- front of it.
  behind : ∀ front t behind, s.all = front ++ t :: behind →
    let rest : Text := (behind.map Token.fullText).flatten
    rest = [] ∨ rest.breaksLine = true ∨
      ∃ u more, behind = u :: more ∧ u.kind ≠ .eof ∧ u.leading = []
  leading : ∀ front t u behind, s.all = front ++ t :: u :: behind →
    ∀ p ∈ u.leading.head?, p.kind = .newline

end TokenStream

def Trivia.Measured (side : Side) (p : Trivia) : Prop :=
  ∃ after, measure side (p.text ++ after) = some (p.kind, p.text.length)

namespace Trivia

variable {side : Side} {p : Trivia} {t : Text}

theorem measured_scan (side : Side) (t : Text) : ∀ p ∈ (scan side t).1, p.Measured side := by
  fun_induction scan side t with
  | case1 => simp
  | case2 t k n found more ih =>
    refine List.forall_mem_cons.mpr ⟨⟨t.drop n, ?_⟩, ih⟩
    rwa [List.take_append_drop, List.length_take_of_le (measure_le found)]

theorem Measured.newline (measured : p.Measured side) (newline : p.kind = .newline) :
    side = .leading ∧ (p.text = ['\n'] ∨ p.text = ['\r', '\n']) := by
  obtain ⟨after, found⟩ := measured
  rw [newline] at found
  simpa using newline_of_measure found

theorem Measured.blank (measured : p.Measured side) (blank : p.kind = .whitespace) :
    p.text ≠ [] ∧ ∀ c ∈ p.text, Unicode.isBlank c = true ∧ c ≠ '\n' := by
  obtain ⟨after, found⟩ := measured
  rw [blank] at found
  rcases blank_of_measure found with ⟨return_, -⟩ | ⟨⟨some_, inline⟩, -⟩
  · rw [List.take_left] at return_
    have blank : Unicode.isBlank '\r' = true := by decide +kernel
    simp [return_, blank]
  · rw [List.take_left] at some_ inline
    refine ⟨some_, fun c mem => ?_⟩
    have here := inline c mem
    simp only [isInline, Bool.and_eq_true, bne_iff_ne] at here
    exact here.1

theorem return_of_seam {side' : Side} {w v after : Text}
    (first : measure side (w ++ (v ++ after)) = some (.whitespace, w.length))
    (second : measure side' (v ++ after) = some (.whitespace, v.length)) :
    w = ['\r'] ∧ Text.returnsAlone (w ++ (v ++ after)) = true ∨
      v = ['\r'] ∧ Text.returnsAlone (v ++ after) = true := by
  rcases blank_of_measure first with ⟨return_, alone⟩ | ⟨-, ends⟩
  · rw [List.take_left] at return_
    exact .inl ⟨return_, alone⟩
  rcases blank_of_measure second with ⟨return_, alone⟩ | ⟨⟨some_, inline⟩, -⟩
  · rw [List.take_left] at return_
    exact .inr ⟨return_, alone⟩
  -- The first blanks would go on.
  rw [List.take_left] at some_ inline
  rw [List.drop_left] at ends
  obtain ⟨c, more, rfl⟩ := List.exists_cons_of_ne_nil some_
  have goes := inline c List.mem_cons_self
  rw [ends c rfl] at goes
  cases goes

theorem head_scan (line : t = [] ∨ t.breaksLine = true ∨ measure .leading t = none) :
    ∀ p ∈ (scan .leading t).1.head?, p.kind = .newline := by
  rcases line with rfl | line | none
  · rw [scan_of_none rfl]
    simp
  · obtain ⟨n, found⟩ : ∃ n, measure .leading t = some (.newline, n) := by
      rcases Text.breaksLine_iff.mp line with ⟨rest, rfl⟩ | ⟨rest, rfl⟩
      · exact ⟨1, rfl⟩
      · exact ⟨2, rfl⟩
    rw [scan_of_some found]
    simp
  · rw [scan_of_none none]
    simp

end Trivia

namespace Token

variable {offset : Nat} {text : Text}

theorem measured_scan (offset : Nat) (text : Text) :
    (∀ p ∈ (scan offset text).1.leading, p.Measured .leading) ∧
      ∀ p ∈ (scan offset text).1.trailing, p.Measured .trailing := by
  simp only [scan]
  split
  · exact ⟨Trivia.measured_scan _ _, by simp⟩
  · exact ⟨Trivia.measured_scan _ _, Trivia.measured_scan _ _⟩

theorem leading_scan (offset : Nat) (text : Text) :
    (scan offset text).1.leading = (Trivia.scan .leading text).1 := by
  simp only [scan]
  split <;> rfl

theorem measure_behind (offset : Nat) (text : Text) :
    Trivia.measure .trailing (scan offset text).2 = none := by
  simp only [scan]
  split
  · rfl
  · exact Trivia.measure_scan _ _

end Token

namespace TokenStream

variable {text : Text} {t : Token} {front behind : List Token}

theorem head_all (offset : Nat) (text : Text) :
    (ofTextAt offset text).all.head? = some (Token.scan offset text).1 := by
  rw [ofTextAt]
  split <;> rfl

theorem measured_all (mem : t ∈ (ofText text).all) :
    (∀ p ∈ t.leading, p.Measured .leading) ∧ ∀ p ∈ t.trailing, p.Measured .trailing := by
  obtain ⟨offset, text', rfl⟩ := exists_scan mem
  exact Token.measured_scan offset text'

-- By recursion on the tokens: the text behind one is that which the next is read from.
theorem behind_token (offset : Nat) (text : Text) : ∀ front t behind,
    (ofTextAt offset text).all = front ++ t :: behind →
      Trivia.measure .trailing (behind.map Token.fullText).flatten = none ∧ ∀ u ∈ behind.head?,
        ∃ offset, u = (Token.scan offset (behind.map Token.fullText).flatten).1 := by
  fun_induction ofTextAt offset text with
  | case1 offset text first more rest ih =>
    rintro (_ | ⟨f, front⟩) t behind split
    · obtain ⟨rfl, rfl⟩ : first.1 = t ∧ rest.all = behind := List.cons.inj split
      have whole : (rest.all.map Token.fullText).flatten = first.2 := ofTextAt_text _ _
      rw [whole]
      refine ⟨Token.measure_behind offset text, fun u mem => ⟨first.1.fullSpan.stop, ?_⟩⟩
      rw [Option.mem_def, head_all, Option.some.injEq] at mem
      exact mem.symm
    · exact ih front t behind (List.cons.inj split).2
  | case2 offset text first ended =>
    rintro (_ | ⟨f, front⟩) t behind split
    · obtain ⟨rfl, rfl⟩ := List.cons.inj split
      exact ⟨rfl, by simp⟩
    · have none := (List.cons.inj split).2
      simp at none

theorem line_behind_token (split : (ofText text).all = front ++ t :: behind) :
    (behind.map Token.fullText).flatten = [] ∨
      Text.breaksLine (behind.map Token.fullText).flatten = true ∨
        ∃ u more, behind = u :: more ∧ u.kind ≠ .eof ∧ u.leading = [] := by
  obtain ⟨none, next⟩ := behind_token 0 text front t behind split
  rcases Trivia.ends_of_trailing none with ended | line | bare
  · exact .inl ended
  · exact .inr (.inl line)
  · cases behind with
    | nil => exact .inl rfl
    | cons u more =>
      obtain ⟨offset, read⟩ := next u rfl
      -- Without trivia in front of it, the end of the file is the end of the text.
      by_cases ended : u.kind = .eof
      · exact .inl ((Trivia.skip_of_none bare).symm.trans (Token.skip_of_eof (read ▸ ended)))
      · refine .inr (.inr ⟨u, more, rfl, ended, ?_⟩)
        rw [read, Token.leading_scan, Trivia.scan_of_none bare]

theorem head_leading {u : Token} (split : (ofText text).all = front ++ t :: u :: behind) :
    ∀ p ∈ u.leading.head?, p.kind = .newline := by
  obtain ⟨none, next⟩ := behind_token 0 text front t (u :: behind) split
  obtain ⟨offset, read⟩ := next u rfl
  rw [read, Token.leading_scan]
  exact Trivia.head_scan (Trivia.ends_of_trailing none)

theorem seam_blanks {before behind : List (Kind × Text)} {w v : Text}
    (split : (ofText text).parts = before ++ (.whitespace, w) :: (.whitespace, v) :: behind) :
    w = ['\r'] ∧ (Text.joined ((.whitespace, w) :: (.whitespace, v) :: behind)).returnsAlone = true ∨
      v = ['\r'] ∧ (Text.joined ((.whitespace, v) :: behind)).returnsAlone = true := by
  obtain ⟨-, here, parted⟩ := part_of_parts split
  have first : Text.Part TriviaKind.whitespace.kind w _ := here
  obtain ⟨side, found⟩ := first.measured
  cases parted with
  | cons next further =>
    have second : Text.Part TriviaKind.whitespace.kind v (Text.joined behind) := by
      rwa [List.append_nil] at next
    obtain ⟨side', found'⟩ := second.measured
    exact Trivia.return_of_seam found found'

/-- The trivia of a text is cut in one way. -/
theorem ofText_tidy (text : Text) : (ofText text).Tidy := by
  refine ⟨?_, ?_, fun _ _ _ _ => seam_blanks, ?_, fun _ _ _ => line_behind_token,
    fun _ _ _ _ => head_leading⟩
  · intro t mem p inside newline
    obtain ⟨lead, trail⟩ := measured_all mem
    rcases List.mem_append.mp inside with inside | inside
    · exact ((lead p inside).newline newline).2
    · exact ((trail p inside).newline newline).2
  · intro t mem p inside blank
    obtain ⟨lead, trail⟩ := measured_all mem
    rcases List.mem_append.mp inside with inside | inside
    · exact (lead p inside).blank blank
    · exact (trail p inside).blank blank
  · intro t mem p inside newline
    cases (((measured_all mem).2 p inside).newline newline).1

end TokenStream

end LosslessTree
