import LosslessTree.Proofs.Token.Joining
import LosslessTree.Proofs.Token.Truncating

/-!
# Texts with a lexeme at a seam

A text may be cut where one of its lexemes begins or ends: its tokens are those of the text in front and
then those of the text behind. What is written behind a seam can move it into a comment, into a string or
into a longer lexeme, so this is asked of the lexemes of the whole text.
-/

set_option autoImplicit false

namespace LosslessTree

namespace Text

theorem eq_of_suffix {s t : Text} (h : s <:+ t) (le : t.byteLength ≤ s.byteLength) : s = t := by
  obtain ⟨front, rfl⟩ := h
  rw [byteLength_append] at le
  cases front with
  | nil => rfl
  | cons c front =>
    have pos := c.utf8Size_pos
    rw [byteLength_cons] at le
    omega

theorem le_of_drop {a b : Text} {n : Nat} (inside : n ≤ (a ++ b).length)
    (le : b.byteLength ≤ byteLength ((a ++ b).drop n)) : n ≤ a.length := by
  rw [List.drop_append] at le
  refine Nat.le_of_not_lt fun beyond => ?_
  rw [List.drop_eq_nil_of_le (Nat.le_of_lt beyond), List.nil_append] at le
  have same := congrArg List.length (eq_of_suffix (List.drop_suffix _ b) le)
  rw [List.length_append] at inside
  rw [List.length_drop] at same
  omega

theorem byteLength_le_of_suffix {s t : Text} (h : s <:+ t) : s.byteLength ≤ t.byteLength := by
  obtain ⟨front, rfl⟩ := h
  rw [byteLength_append]
  omega

theorem dropWhile_append_of_le {p : Char → Bool} {a b : Text}
    (le : b.byteLength ≤ byteLength ((a ++ b).dropWhile p)) :
    (a ++ b).dropWhile p = a.dropWhile p ++ b := by
  rw [List.dropWhile_append] at le ⊢
  split
  · next none =>
    rw [if_pos none] at le
    rw [List.isEmpty_iff.mp none, List.nil_append]
    exact eq_of_suffix (List.dropWhile_suffix p) le
  · rfl

end Text

namespace Trivia

theorem skip_suffix (t : Text) : skip t <:+ t := by
  rw [← scan_leading]
  exact ⟨_, scan_text .leading t⟩

theorem skip_skip (t : Text) : skip (skip t) = skip t := by
  rw [← scan_leading t, skip_scan, scan_leading]

theorem skip_append_of_le {a b : Text} (le : b.byteLength ≤ (skip (a ++ b)).byteLength) :
    skip (a ++ b) = skip a ++ b := by
  fun_induction skip a with
  | case1 => exact Text.eq_of_suffix (skip_suffix b) le
  | case2 rest ih =>
    have step : skip ('/' :: '/' :: rest ++ b) =
        skip ((rest ++ b).dropWhile fun c => !endsComment c) := by
      rw [List.cons_append, List.cons_append, skip]
    rw [step] at le ⊢
    have fits := Nat.le_trans le (Text.byteLength_le_of_suffix (skip_suffix _))
    rw [Text.dropWhile_append_of_le fits] at le ⊢
    exact ih le
  | case3 c rest comment blank ih =>
    rw [List.cons_append, skip_blank blank] at le ⊢
    exact ih le
  | case4 c rest comment dark =>
    rw [List.cons_append, skip, if_neg dark]
    rintro more rfl begins
    -- The two characters of a comment would stand on either side of the seam.
    cases rest with
    | cons d rest =>
      cases begins
      exact comment _ rfl rfl
    | nil =>
      obtain rfl : b = '/' :: more := begins
      have fits := Nat.le_trans le (Text.byteLength_le_of_suffix (t := more) ?_)
      · have pos := '/'.utf8Size_pos
        rw [Text.byteLength_cons] at fits
        omega
      · rw [List.singleton_append, skip]
        exact (skip_suffix _).trans (List.dropWhile_suffix _)

end Trivia

namespace Cut

theorem reach_le {t : Text} : ∀ c ∈ all t, c.reach ≤ (Trivia.skip t).byteLength := by
  fun_induction all t with
  | case1 => simp
  | case2 t k n found ih =>
    refine List.forall_mem_cons.mpr ⟨Nat.le_refl _, fun c mem => ?_⟩
    have inside := Text.byteLength_le_of_suffix (Trivia.skip_suffix ((Trivia.skip t).drop n))
    have behind := Text.byteLength_le_of_suffix (List.drop_suffix n (Trivia.skip t))
    exact Nat.le_trans (ih c mem) (Nat.le_trans inside behind)

theorem reach_pos {t : Text} : ∀ c ∈ all t, 0 < c.reach := by
  fun_induction all t with
  | case1 => simp
  | case2 t k n found ih =>
    exact List.forall_mem_cons.mpr ⟨Text.byteLength_pos (Lexeme.measure_pos found).1, ih⟩

/-- A lexeme of the whole begins or ends where the two texts meet. -/
def Seam (a b : Text) : Prop :=
  ∃ c ∈ all (a ++ b), c.reach = b.byteLength ∨ c.reach = c.text.byteLength + b.byteLength

theorem Seam.le_skip {a b : Text} (seam : Seam a b) :
    b.byteLength ≤ (Trivia.skip (a ++ b)).byteLength := by
  obtain ⟨c, mem, starts | stops⟩ := seam
  · exact starts ▸ reach_le c mem
  · have := reach_le c mem
    omega

-- The first lexeme in front of a seam does not reach over it, and there is a seam left to reach
-- behind it, unless it ends there.
theorem Seam.step {a b : Text} {k : Kind} {n : Nat} (seam : Seam a b) (some_ : Trivia.skip a ≠ [])
    (found : Lexeme.measure (Trivia.skip a ++ b) = some (k, n)) :
    n ≤ (Trivia.skip a).length ∧
      (Seam ((Trivia.skip a).drop n) b ∨ (Trivia.skip a).drop n = []) := by
  have whole := Trivia.skip_append_of_le seam.le_skip
  have inside := Lexeme.measure_le found
  have pos := Text.byteLength_pos some_
  obtain ⟨c, mem, at_⟩ := seam
  rw [all_of_some (whole ▸ found), whole] at mem
  generalize Trivia.skip a = front at *
  have cut := congrArg Text.byteLength (List.take_append_drop n (front ++ b))
  rw [Text.byteLength_append, Text.byteLength_append] at cut
  rcases List.mem_cons.mp mem with rfl | behind
  · -- It does not begin at the seam, so it ends there.
    simp only [Text.byteLength_append] at at_
    have fits := Text.le_of_drop inside (by omega)
    rw [List.drop_append_of_le_length fits, Text.byteLength_append] at cut
    refine ⟨fits, .inr ?_⟩
    by_contra more
    have := Text.byteLength_pos more
    omega
  · have reach := reach_le c behind
    have skipped := Text.byteLength_le_of_suffix (Trivia.skip_suffix ((front ++ b).drop n))
    have fits := Text.le_of_drop inside (by omega)
    rw [List.drop_append_of_le_length fits] at behind
    exact ⟨fits, .inl ⟨c, behind, at_⟩⟩

theorem all_seam {a b : Text} (seam : Seam a b) :
    all (a ++ b) = (all a).map (extend b.byteLength) ++ all b := by
  have whole := Trivia.skip_append_of_le seam.le_skip
  fun_induction all a with
  | case1 a ended =>
    rw [(Lexeme.measure_eq_none_iff _).mp ended, List.nil_append] at whole
    refine all_congr ?_
    rw [← Trivia.skip_skip, whole]
  | case2 a k n own ih =>
    have some_ := (Lexeme.measure_pos own).1
    obtain ⟨⟨k', n'⟩, found⟩ : ∃ cut, Lexeme.measure (Trivia.skip a ++ b) = some cut :=
      Option.ne_none_iff_exists'.mp fun none => some_
        (List.append_eq_nil_iff.mp ((Lexeme.measure_eq_none_iff _).mp none)).1
    obtain ⟨fits, behind⟩ := seam.step some_ found
    rw [Lexeme.measure_within found fits, Option.some.injEq, Prod.mk.injEq] at own
    obtain ⟨rfl, rfl⟩ := own
    have further : all ((Trivia.skip a).drop n' ++ b) =
        (all ((Trivia.skip a).drop n')).map (extend b.byteLength) ++ all b := by
      rcases behind with seam | none
      · exact ih seam (Trivia.skip_append_of_le seam.le_skip)
      · rw [none, all_of_none Trivia.skip_nil]
        rfl
    rw [all_of_some (whole ▸ found), whole, List.take_append_of_le_length fits,
      List.drop_append_of_le_length fits, further]
    simp [extend]

end Cut

def Span.isOutside (outer s : Span) : Bool := s.start < outer.start || outer.stop ≤ s.start

theorem Span.isOutside_iff {outer s : Span} :
    outer.isOutside s = true ↔ s.start < outer.start ∨ outer.stop ≤ s.start := by
  simp [isOutside]

theorem Span.isOutside_eq_false_iff {outer s : Span} :
    outer.isOutside s = false ↔ outer.start ≤ s.start ∧ s.start < outer.stop := by
  simp [isOutside]

theorem exists_paired {α β : Type} {R : α → β → Prop} {as : List α} {bs : List β}
    (h : List.Forall₂ R as bs) {b : β} (mem : b ∈ bs) : ∃ a ∈ as, R a b := by
  induction h with
  | nil => cases mem
  | cons here _ ih =>
    rcases List.mem_cons.mp mem with rfl | mem
    · exact ⟨_, List.mem_cons_self, here⟩
    · obtain ⟨a, inside, pair⟩ := ih mem
      exact ⟨a, List.mem_cons_of_mem _ inside, pair⟩

namespace TokenStream

variable {a b e : Text} {t : Token}

theorem exists_cut (mem : t ∈ (ofText a).tokens) : ∃ c ∈ Cut.all a, Cut.Is a.byteLength t c := by
  have cuts := ofTextAt_cuts 0 a
  rw [Nat.zero_add] at cuts
  exact exists_paired cuts.flip mem

theorem start_lt (mem : t ∈ (ofText a).tokens) : t.start < a.byteLength := by
  obtain ⟨c, inside, is⟩ := exists_cut mem
  have := Cut.reach_pos c inside
  have := is.start
  omega

theorem seam_of_token (mem : t ∈ (ofText (a ++ b)).tokens)
    (at_ : t.start = a.byteLength ∨ t.stop = a.byteLength) : Cut.Seam a b := by
  obtain ⟨c, inside, is⟩ := exists_cut mem
  have start := is.start
  rw [Text.byteLength_append] at start
  rw [Token.stop] at at_
  refine ⟨c, inside, ?_⟩
  rw [← is.text]
  omega

theorem ofText_seam (seam : Cut.Seam a b) :
    ∃ before after, (ofText (a ++ b)).tokens = before ++ after ∧
      List.Forall₂ (Token.Moved 0) (ofText a).tokens before ∧
        List.Forall₂ (Token.Moved a.byteLength) (ofText b).tokens after ∧
          (∀ t ∈ before, t.start < a.byteLength) ∧ ∀ t ∈ after, a.byteLength ≤ t.start := by
  obtain ⟨before, after, split, moved, moved'⟩ :=
    ofText_of_cuts (m := 0) (by simpa using Cut.all_seam seam) (by simp)
  refine ⟨before, after, split, moved, moved', fun t mem => ?_, fun t mem => ?_⟩
  · obtain ⟨u, inside, is⟩ := exists_paired moved mem
    exact is.start ▸ start_lt inside
  · obtain ⟨u, -, is⟩ := exists_paired moved' mem
    exact is.start ▸ Nat.le_add_left _ _

theorem ofText_append_eof (a b : Text) :
    Token.Moved a.byteLength (ofText b).eof (ofText (a ++ b)).eof := by
  refine ⟨(ofText_eof _).trans (ofText_eof b).symm, ?_, ?_⟩
  · rw [ofText, ofText, ofTextAt_eof_text, ofTextAt_eof_text]
  · rw [ofText, ofText, ofTextAt_eof_start, ofTextAt_eof_start, Text.byteLength_append]
    omega

theorem filter_late {before after : List Token} {n : Nat} (early : ∀ t ∈ before, t.start < n)
    (late : ∀ t ∈ after, n ≤ t.start) : (before ++ after).filter (fun t => n ≤ t.start) = after := by
  have none : before.filter (fun t => n ≤ t.start) = [] :=
    List.filter_eq_nil_iff.mpr fun t mem => by simpa using early t mem
  have all : after.filter (fun t => n ≤ t.start) = after :=
    List.filter_eq_self.mpr fun t mem => by simpa using late t mem
  rw [List.filter_append, none, all, List.nil_append]

theorem all_outside (front : Cut.Seam a (e ++ b)) (back : Cut.Seam (a ++ e) b) :
    ∃ before behind, (ofText (a ++ (e ++ b))).all.filter
        (fun t => Span.isOutside ⟨a.byteLength, Text.byteLength (a ++ e)⟩ t.span) = before ++ behind ∧
      List.Forall₂ (Token.Moved 0) (ofText a).tokens before ∧
        List.Forall₂ (Token.Moved (Text.byteLength (a ++ e))) (ofText b).all behind := by
  obtain ⟨before, after, split, moved, -, early, late⟩ := ofText_seam front
  obtain ⟨within, behind, split', -, moved', early', late'⟩ := ofText_seam back
  have eof := ofText_append_eof (a ++ e) b
  rw [List.append_assoc] at split' eof
  have farther : a.byteLength ≤ Text.byteLength (a ++ e) := by simp
  -- What is behind the second seam is behind the first one too.
  have far : after.filter (fun t => Text.byteLength (a ++ e) ≤ t.start) = behind := by
    have none : before.filter (fun t => Text.byteLength (a ++ e) ≤ t.start) = [] :=
      List.filter_eq_nil_iff.mpr fun t mem => by simpa using Nat.lt_of_lt_of_le (early t mem) farther
    have whole := filter_late early' late'
    rwa [← split', split, List.filter_append, none] at whole
  generalize Text.byteLength (a ++ e) = stop at *
  refine ⟨before, behind ++ [(ofText (a ++ (e ++ b))).eof], ?_, moved,
    List.rel_append moved' (.cons eof .nil)⟩
  have kept : before.filter (fun t => Span.isOutside ⟨a.byteLength, stop⟩ t.span) = before :=
    List.filter_eq_self.mpr fun t mem => Span.isOutside_iff.mpr (.inl (early t mem))
  have rest : after.filter (fun t => Span.isOutside ⟨a.byteLength, stop⟩ t.span) = behind := by
    rw [← far]
    refine List.filter_congr fun t mem => Bool.eq_iff_iff.mpr (Span.isOutside_iff.trans ?_)
    rw [decide_eq_true_iff]
    exact or_iff_right (Nat.not_lt.mpr (late t mem))
  have ended : [(ofText (a ++ (e ++ b))).eof].filter
      (fun t => Span.isOutside ⟨a.byteLength, stop⟩ t.span) = [(ofText (a ++ (e ++ b))).eof] := by
    simp [Span.isOutside, Token.span, eof.start]
  rw [all, split, List.filter_append, List.filter_append, kept, rest, ended, List.append_assoc]

end TokenStream

end LosslessTree
