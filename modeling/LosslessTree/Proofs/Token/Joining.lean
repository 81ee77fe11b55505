import Mathlib.Data.List.Forall2
import LosslessTree.Proofs.Token.Cutting

set_option autoImplicit false

namespace LosslessTree

namespace Trivia

def skip : Text → Text
  | [] => []
  | '/' :: '/' :: rest => skip (rest.dropWhile fun c => !endsComment c)
  | c :: rest => if Unicode.isBlank c then skip rest else c :: rest
termination_by t => t.length
decreasing_by
  · have := (List.dropWhile_suffix (fun c => !endsComment c) (l := rest)).length_le
    simp only [List.length_cons]
    omega
  · simp

theorem skip_nil : skip [] = [] := by rw [skip]

theorem skip_length (t : Text) : (skip t).length ≤ t.length := by
  fun_induction skip t with
  | case1 => exact Nat.le_refl _
  | case2 rest ih =>
      have := (List.dropWhile_suffix (fun c => !endsComment c) (l := rest)).length_le
      simp only [List.length_cons]
      omega
  | case3 c rest _ _ ih =>
      simp only [List.length_cons]
      omega
  | case4 => exact Nat.le_refl _

theorem skip_blank {c : Char} (blank : Unicode.isBlank c = true) (rest : Text) :
    skip (c :: rest) = skip rest := by
  have slash : c ≠ '/' := by
    rintro rfl
    revert blank
    decide
  simp [skip, slash, blank]

theorem skip_dropWhile {p : Char → Bool} (blank : ∀ c, p c = true → Unicode.isBlank c = true)
    (t : Text) : skip (t.dropWhile p) = skip t := by
  induction t with
  | nil => rfl
  | cons c t ih =>
      rw [List.dropWhile_cons]
      split
      · next out => rw [ih, skip_blank (blank c out)]
      · rfl

theorem drop_takeWhile {p : Char → Bool} (t : Text) :
    t.drop (t.takeWhile p).length = t.dropWhile p := by
  induction t with
  | nil => rfl
  | cons c t ih =>
      rw [List.takeWhile_cons, List.dropWhile_cons]
      split
      · exact ih
      · rfl

theorem skip_drop {side : Side} {t : Text} {k : TriviaKind} {n : Nat}
    (found : measure side t = some (k, n)) : skip (t.drop n) = skip t := by
  unfold measure at found
  split at found
  · cases found
  · next rest =>
      cases side <;> cases found
      exact (skip_blank (by decide) rest).symm
  · next rest =>
      cases side <;> cases found
      rw [skip_blank (by decide), skip_blank (by decide)]
      rfl
  · next rest =>
      cases found
      rw [Nat.add_comm, List.drop_succ_cons, List.drop_succ_cons, drop_takeWhile, skip]
  · next c rest _ _ _ =>
      split at found
      · next blank =>
          cases found
          have inline : ∀ d, isInline d = true → Unicode.isBlank d = true := by
            intro d h
            simp only [isInline, Bool.and_eq_true] at h
            exact h.1.1
          rcases Nat.eq_zero_or_pos ((c :: rest).takeWhile isInline).length with none | some_
          · rw [none, skip_blank blank]
            rfl
          · rw [Nat.max_eq_right some_, drop_takeWhile, skip_dropWhile inline]
      · cases found

theorem skip_of_none {t : Text} (found : measure .leading t = none) : skip t = t := by
  unfold measure at found
  split at found
  · rw [skip]
  · cases found
  · cases found
  · cases found
  · next c rest _ _ comment =>
      split at found
      · cases found
      · next dark =>
          have plain : ∀ more, c = '/' → rest = '/' :: more → False := fun more h h' => comment more h h'
          rw [skip, if_neg dark]
          exact plain

theorem skip_scan (side : Side) (t : Text) : skip (scan side t).2 = skip t := by
  fun_induction scan side t with
  | case1 t found => rfl
  | case2 t k n found more ih => rw [ih, skip_drop found]

theorem scan_leading (t : Text) : (scan .leading t).2 = skip t := by
  fun_induction scan .leading t with
  | case1 t found => exact (skip_of_none found).symm
  | case2 t k n found more ih => rw [ih, skip_drop found]

theorem dropWhile_append_cons {p : Char → Bool} {c : Char} (out : p c = false) (t rest : Text) :
    (t ++ c :: rest).dropWhile p = t.dropWhile p ++ c :: rest := by
  induction t with
  | nil => simp [out]
  | cons d t ih =>
      rw [List.cons_append, List.dropWhile_cons, List.dropWhile_cons]
      split
      · exact ih
      · rfl

theorem skip_append (a b : Text) :
    skip (a ++ '\n' :: b) = if skip a = [] then skip b else skip a ++ '\n' :: b := by
  fun_induction skip a with
  | case1 => exact skip_blank (by decide) b
  | case2 rest ih =>
      rw [← ih, List.cons_append, List.cons_append, skip, dropWhile_append_cons (by decide)]
  | case3 c rest comment blank ih => rw [← ih, List.cons_append, skip_blank blank]
  | case4 c rest comment dark =>
      rw [if_neg (List.cons_ne_nil _ _), List.cons_append, skip, if_neg dark]
      rintro more rfl same
      cases rest with
      | nil => cases same
      | cons d rest =>
          cases same
          exact comment _ rfl rfl

end Trivia

-- A lexeme in a text, with the number of bytes from its start to the end of the text.
structure Cut where
  kind : Kind
  text : Text
  reach : Nat

namespace Cut

def all (t : Text) : List Cut :=
  match _found : Lexeme.measure (Trivia.skip t) with
  | none => []
  | some (k, n) =>
      ⟨k, (Trivia.skip t).take n, (Trivia.skip t).byteLength⟩ :: all ((Trivia.skip t).drop n)
termination_by t.length
decreasing_by
  have shorter := Trivia.skip_length t
  obtain ⟨some_text, pos⟩ := Lexeme.measure_pos _found
  have := List.length_pos_iff.mpr some_text
  rw [List.length_drop]
  omega

theorem all_of_none {t : Text} (ended : Trivia.skip t = []) : all t = [] := by
  rw [all]
  split
  · rfl
  · next found =>
      rw [ended] at found
      cases found

theorem all_of_some {t : Text} {k : Kind} {n : Nat}
    (found : Lexeme.measure (Trivia.skip t) = some (k, n)) :
    all t = ⟨k, (Trivia.skip t).take n, (Trivia.skip t).byteLength⟩ ::
      all ((Trivia.skip t).drop n) := by
  rw [all]
  split
  · next ended =>
      rw [found] at ended
      cases ended
  · next found' =>
      rw [found] at found'
      cases found'
      rfl

theorem all_congr {t t' : Text} (same : Trivia.skip t = Trivia.skip t') : all t = all t' := by
  cases found : Lexeme.measure (Trivia.skip t) with
  | none =>
      have ended := (Lexeme.measure_eq_none_iff _).mp found
      rw [all_of_none ended, all_of_none (same ▸ ended)]
  | some entry =>
      obtain ⟨k, n⟩ := entry
      have found' := found
      rw [same] at found'
      rw [all_of_some found, all_of_some found', same]

def extend (n : Nat) (c : Cut) : Cut := { c with reach := c.reach + n }

def isOpen (c : Cut) : Bool := c.kind == .stringLiteral && !Lexeme.closes c.text.tail

theorem closes_of_not_isOpen {c : Cut} (shut : c.isOpen = false) (string : c.kind = .stringLiteral) :
    Lexeme.closes c.text.tail = true := by
  simpa [isOpen, string] using shut

theorem all_append {a : Text} (shut : ∀ c ∈ (all a).getLast?, c.isOpen = false) (b : Text) :
    all (a ++ '\n' :: b) = (all a).map (extend (1 + b.byteLength)) ++ all b := by
  have behind := Trivia.skip_append a b
  fun_induction all a with
  | case1 a ended =>
      have ended := (Lexeme.measure_eq_none_iff _).mp ended
      rw [if_pos ended] at behind
      exact all_congr behind
  | case2 a k n found ih =>
      obtain ⟨more, pos⟩ := Lexeme.measure_pos found
      rw [if_neg more] at behind
      have inside := Lexeme.measure_le found
      have later : ∀ c ∈ (all ((Trivia.skip a).drop n)).getLast?, c.isOpen = false := by
        intro c last
        refine shut c ?_
        rw [List.getLast?_cons, last]
        rfl
      have here : k = .stringLiteral → Lexeme.closes (Trivia.skip a).tail = true := by
        rintro rfl
        by_cases whole : n = (Trivia.skip a).length
        · -- A string up to the end of the text is the last lexeme.
          subst whole
          rw [List.drop_length, all_of_none Trivia.skip_nil] at shut
          have own := closes_of_not_isOpen (shut _ rfl) rfl
          rwa [List.take_length] at own
        · exact Lexeme.closes_of_measure found (Nat.lt_of_le_of_ne inside whole)
      have measured := Lexeme.measure_break (Lexeme.isBreak_of_isBlank (c := '\n') (by decide)) found here b
      rw [← behind] at measured
      rw [all_of_some measured, behind, List.take_append_of_le_length inside,
        List.drop_append_of_le_length inside, ih later (Trivia.skip_append _ b)]
      have newline : '\n'.utf8Size = 1 := rfl
      simp [extend, newline]

structure Is (stop : Nat) (t : Token) (c : Cut) : Prop where
  kind : t.kind = c.kind
  text : t.text = c.text
  start : t.start + c.reach = stop

end Cut

namespace Token

def isOpen (t : Token) : Bool := t.kind == .stringLiteral && !Lexeme.closes t.text.tail

theorem isOpen_of_ne {t : Token} (other : t.kind ≠ .stringLiteral) : t.isOpen = false := by
  simp [isOpen, other]

theorem scan_reach (offset : Nat) (t : Text) :
    (scan offset t).1.start + (Trivia.skip t).byteLength = offset + t.byteLength := by
  have whole := congrArg Text.byteLength (Trivia.scan_text .leading t)
  rw [Text.byteLength_append, Trivia.byteLength_textOf, Trivia.scan_leading] at whole
  simp only [scan]
  split <;> simp only <;> omega

theorem scan_stop (offset : Nat) (t : Text) :
    (scan offset t).1.fullSpan.stop + (scan offset t).2.byteLength = offset + t.byteLength := by
  have whole := congrArg Text.byteLength (scan_text offset t)
  rw [Text.byteLength_append] at whole
  rw [scan_fullSpan, Nat.add_assoc, whole]

theorem scan_of_some {t : Text} {k : Kind} {n : Nat} (offset : Nat)
    (found : Lexeme.measure (Trivia.skip t) = some (k, n)) :
    (scan offset t).1.kind = k ∧ (scan offset t).1.text = (Trivia.skip t).take n ∧
      Trivia.skip (scan offset t).2 = Trivia.skip ((Trivia.skip t).drop n) := by
  rw [← Trivia.scan_leading] at found ⊢
  simp only [scan, found]
  exact ⟨trivial, trivial, Trivia.skip_scan _ _⟩

theorem skip_of_eof {offset : Nat} {t : Text} (ended : (scan offset t).1.kind = .eof) :
    Trivia.skip t = [] := by
  cases found : Lexeme.measure (Trivia.skip t) with
  | none => exact (Lexeme.measure_eq_none_iff _).mp found
  | some entry =>
      have lexeme := Lexeme.measure_isLexeme found
      rw [← (scan_of_some offset found).1, ended] at lexeme
      cases lexeme

end Token

namespace TokenStream

theorem ofTextAt_cuts (offset : Nat) (t : Text) :
    List.Forall₂ (Cut.Is (offset + t.byteLength)) (ofTextAt offset t).tokens (Cut.all t) := by
  fun_induction ofTextAt offset t with
  | case1 offset t first more rest ih =>
      cases found : Lexeme.measure (Trivia.skip t) with
      | none =>
          rw [← Trivia.scan_leading] at found
          simp [first, Token.scan, found] at more
      | some entry =>
          obtain ⟨k, n⟩ := entry
          obtain ⟨kind, text, behind⟩ := Token.scan_of_some offset found
          have stop : first.1.fullSpan.stop + first.2.byteLength = offset + t.byteLength :=
            Token.scan_stop offset t
          rw [stop, Cut.all_congr behind] at ih
          rw [Cut.all_of_some found]
          exact .cons ⟨kind, text, Token.scan_reach offset t⟩ ih
  | case2 offset t first ended =>
      rw [Cut.all_of_none (Token.skip_of_eof (not_not.mp ended))]
      exact .nil

theorem ofTextAt_eof_start (offset : Nat) (t : Text) :
    (ofTextAt offset t).eof.start = offset + t.byteLength := by
  fun_induction ofTextAt offset t with
  | case1 offset t first more rest ih =>
      rw [ih]
      exact Token.scan_stop offset t
  | case2 offset t first ended =>
      have start := Token.scan_reach offset t
      rwa [Token.skip_of_eof (not_not.mp ended)] at start

theorem ofTextAt_eof_text (offset : Nat) (t : Text) : (ofTextAt offset t).eof.text = [] := by
  fun_induction ofTextAt offset t with
  | case1 offset t first more rest ih => exact ih
  | case2 offset t first ended =>
      have none := Token.skip_of_eof (not_not.mp ended)
      rw [← Trivia.scan_leading] at none
      simp [first, Token.scan, none, Lexeme.measure]

end TokenStream

structure Token.Moved (n : Nat) (t t' : Token) : Prop where
  kind : t'.kind = t.kind
  text : t'.text = t.text
  start : t'.start = t.start + n

namespace Token.Moved

variable {n : Nat} {t t' : Token} {tokens tokens' : List Token}

theorem lookahead (h : t.Moved n t') : t.lookahead = t'.lookahead := by
  rw [Token.lookahead, Token.lookahead, h.kind, h.text]

theorem span (h : t.Moved n t') : t'.span = t.span.shift n := by
  simp only [Token.span, Token.stop, Span.shift, h.text, h.start, Nat.add_right_comm]

theorem map_congr {β : Type} {f : Token → β} (same : ∀ t t' : Token, t.Moved n t' → f t = f t')
    (h : List.Forall₂ (Token.Moved n) tokens tokens') : tokens'.map f = tokens.map f := by
  rw [eq_comm, ← List.forall₂_eq_eq_eq, List.forall₂_map_left_iff, List.forall₂_map_right_iff]
  exact h.imp same

theorem map_kind (h : List.Forall₂ (Token.Moved n) tokens tokens') :
    tokens'.map Token.kind = tokens.map Token.kind := map_congr (fun _ _ moved => moved.kind.symm) h

theorem map_spelling (h : List.Forall₂ (Token.Moved n) tokens tokens') :
    tokens'.map (fun t => (t.kind, t.text)) = tokens.map fun t => (t.kind, t.text) :=
  map_congr (fun _ _ moved => by rw [moved.kind, moved.text]) h

theorem map_lookahead (h : List.Forall₂ (Token.Moved n) tokens tokens') :
    tokens'.map Token.lookahead = tokens.map Token.lookahead := map_congr (fun _ _ => lookahead) h

end Token.Moved

theorem Cut.moved {n m stop stop' : Nat} {tokens tokens' : List Token} {cuts : List Cut}
    (own : List.Forall₂ (Is stop) tokens cuts)
    (other : List.Forall₂ (Is stop') tokens' (cuts.map (extend m)))
    (apart : stop' = stop + m + n) : List.Forall₂ (Token.Moved n) tokens tokens' := by
  rw [List.forall₂_map_right_iff] at other
  induction own generalizing tokens' with
  | nil =>
      cases other
      exact .nil
  | cons here _ ih =>
      cases other with
      | cons there behind =>
          refine .cons ⟨there.kind.trans here.kind.symm, there.text.trans here.text.symm, ?_⟩
            (ih behind)
          have first := here.start
          have second := there.start
          simp only [extend] at second
          omega

namespace TokenStream

theorem ofText_of_cuts {a b text : Text} {m : Nat}
    (cuts : Cut.all text = (Cut.all a).map (Cut.extend (m + b.byteLength)) ++ Cut.all b)
    (length : text.byteLength = a.byteLength + m + b.byteLength) :
    ∃ before after, (ofText text).tokens = before ++ after ∧
      List.Forall₂ (Token.Moved 0) (ofText a).tokens before ∧
        List.Forall₂ (Token.Moved (a.byteLength + m)) (ofText b).tokens after := by
  have first := ofTextAt_cuts 0 a
  have second := ofTextAt_cuts 0 b
  have both := ofTextAt_cuts 0 text
  rw [cuts] at both
  have front := List.forall₂_take_append _ _ _ both
  have back := List.forall₂_drop_append _ _ _ both
  refine ⟨_, _, (List.take_append_drop _ _).symm, Cut.moved first front (by omega), ?_⟩
  have unmoved : (Cut.all b).map (Cut.extend 0) = Cut.all b := List.map_id _
  rw [← unmoved] at back
  exact Cut.moved second back (by omega)

theorem ofText_join {a : Text} (shut : ∀ t ∈ (ofText a).tokens.getLast?, t.isOpen = false) (b : Text) :
    ∃ before after, (ofText (a ++ '\n' :: b)).tokens = before ++ after ∧
      List.Forall₂ (Token.Moved 0) (ofText a).tokens before ∧
        List.Forall₂ (Token.Moved (a.byteLength + 1)) (ofText b).tokens after := by
  have spelt : (ofText a).tokens.map Token.isOpen = (Cut.all a).map Cut.isOpen := by
    rw [← List.forall₂_eq_eq_eq, List.forall₂_map_left_iff, List.forall₂_map_right_iff]
    exact (ofTextAt_cuts 0 a).imp fun _ _ is => by rw [Token.isOpen, is.kind, is.text, Cut.isOpen]
  have last : ∀ c ∈ (Cut.all a).getLast?, c.isOpen = false := by
    intro c mem
    have told : ((ofText a).tokens.map Token.isOpen).getLast? = some c.isOpen := by
      rw [spelt, List.getLast?_map, mem]
      rfl
    rw [List.getLast?_map, Option.map_eq_some_iff] at told
    obtain ⟨t, found, same⟩ := told
    exact same.symm.trans (shut t found)
  have newline : '\n'.utf8Size = 1 := rfl
  refine ofText_of_cuts (Cut.all_append last b) ?_
  simp only [Text.byteLength_append, Text.byteLength_cons, newline]
  omega

theorem ofText_join_eof (a b : Text) :
    Token.Moved (a.byteLength + 1) (ofText b).eof (ofText (a ++ '\n' :: b)).eof := by
  have newline : '\n'.utf8Size = 1 := rfl
  refine ⟨(ofText_eof _).trans (ofText_eof b).symm, ?_, ?_⟩
  · rw [ofText, ofText, ofTextAt_eof_text, ofTextAt_eof_text]
  · rw [ofText, ofText, ofTextAt_eof_start, ofTextAt_eof_start]
    simp only [Text.byteLength_append, Text.byteLength_cons, newline]
    omega

end TokenStream

end LosslessTree
