import LosslessTree.Proofs.Token.Cursors
import LosslessTree.Proofs.Token.Joining
import LosslessTree.Proofs.Token.Replacing

set_option autoImplicit false

namespace LosslessTree

def Token.scanned (t : Token) : Scanned :=
  ⟨t.leading.map Trivia.piece, t.kind, t.span, t.trailing.map Trivia.piece⟩

namespace Lexer

def Within (text : Text) (l : Lexer) : Prop :=
  ∃ before, text = before ++ l.rest ∧ before.byteLength = l.offset

variable {text : Text} {l : Lexer}

theorem within_scan {before t : Text} (split : text = before ++ t) :
    (scan before.byteLength t).Within text := by
  have read := Token.scan_text before.byteLength t
  refine ⟨before ++ (Token.scan before.byteLength t).1.fullText, ?_, ?_⟩
  · rw [List.append_assoc]
    exact split.trans (congrArg (before ++ ·) read.symm)
  · simp [scan, Token.scan_fullSpan]

theorem Within.take (within : l.Within text) : l.take.2.Within text := by
  obtain ⟨before, split, offset⟩ := within
  rw [Lexer.take, ← offset]
  exact within_scan split

end Lexer

namespace Scanner

def beside (text : Text) (l : Lexer) : Scanner := ⟨text, .fresh l.rest, l.current.scanned⟩

variable {text : Text} {l : Lexer}

theorem next_eq (before t : Text) (current : Scanned)
    (short : Text.byteLength (before ++ t) < Assembly.offsetLimit) :
    next ⟨before ++ t, .fresh t, current⟩ =
      .ok (current, beside (before ++ t) (.scan before.byteLength t)) := by
  have whole := Text.byteLength_append before t
  have lead := Cursor.trivia_eq .leading (t := t) (by omega)
  have read := Trivia.scan_text .leading t
  simp only [next, lead, bind, Except.bind, beside, Lexer.scan, Token.scan, Token.scanned]
  generalize Trivia.scan .leading t = scanned at read
  obtain ⟨pieces, behind⟩ := scanned
  have split : before ++ t = (before ++ Trivia.textOf pieces) ++ behind := by
    rw [List.append_assoc, read]
  have start : Text.byteLength (before ++ Trivia.textOf pieces) =
      before.byteLength + Trivia.lengthOf pieces := by
    rw [Text.byteLength_append, Trivia.byteLength_textOf]
  rw [split] at short ⊢
  cases measured : Lexeme.measure behind with
  | none =>
    obtain rfl := (Lexeme.measure_eq_none_iff behind).mp measured
    rw [List.append_nil] at short ⊢
    simp only [Cursor.token_eof short, start, if_true]
    rfl
  | some entry =>
    obtain ⟨k, n⟩ := entry
    have other : k ≠ .eof := by
      rintro rfl
      cases Lexeme.measure_isLexeme measured
    have within := Cursor.byteLength_drop_le behind n
    have length := Text.byteLength_append (before ++ Trivia.textOf pieces) behind
    have trail := Cursor.trivia_eq .trailing (t := behind.drop n) (by omega)
    simp only [Cursor.token_eq short measured, other, if_false, trail, start]
    rfl

theorem start_eq (short : text.byteLength < Assembly.offsetLimit) :
    start text = .ok (beside text (.start text)) := by
  have extent : text.extent = .ok text.byteLength := if_pos short
  have first : next ⟨text, .fresh text, .eofAt 0⟩ = .ok (.eofAt 0, beside text (.scan 0 text)) :=
    next_eq [] text _ short
  rw [Cursor.fresh] at first
  simp only [start, extent, bind, Except.bind, first]
  rfl

end Scanner

namespace Lexer

def takes : Nat → Lexer → List Token
  | 0, _ => []
  | n + 1, l => l.take.1 :: takes n l.take.2

def eofAt (offset : Nat) : Token := ⟨[], .eof, offset, [], []⟩

theorem scan_nil (offset : Nat) : scan offset [] = ⟨eofAt offset, offset, []⟩ := by
  have none : Trivia.scan .leading [] = ([], []) := Trivia.scan_of_none rfl
  simp [scan, Token.scan, none, Lexeme.measure, eofAt, Token.fullSpan, Token.stop, Trivia.lengthOf]

theorem takes_nil (offset n : Nat) :
    takes n (scan offset []) = List.replicate n (eofAt offset) := by
  induction n with
  | zero => rfl
  | succ n ih =>
    rw [scan_nil] at ih ⊢
    rw [takes, take, scan_nil]
    exact congrArg (eofAt offset :: ·) ih

theorem rest_of_eof {offset : Nat} {t : Text} (ended : (Token.scan offset t).1.kind = .eof) :
    (Token.scan offset t).2 = [] := by
  simp only [Token.scan] at ended ⊢
  split
  · rfl
  · next measured =>
    obtain rfl : _ = Kind.eof := by simpa only [measured] using ended
    cases Lexeme.measure_isLexeme measured

theorem takes_scan (offset n : Nat) (t : Text) :
    takes ((TokenStream.ofTextAt offset t).all.length + n) (scan offset t) =
      (TokenStream.ofTextAt offset t).all ++ List.replicate n (eofAt (offset + t.byteLength)) := by
  fun_induction TokenStream.ofTextAt offset t with
  | case1 offset t first more rest ih =>
    have stop := Token.scan_stop offset t
    rw [stop] at ih
    rw [TokenStream.all] at ih ⊢
    rw [List.cons_append, List.length_cons, Nat.add_right_comm, takes]
    exact congrArg (first.1 :: ·) ih
  | case2 offset t first ended =>
    have last : first.1.kind = .eof := Classical.not_not.mp ended
    have stop := Token.scan_stop offset t
    rw [rest_of_eof last, Text.byteLength_nil, Nat.add_zero] at stop
    change takes (1 + n) (scan offset t) = first.1 :: List.replicate n _
    rw [Nat.add_comm, takes, take, ← stop, ← takes_nil]
    exact congrArg (fun rest => first.1 :: takes n (scan _ rest)) (rest_of_eof last)

end Lexer

namespace Scanner

variable {text : Text} {l : Lexer}

theorem next_beside (short : text.byteLength < Assembly.offsetLimit) (within : l.Within text) :
    next (beside text l) = .ok (l.current.scanned, beside text l.take.2) := by
  obtain ⟨before, split, offset⟩ := within
  rw [Lexer.take, ← offset]
  subst split
  exact next_eq _ _ _ short

theorem calls_eq (short : text.byteLength < Assembly.offsetLimit) (n : Nat)
    (within : l.Within text) : calls n (beside text l) = .ok ((l.takes n).map Token.scanned) := by
  induction n generalizing l with
  | zero => rfl
  | succ n ih =>
    simp only [calls, next_beside short within, bind, Except.bind, ih within.take]
    rfl

theorem run_eq (short : text.byteLength < Assembly.offsetLimit) (n : Nat) :
    (start text >>= calls ((TokenStream.ofText text).all.length + n)) =
      .ok ((TokenStream.ofText text).all.map Token.scanned ++
        List.replicate n (.eofAt text.byteLength)) := by
  have within : (Lexer.start text).Within text := Lexer.within_scan (List.nil_append text).symm
  have taken := Lexer.takes_scan 0 n text
  rw [start_eq short]
  simp only [bind, Except.bind]
  rw [calls_eq short _ within, TokenStream.ofText, Lexer.start, taken]
  simp [Lexer.eofAt, Token.scanned, Scanned.eofAt, Token.span, Token.stop, Span.empty]

end Scanner

end LosslessTree
