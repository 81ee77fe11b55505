import LosslessTree.Text.Span
import LosslessTree.Token.Lexeme
import LosslessTree.Token.Trivia

set_option autoImplicit false

namespace LosslessTree

structure Token where
  leading : List Trivia
  kind : Kind
  start : Nat
  text : Text
  trailing : List Trivia
  deriving DecidableEq, Repr

namespace Token

def stop (t : Token) : Nat := t.start + t.text.byteLength

def span (t : Token) : Span := ⟨t.start, t.stop⟩

def fullSpan (t : Token) : Span :=
  ⟨t.start - Trivia.lengthOf t.leading, t.stop + Trivia.lengthOf t.trailing⟩

def fullText (t : Token) : Text := Trivia.textOf t.leading ++ t.text ++ Trivia.textOf t.trailing

def scan (offset : Nat) (t : Text) : Token × Text :=
  let leading := Trivia.scan .leading t
  let start := offset + Trivia.lengthOf leading.1
  match Lexeme.measure leading.2 with
  | none => (⟨leading.1, .eof, start, [], []⟩, [])
  | some (kind, n) =>
      let trailing := Trivia.scan .trailing (leading.2.drop n)
      (⟨leading.1, kind, start, leading.2.take n, trailing.1⟩, trailing.2)

theorem scan_text (offset : Nat) (t : Text) :
    (scan offset t).1.fullText ++ (scan offset t).2 = t := by
  have lead := Trivia.scan_text .leading t
  simp only [scan]
  split
  · next ended =>
      rw [(Lexeme.measure_eq_none_iff _).mp ended] at lead
      simpa [fullText, Trivia.textOf] using lead
  · next kind n _ =>
      have trail := Trivia.scan_text .trailing ((Trivia.scan .leading t).2.drop n)
      simp only [fullText, List.append_assoc]
      rw [trail, List.take_append_drop, lead]

theorem scan_length {offset : Nat} {t : Text} (h : (scan offset t).1.kind ≠ .eof) :
    (scan offset t).2.length < t.length := by
  have lead := Trivia.scan_length .leading t
  simp only [scan] at h ⊢
  split at h
  · contradiction
  · next kind n found =>
      obtain ⟨some_text, pos⟩ := Lexeme.measure_pos found
      have trail := Trivia.scan_length .trailing ((Trivia.scan .leading t).2.drop n)
      have := List.length_pos_iff.mpr some_text
      simp only [List.length_drop] at trail
      simp only
      omega

theorem scan_fullSpan (offset : Nat) (t : Text) :
    (scan offset t).1.fullSpan =
      ⟨offset, offset + (scan offset t).1.fullText.byteLength⟩ := by
  simp only [scan]
  split <;> simp [fullSpan, stop, fullText, Trivia.byteLength_textOf] <;> omega

end Token

end LosslessTree
