import LosslessTree.Kind.Basic
import LosslessTree.Unicode.Blank

/-!
# Trivia

Blanks, line breaks and comments, cut into pieces. Trailing trivia stays on the line of its token:
it stops before the line break, which opens the leading trivia of the next token.
-/

set_option autoImplicit false

namespace LosslessTree

inductive TriviaKind where
  | whitespace | newline | comment
  deriving DecidableEq, Repr

def TriviaKind.kind : TriviaKind → Kind
  | whitespace => .whitespace
  | newline => .newline
  | comment => .lineComment

theorem TriviaKind.kind_isTrivia (k : TriviaKind) : k.kind.isTrivia = true := by cases k <;> rfl

inductive Side where
  | leading | trailing
  deriving DecidableEq, Repr

structure Trivia where
  kind : TriviaKind
  text : Text
  deriving DecidableEq, Repr

namespace Trivia

def length (t : Trivia) : Nat := t.text.byteLength

-- Blanks that continue a line.
def isInline (c : Char) : Bool := Unicode.isBlank c && c != '\n' && c != '\r'

def endsComment (c : Char) : Bool := c == '\n' || c == '\r'

def measure (side : Side) : Text → Option (TriviaKind × Nat)
  | [] => none
  | '\n' :: _ =>
      match side with
      | .leading => some (.newline, 1)
      | .trailing => none
  | '\r' :: '\n' :: _ =>
      match side with
      | .leading => some (.newline, 2)
      | .trailing => none
  | '/' :: '/' :: rest => some (.comment, 2 + (rest.takeWhile fun c => !endsComment c).length)
  | c :: rest =>
      -- A carriage return alone is a blank of its own.
      if Unicode.isBlank c then some (.whitespace, max 1 ((c :: rest).takeWhile isInline).length)
      else none

theorem measure_pos {side : Side} {t : Text} {k : TriviaKind} {n : Nat}
    (h : measure side t = some (k, n)) : t ≠ [] ∧ 0 < n := by
  unfold measure at h
  split at h
  · contradiction
  · cases side <;> simp_all
    omega
  · cases side <;> simp_all
    omega
  · simp_all
    omega
  · split at h <;> simp_all
    omega

def scan (side : Side) (t : Text) : List Trivia × Text :=
  match _found : measure side t with
  | none => ([], t)
  | some (k, n) =>
      let more := scan side (t.drop n)
      (⟨k, t.take n⟩ :: more.1, more.2)
termination_by t.length
decreasing_by
  have := measure_pos _found
  have := List.length_pos_iff.mpr this.1
  simp only [List.length_drop]
  omega

def textOf (pieces : List Trivia) : Text := (pieces.map Trivia.text).flatten

def lengthOf (pieces : List Trivia) : Nat := total Trivia.length pieces

theorem byteLength_textOf (pieces : List Trivia) :
    (textOf pieces).byteLength = lengthOf pieces := by
  induction pieces with
  | nil => rfl
  | cons p pieces ih =>
      simp only [textOf, lengthOf, List.map_cons, List.flatten_cons, total_cons,
        Text.byteLength_append] at ih ⊢
      rw [ih]
      rfl

theorem scan_text (side : Side) (t : Text) : textOf (scan side t).1 ++ (scan side t).2 = t := by
  fun_induction scan side t with
  | case1 t h => rfl
  | case2 t k n h more ih =>
      simp only [textOf, List.map_cons, List.flatten_cons, List.append_assoc] at ih ⊢
      rw [ih, List.take_append_drop]

theorem scan_length (side : Side) (t : Text) : (scan side t).2.length ≤ t.length := by
  have h := congrArg List.length (scan_text side t)
  simp only [List.length_append] at h
  omega

end Trivia

end LosslessTree
