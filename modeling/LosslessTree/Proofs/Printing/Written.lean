import LosslessTree.Grammar.Expression
import LosslessTree.Proofs.Token.Wording

set_option autoImplicit false

namespace LosslessTree

inductive Expression where
  | literal (text : Text)
  | path (first : Text) (more : List Text)
  | tuple (fields : List Expression)
  | paren (inner : Expression)
  | call (callee : Expression) (arguments : List Expression)
  | reference (isMut : Bool) (operand : Expression)
  | binary (left : Expression) (operator : Text) (right : Expression)
  deriving Repr

namespace Expression

theorem induct {P : Expression → Prop} (literal : ∀ text, P (.literal text))
    (path : ∀ first more, P (.path first more))
    (tuple : ∀ fields, (∀ e ∈ fields, P e) → P (.tuple fields))
    (paren : ∀ inner, P inner → P (.paren inner))
    (call : ∀ callee arguments, P callee → (∀ e ∈ arguments, P e) → P (.call callee arguments))
    (reference : ∀ isMut operand, P operand → P (.reference isMut operand))
    (binary : ∀ left operator right, P left → P right → P (.binary left operator right))
    (e : Expression) : P e :=
  Expression.rec (motive_2 := fun fields => ∀ e ∈ fields, P e) literal path tuple paren call reference
    binary (by simp) (fun _ _ first more => List.forall_mem_cons.mpr ⟨first, more⟩) e

def kind : Expression → Kind
  | literal .. => .literal
  | path .. => .pathExpr
  | tuple .. => .tupleExpr
  | paren .. => .parenExpr
  | call .. => .callExpr
  | reference .. => .refExpr
  | binary .. => .binaryExpr

def level? : Expression → Option Nat
  | binary _ operator _ => operatorLevel? operator
  | _ => none

mutual

def words : Expression → List Text
  | literal text => [text]
  | path first more => first :: more.flatMap fun segment => [[':', ':'], segment]
  | tuple fields => ['('] :: (fieldWords fields ++ trailingComma fields ++ [[')']])
  | paren inner => ['('] :: (inner.words ++ [[')']])
  | call callee arguments => callee.words ++ ['('] :: (fieldWords arguments ++ [[')']])
  | reference isMut operand => ['&'] :: ((if isMut then [['m', 'u', 't']] else []) ++ operand.words)
  | binary left operator right => left.words ++ operator :: right.words

def fieldWords : List Expression → List Text
  | [] => []
  | e :: more => e.words ++ furtherWords more

def furtherWords : List Expression → List Text
  | [] => []
  | e :: more => [','] :: (e.words ++ furtherWords more)

def trailingComma : List Expression → List Text
  | [_] => [[',']]
  | _ => []

end

def print (e : Expression) : Text := Text.spaced e.words

open Lexeme

def isLiteral (text : Text) : Bool := isWord text && Rule.literalFirst.contains (kindOf text)

def isIdent (text : Text) : Bool := isWord text && kindOf text == .ident

mutual

/-- Literals and names are words of their kinds, and every operand is tight enough for where it
stands. -/
def wellFormed : Expression → Bool
  | literal text => isLiteral text
  | path first more => isIdent first && more.all isIdent
  | tuple fields => allWellFormed fields
  | paren inner => inner.wellFormed
  | call callee arguments =>
      callee.wellFormed && callee.kind != .binaryExpr && callee.kind != .refExpr &&
        allWellFormed arguments
  | reference _ operand => operand.wellFormed && operand.kind != .binaryExpr
  | binary left operator right =>
      left.wellFormed && right.wellFormed &&
        match operatorLevel? operator with
        | none => false
        | some level => left.level?.all (level ≤ ·) && right.level?.all (level < ·)

def allWellFormed : List Expression → Bool
  | [] => true
  | e :: more => e.wellFormed && allWellFormed more

end

theorem allWellFormed_iff (fields : List Expression) :
    allWellFormed fields = true ↔ ∀ e ∈ fields, e.wellFormed = true := by
  induction fields with
  | nil => simp [allWellFormed]
  | cons e more ih => simp [allWellFormed, ih]

theorem wellFormed_binary {left right : Expression} {operator : Text} :
    (binary left operator right).wellFormed = true ↔
      left.wellFormed = true ∧ right.wellFormed = true ∧
        ∃ level, operatorLevel? operator = some level ∧ (∀ own ∈ left.level?, level ≤ own) ∧
          ∀ own ∈ right.level?, level < own := by
  rw [wellFormed]
  cases operatorLevel? operator <;> simp [Option.all_eq_true, and_assoc]

theorem word_of_operator {operator : Text} {level : Nat} (found : operatorLevel? operator = some level) :
    isWord operator = true ∧ kindOf operator = .binaryOperator := by
  obtain ⟨before, after, split, -⟩ := List.lookup_eq_some_iff.mp found
  have each : ∀ entry ∈ before ++ (operator, level) :: after,
      isWord entry.1 = true ∧ kindOf entry.1 = .binaryOperator := by
    rw [← split]
    decide +kernel
  exact each (operator, level) (by simp)

theorem words_ne_nil (e : Expression) : e.words ≠ [] := by
  cases e <;> simp [words]

section Fields

variable {fields : List Expression} (each : ∀ e ∈ fields, ∀ w ∈ e.words, isWord w = true)
include each

theorem isWord_furtherWords : ∀ w ∈ furtherWords fields, isWord w = true := by
  induction fields with
  | nil => simp [furtherWords]
  | cons e more ih =>
      obtain ⟨here, behind⟩ := List.forall_mem_cons.mp each
      rw [furtherWords, List.forall_mem_cons, List.forall_mem_append]
      exact ⟨by decide +kernel, here, ih behind⟩

theorem isWord_fieldWords : ∀ w ∈ fieldWords fields, isWord w = true := by
  cases fields with
  | nil => simp [fieldWords]
  | cons e more =>
      obtain ⟨here, behind⟩ := List.forall_mem_cons.mp each
      rw [fieldWords, List.forall_mem_append]
      exact ⟨here, isWord_furtherWords behind⟩

end Fields

theorem isWord_trailingComma (fields : List Expression) :
    ∀ w ∈ trailingComma fields, isWord w = true := by
  have comma : isWord [','] = true := by decide +kernel
  unfold trailingComma
  split <;> simp [comma]

theorem isWord_words {e : Expression} (formed : e.wellFormed = true) :
    ∀ w ∈ e.words, isWord w = true := by
  have opening : isWord ['('] = true := by decide +kernel
  have closing : isWord [')'] = true := by decide +kernel
  induction e using induct with
  | literal text =>
      rw [wellFormed, isLiteral, Bool.and_eq_true] at formed
      simpa [words] using formed.1
  | path first more =>
      have colons : isWord [':', ':'] = true := by decide +kernel
      simp only [wellFormed, isIdent, Bool.and_eq_true, List.all_eq_true] at formed
      rw [words, List.forall_mem_cons, List.forall_mem_flatMap]
      refine ⟨formed.1.1, fun segment mem => ?_⟩
      simpa [colons] using (formed.2 segment mem).1
  | tuple fields ih =>
      rw [wellFormed, allWellFormed_iff] at formed
      have inside := isWord_fieldWords fun e mem => ih e mem (formed e mem)
      simp only [words, List.forall_mem_cons, List.forall_mem_append]
      exact ⟨opening, ⟨inside, isWord_trailingComma fields⟩, closing, by simp⟩
  | paren inner ih =>
      simp only [words, List.forall_mem_cons, List.forall_mem_append]
      exact ⟨opening, ih formed, closing, by simp⟩
  | call callee arguments ih each =>
      simp only [wellFormed, Bool.and_eq_true, allWellFormed_iff] at formed
      have inside := isWord_fieldWords fun e mem => each e mem (formed.2 e mem)
      simp only [words, List.forall_mem_cons, List.forall_mem_append]
      exact ⟨ih formed.1.1.1, opening, inside, closing, by simp⟩
  | reference isMut operand ih =>
      rw [wellFormed, Bool.and_eq_true] at formed
      have mutable : ∀ w ∈ (if isMut then [['m', 'u', 't']] else []), isWord w = true := by
        cases isMut <;> simp
        decide +kernel
      simp only [words, List.forall_mem_cons, List.forall_mem_append]
      exact ⟨by decide +kernel, mutable, ih formed.1⟩
  | binary left operator right ih ih' =>
      obtain ⟨left_, right_, level, found, -⟩ := wellFormed_binary.mp formed
      simp only [words, List.forall_mem_cons, List.forall_mem_append]
      exact ⟨ih left_, (word_of_operator found).1, ih' right_⟩

end Expression

end LosslessTree
