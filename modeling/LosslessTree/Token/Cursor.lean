import LosslessTree.Token.Lexer
import LosslessTree.Tree.Assembly

/-!
# Reading through a cursor

A scanner reads the tokens of a text character by character. Its cursor shows NUL at the end of the text,
where a NUL in the text looks the same, and knows offsets only as differences of lengths, which may not
fall below zero.
-/

set_option autoImplicit false

namespace LosslessTree

inductive ScanError where
  -- A text is longer than offsets reach.
  | overflow
  -- The difference of two offsets is below zero.
  | underflow
  -- A round of a loop reads nothing, so there is no end of rounds.
  | endless
  deriving DecidableEq, Repr

def Text.extent (t : Text) : Except ScanError Nat :=
  if t.byteLength < Assembly.offsetLimit then .ok t.byteLength else .error .overflow

def Text.less (n m : Nat) : Except ScanError Nat :=
  if m ≤ n then .ok (n - m) else .error .underflow

structure Cursor where
  rest : Text
  -- How many bytes were still to be read where the current piece began.
  mark : Nat
  deriving DecidableEq, Repr

namespace Cursor

def endMark : Char := '\x00'

def atEnd (c : Cursor) : Bool := c.rest.isEmpty

def peek (c : Cursor) : Char := c.rest.headD endMark

def second (c : Cursor) : Char := c.rest.tail.headD endMark

def sees (c : Cursor) (x : Char) : Bool := !c.atEnd && c.peek == x

def advance (c : Cursor) : Cursor := { c with rest := c.rest.tail }

def eat (c : Cursor) (x : Char) : Cursor := if c.sees x then c.advance else c

section

variable {rest : Text} {mark : Nat} {x : Char}

@[simp] theorem atEnd_nil : (⟨[], mark⟩ : Cursor).atEnd = true := rfl

@[simp] theorem atEnd_cons : (⟨x :: rest, mark⟩ : Cursor).atEnd = false := rfl

@[simp] theorem peek_nil : (⟨[], mark⟩ : Cursor).peek = endMark := rfl

@[simp] theorem peek_cons : (⟨x :: rest, mark⟩ : Cursor).peek = x := rfl

@[simp] theorem second_cons : (⟨x :: rest, mark⟩ : Cursor).second = (⟨rest, mark⟩ : Cursor).peek :=
  rfl

@[simp] theorem sees_nil (y : Char) : (⟨[], mark⟩ : Cursor).sees y = false := rfl

@[simp] theorem sees_cons (y : Char) : (⟨x :: rest, mark⟩ : Cursor).sees y = (x == y) := rfl

@[simp] theorem advance_nil : (⟨[], mark⟩ : Cursor).advance = ⟨[], mark⟩ := rfl

@[simp] theorem advance_cons : (⟨x :: rest, mark⟩ : Cursor).advance = ⟨rest, mark⟩ := rfl

end

theorem advance_length {c : Cursor} (more : c.atEnd = false) :
    c.advance.rest.length < c.rest.length := by
  have pos : c.rest.length ≠ 0 := by simpa [atEnd] using more
  rw [advance, List.length_tail]
  omega

theorem advance_length_le (c : Cursor) : c.advance.rest.length ≤ c.rest.length := by
  rw [advance, List.length_tail]
  omega

theorem atEnd_of_peek {c : Cursor} (other : c.peek ≠ endMark) : c.atEnd = false := by
  cases rest : c.rest with
  | nil => simp [peek, rest] at other
  | cons x rest' => simp [atEnd, rest]

def advanceWhile (p : Char → Bool) (c : Cursor) : Cursor :=
  if _more : (!c.atEnd && p c.peek) = true then advanceWhile p c.advance else c
termination_by c.rest.length
decreasing_by
  simp only [Bool.and_eq_true, Bool.not_eq_true'] at _more
  exact advance_length _more.1

def left (c : Cursor) : Except ScanError Nat := c.rest.extent

def pieceLength (c : Cursor) : Except ScanError Nat := do Text.less c.mark (← c.left)

def offset (text : Text) (c : Cursor) : Except ScanError Nat := do
  Text.less (← text.extent) (← c.left)

def span (text : Text) (c : Cursor) : Except ScanError Span := do
  let length ← c.pieceLength
  let start ← Text.less (← c.offset text) length
  return ⟨start, start + length⟩

def piece? (side : Side) (c : Cursor) : Except ScanError (Option (TriviaKind × Cursor)) :=
  if c.atEnd then .ok none
  else if c.peek = '\n' then
    match side with
    | .leading => .ok (some (.newline, c.advance))
    | .trailing => .ok none
  else if c.peek = '\r' ∧ c.second = '\n' then
    match side with
    | .leading => .ok (some (.newline, c.advance.advance))
    | .trailing => .ok none
  else if c.peek = '/' ∧ c.second = '/' then
    .ok (some (.comment, c.advanceWhile fun x => !Trivia.endsComment x))
  else if Unicode.isBlank c.peek then do
    let behind := c.advanceWhile Trivia.isInline
    -- A carriage return alone is a blank of its own.
    return some (.whitespace, if (← behind.pieceLength) = 0 then behind.advance else behind)
  else .ok none

def trivia (side : Side) (c : Cursor) : Except ScanError (List Piece × Cursor) := do
  match ← c.piece? side with
  | none => return ([], c)
  | some (k, behind) =>
      let length ← behind.pieceLength
      let left ← behind.left
      if _shorter : behind.rest.length < c.rest.length then
        let (pieces, last) ← trivia side { behind with mark := left }
        return (⟨k, length⟩ :: pieces, last)
      else .error .endless
termination_by c.rest.length

def either (c : Cursor) (x : Char) (long short : Kind) : Kind × Cursor :=
  if c.sees x then (long, c.advance) else (short, c)

def string (c : Cursor) : Cursor :=
  if _ended : c.atEnd = true then c
  else if c.peek = '"' then c.advance
  else if c.peek = '\\' then string c.advance.advance
  else string c.advance
termination_by c.rest.length
decreasing_by
  · have := advance_length (Bool.eq_false_iff.mpr _ended)
    have := advance_length_le c.advance
    omega
  · exact advance_length (Bool.eq_false_iff.mpr _ended)

def digits (isDigit : Char → Bool) (c : Cursor) : Cursor :=
  if _more : (isDigit c.peek && c.peek != endMark) = true then digits isDigit c.advance else c
termination_by c.rest.length
decreasing_by
  simp only [Bool.and_eq_true, bne_iff_ne] at _more
  exact advance_length (atEnd_of_peek _more.2)

def exponent (c : Cursor) : Cursor :=
  if c.sees 'e' || c.sees 'E' then
    let sign := c.advance
    (if sign.sees '-' then sign.advance else sign.eat '+').digits Lexeme.isDecimal
  else c

def fraction (c : Cursor) : Kind × Cursor :=
  if c.sees '.' && Lexeme.isDigit c.second then
    (.floatNumber, (c.advance.digits Lexeme.isDecimal).exponent)
  else if c.sees 'e' || c.sees 'E' then (.floatNumber, c.exponent)
  else (.intNumber, c)

def number (first : Char) (c : Cursor) : Kind × Cursor :=
  if first = '0' then
    if c.peek = 'b' ∨ c.peek = 'o' then (c.advance.digits Lexeme.isDecimal).fraction
    else if c.peek = 'x' then (c.advance.digits Lexeme.isHex).fraction
    else if Lexeme.isDecimal c.peek ∨ c.peek = '.' ∨ c.peek = 'e' ∨ c.peek = 'E' then
      (c.digits Lexeme.isDecimal).fraction
    else (.intNumber, c)
  else (c.digits Lexeme.isDecimal).fraction

def word (text : Text) (c : Cursor) : Except ScanError (Kind × Cursor) := do
  let behind := c.advanceWhile Lexeme.isIdentContinue
  return (Lexeme.wordKind (text.slice (← behind.span text)), behind)

-- The kind of the lexeme under the cursor, which is not at the end, and the cursor behind it.
def lexeme (text : Text) (here : Cursor) : Except ScanError (Kind × Cursor) :=
  let first := here.peek
  let c := here.advance
  match first with
  | '(' => .ok (.leftParen, c)
  | ')' => .ok (.rightParen, c)
  | '[' => .ok (.leftBracket, c)
  | ']' => .ok (.rightBracket, c)
  | '\x7b' => .ok (.leftBrace, c)
  | '\x7d' => .ok (.rightBrace, c)
  | ',' => .ok (.comma, c)
  | ';' => .ok (.semicolon, c)
  | '#' => .ok (.hash, c)
  | ':' => .ok (c.either ':' .doubleColon .colon)
  | '.' => .ok (c.either '.' .doubleDot .dot)
  | '=' => .ok (c.either '=' .binaryOperator .equal)
  | '!' => .ok (c.either '=' .binaryOperator .bang)
  | '-' => .ok (c.either '>' .arrow .binaryOperator)
  | '&' => .ok (c.either '&' .binaryOperator .ampersand)
  | '|' => .ok (.binaryOperator, c.eat '|')
  | '<' | '>' => .ok (.binaryOperator, c.eat '=')
  | '+' | '*' | '/' | '%' | '^' => .ok (.binaryOperator, c)
  | '"' => .ok (.stringLiteral, c.string)
  | _ =>
      if Lexeme.isDigit first then .ok (c.number first)
      else if Lexeme.isIdentStart first then c.word text
      else .ok (.unknown, c)

def token (text : Text) (c : Cursor) : Except ScanError (Kind × Span × Cursor) :=
  if c.atEnd then do return (.eof, .empty (← c.offset text), c)
  else do
    let (kind, behind) ← c.lexeme text
    let span ← behind.span text
    return (kind, span, { behind with mark := ← behind.left })

end Cursor

structure Scanned where
  leading : List Piece
  kind : Kind
  span : Span
  trailing : List Piece
  deriving DecidableEq, Repr

def Scanned.eofAt (offset : Nat) : Scanned := ⟨[], .eof, .empty offset, []⟩

def Scanned.fullSpan (t : Scanned) : Except ScanError Span := do
  return ⟨← Text.less t.span.start (Piece.lengthOf t.leading), t.span.stop + Piece.lengthOf t.trailing⟩

structure Scanner where
  text : Text
  cursor : Cursor
  current : Scanned
  deriving DecidableEq, Repr

namespace Scanner

def next (s : Scanner) : Except ScanError (Scanned × Scanner) := do
  let (leading, c) ← s.cursor.trivia .leading
  let (kind, span, c) ← c.token s.text
  let (trailing, c) ← if kind = .eof then pure ([], c) else c.trivia .trailing
  return (s.current, { s with cursor := c, current := ⟨leading, kind, span, trailing⟩ })

def start (text : Text) : Except ScanError Scanner := do
  let (_, s) ← next ⟨text, ⟨text, ← text.extent⟩, .eofAt 0⟩
  return s

def calls : Nat → Scanner → Except ScanError (List Scanned)
  | 0, _ => .ok []
  | n + 1, s => do
      let (t, s) ← s.next
      return t :: (← calls n s)

def answer (s : Scanner) : Lexer.Call → Except ScanError (Option Scanned × Scanner)
  | .peek => .ok (some s.current, s)
  | .take => do
      let (t, s) ← s.next
      return (some t, s)
  | .next =>
      if s.current.kind = .eof then .ok (none, s)
      else do
        let (t, s) ← s.next
        return (some t, s)

def answers : List Lexer.Call → Scanner → Except ScanError (List (Option Scanned))
  | [], _ => .ok []
  | c :: calls, s => do
      let (a, s) ← s.answer c
      return a :: (← answers calls s)

end Scanner

end LosslessTree
