import LosslessTree.Kind.Basic
import LosslessTree.Unicode.Letter

set_option autoImplicit false

namespace LosslessTree.Lexeme

-- The fixed spellings; one that extends another stands before it.
def fixed : List (Text × Kind) :=
  [([':', ':'], .doubleColon), (['.', '.'], .doubleDot), (['-', '>'], .arrow),
   (['=', '='], .binaryOperator), (['!', '='], .binaryOperator), (['&', '&'], .binaryOperator),
   (['|', '|'], .binaryOperator), (['<', '='], .binaryOperator), (['>', '='], .binaryOperator),
   (['('], .leftParen), ([')'], .rightParen), (['['], .leftBracket), ([']'], .rightBracket),
   (['\x7b'], .leftBrace), (['\x7d'], .rightBrace), ([','], .comma), ([';'], .semicolon),
   (['#'], .hash), ([':'], .colon), (['.'], .dot), (['='], .equal), (['!'], .bang),
   (['&'], .ampersand), (['|'], .binaryOperator), (['<'], .binaryOperator),
   (['>'], .binaryOperator), (['+'], .binaryOperator), (['-'], .binaryOperator),
   (['*'], .binaryOperator), (['/'], .binaryOperator), (['%'], .binaryOperator),
   (['^'], .binaryOperator)]

def fixed? (t : Text) : Option (Kind × Nat) :=
  (fixed.find? fun entry => entry.1.isPrefixOf t).map fun entry => (entry.2, entry.1.length)

/-- Characters of a string behind its opening quote, the closing one included. A backslash takes
the next character with it; a string that is not closed runs to the end of the text. -/
def stringLength : Text → Nat
  | [] => 0
  | '"' :: _ => 1
  | ['\\'] => 1
  | '\\' :: _ :: rest => 2 + stringLength rest
  | _ :: rest => 1 + stringLength rest

def isDigit (c : Char) : Bool := '0' ≤ c && c ≤ '9'

def isDecimal (c : Char) : Bool := isDigit c || c == '_'

def isHex (c : Char) : Bool :=
  isDecimal c || ('a' ≤ c && c ≤ 'f') || ('A' ≤ c && c ≤ 'F')

def decimalLength (t : Text) : Nat := (t.takeWhile isDecimal).length

def exponentLength : Text → Nat
  | [] => 0
  | e :: rest =>
      if e == 'e' || e == 'E' then
        match rest with
        | '+' :: more | '-' :: more => 2 + decimalLength more
        | _ => 1 + decimalLength rest
      else 0

-- Characters of the whole part of a number behind its first digit. Only a leading zero takes a
-- base letter.
def wholeLength (first : Char) (rest : Text) : Nat :=
  match rest with
  | base :: more =>
      if first == '0' && (base == 'b' || base == 'o') then 1 + decimalLength more
      else if first == '0' && base == 'x' then 1 + (more.takeWhile isHex).length
      else decimalLength rest
  | [] => 0

-- Characters of a fraction with its exponent, or of an exponent alone. A point counts only in
-- front of a digit.
def fractionLength : Text → Nat
  | '.' :: d :: rest =>
      if isDigit d then
        let digits := decimalLength (d :: rest)
        1 + digits + exponentLength ((d :: rest).drop digits)
      else 0
  | t => exponentLength t

def number (first : Char) (rest : Text) : Kind × Nat :=
  let whole := wholeLength first rest
  match fractionLength (rest.drop whole) with
  | 0 => (.intNumber, 1 + whole)
  | n => (.floatNumber, 1 + whole + n)

def isIdentStart (c : Char) : Bool := c == '_' || Unicode.isAlphabetic c

def isIdentContinue (c : Char) : Bool := c == '_' || Unicode.isAlphanumeric c

def wordKind (word : Text) : Kind :=
  if word == ['_'] then .underscore else (Kind.ofKeyword? word).getD .ident

def word (first : Char) (rest : Text) : Kind × Nat :=
  let text := first :: rest.takeWhile isIdentContinue
  (wordKind text, text.length)

-- Lexemes without a fixed spelling; a character that starts none is one on its own.
def free (first : Char) (rest : Text) : Kind × Nat :=
  if first == '"' then (.stringLiteral, 1 + stringLength rest)
  else if isDigit first then number first rest
  else if isIdentStart first then word first rest
  else (.unknown, 1)

def measure : Text → Option (Kind × Nat)
  | [] => none
  | first :: rest => some ((fixed? (first :: rest)).getD (free first rest))

theorem fixed_pos : ∀ entry ∈ fixed, 0 < entry.1.length := by decide

theorem fixed?_pos {t : Text} {k : Kind} {n : Nat} (h : fixed? t = some (k, n)) : 0 < n := by
  simp only [fixed?, Option.map_eq_some_iff, Prod.mk.injEq] at h
  obtain ⟨entry, found, -, rfl⟩ := h
  exact fixed_pos entry (List.mem_of_find?_eq_some found)

theorem number_pos (first : Char) (rest : Text) : 0 < (number first rest).2 := by
  simp only [number]
  split <;> simp only <;> omega

theorem free_pos (first : Char) (rest : Text) : 0 < (free first rest).2 := by
  unfold free
  repeat' split
  · simp only; omega
  · exact number_pos first rest
  · simp [word]
  · decide

theorem measure_eq_none_iff (t : Text) : measure t = none ↔ t = [] := by
  cases t <;> simp [measure]

theorem measure_pos {t : Text} {k : Kind} {n : Nat} (h : measure t = some (k, n)) :
    t ≠ [] ∧ 0 < n := by
  cases t with
  | nil => simp [measure] at h
  | cons first rest =>
      refine ⟨by simp, ?_⟩
      simp only [measure, Option.some.injEq] at h
      cases found : fixed? (first :: rest) with
      | none => have := free_pos first rest; simp_all
      | some entry =>
          rw [found, Option.getD_some] at h
          exact fixed?_pos (h ▸ found)

-- Kinds that a lexeme can have: neither trivia nor productions, nor the end of the file.
def isLexeme (k : Kind) : Bool := !k.isTrivia && !k.isNode && k != .eof && k != .tombstone

theorem fixed_isLexeme : ∀ entry ∈ fixed, isLexeme entry.2 = true := by decide

theorem keyword_isLexeme : ∀ entry ∈ Kind.keywords, isLexeme entry.2 = true := by decide

theorem mem_of_ofKeyword? {text : Text} {k : Kind} (h : Kind.ofKeyword? text = some k) :
    (text, k) ∈ Kind.keywords := by
  obtain ⟨before, after, split, -⟩ := List.lookup_eq_some_iff.mp h
  rw [split]
  simp

theorem wordKind_isLexeme (text : Text) : isLexeme (wordKind text) = true := by
  unfold wordKind
  split
  · rfl
  · cases found : Kind.ofKeyword? text with
    | none => rfl
    | some k => exact keyword_isLexeme (text, k) (mem_of_ofKeyword? found)

theorem free_isLexeme (first : Char) (rest : Text) : isLexeme (free first rest).1 = true := by
  unfold free
  repeat' split
  · rfl
  · simp only [number]
    split <;> rfl
  · exact wordKind_isLexeme _
  · rfl

theorem measure_isLexeme {t : Text} {k : Kind} {n : Nat} (h : measure t = some (k, n)) :
    isLexeme k = true := by
  cases t with
  | nil => simp [measure] at h
  | cons first rest =>
      simp only [measure, Option.some.injEq] at h
      cases found : fixed? (first :: rest) with
      | none => have := free_isLexeme first rest; simp_all
      | some entry =>
          simp only [fixed?, Option.map_eq_some_iff] at found
          obtain ⟨e, he, rfl⟩ := found
          have := fixed_isLexeme e (List.mem_of_find?_eq_some he)
          simp_all [fixed?]

end LosslessTree.Lexeme
