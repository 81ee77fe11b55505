import LosslessTree.Text.Basic

set_option autoImplicit false

namespace LosslessTree

inductive Kind where
  -- tokens
  | leftParen | rightParen | leftBracket | rightBracket | leftBrace | rightBrace | comma
  | semicolon | colon | doubleColon | equal | dot | doubleDot | ampersand | hash | bang | arrow
  | underscore | binaryOperator | fnKw | letKw | mutKw | refKw | structKw | constKw | useKw
  | modKw | pubKw | trueKw | falseKw | ident | intNumber | floatNumber | stringLiteral
  | whitespace | newline | lineComment | unknown | eof | tombstone
  -- productions
  | sourceFile | attr | visibility | fnItem | structItem | constItem | useItem | modItem
  | itemList | name | nameRef | path | paramList | param | retType | fieldList | field
  | blockExpr | letStmt | exprStmt | identPat | wildcardPat | tuplePat | refPat | literalPat
  | restPat | pathType | tupleType | refType | literal | pathExpr | tupleExpr | parenExpr
  | binaryExpr | callExpr | argList | refExpr | error
  deriving DecidableEq, Repr, Inhabited

namespace Kind

def index (k : Kind) : Nat := k.ctorIdx

def all : List Kind :=
  [.leftParen, .rightParen, .leftBracket, .rightBracket, .leftBrace, .rightBrace, .comma,
   .semicolon, .colon, .doubleColon, .equal, .dot, .doubleDot, .ampersand, .hash, .bang, .arrow,
   .underscore, .binaryOperator, .fnKw, .letKw, .mutKw, .refKw, .structKw, .constKw, .useKw,
   .modKw, .pubKw, .trueKw, .falseKw, .ident, .intNumber, .floatNumber, .stringLiteral,
   .whitespace, .newline, .lineComment, .unknown, .eof, .tombstone, .sourceFile, .attr,
   .visibility, .fnItem, .structItem, .constItem, .useItem, .modItem, .itemList, .name, .nameRef,
   .path, .paramList, .param, .retType, .fieldList, .field, .blockExpr, .letStmt, .exprStmt,
   .identPat, .wildcardPat, .tuplePat, .refPat, .literalPat, .restPat, .pathType, .tupleType,
   .refType, .literal, .pathExpr, .tupleExpr, .parenExpr, .binaryExpr, .callExpr, .argList,
   .refExpr, .error]

theorem index_lt (k : Kind) : k.index < 78 := by cases k <;> decide

theorem all_getElem?_index (k : Kind) : all[k.index]? = some k := by cases k <;> rfl

theorem mem_all (k : Kind) : k ∈ all := List.mem_of_getElem? (all_getElem?_index k)

theorem index_injective {a b : Kind} (h : a.index = b.index) : a = b := by
  have ha := all_getElem?_index a
  rw [h, all_getElem?_index b] at ha
  exact (Option.some.inj ha).symm

def ofIndex? (n : Nat) : Option Kind := all[n]?

def isNode (k : Kind) : Bool := sourceFile.index ≤ k.index

def isTrivia : Kind → Bool
  | whitespace | newline | lineComment => true
  | _ => false

def nodes : List Kind := all.filter isNode

def keywords : List (Text × Kind) :=
  [(['f', 'n'], fnKw), (['l', 'e', 't'], letKw), (['m', 'u', 't'], mutKw),
   (['r', 'e', 'f'], refKw), (['s', 't', 'r', 'u', 'c', 't'], structKw),
   (['c', 'o', 'n', 's', 't'], constKw), (['u', 's', 'e'], useKw), (['m', 'o', 'd'], modKw),
   (['p', 'u', 'b'], pubKw), (['t', 'r', 'u', 'e'], trueKw), (['f', 'a', 'l', 's', 'e'], falseKw)]

def ofKeyword? (word : Text) : Option Kind := keywords.lookup word

def isKeyword (k : Kind) : Bool := keywords.any fun entry => entry.2 == k

end Kind

end LosslessTree
