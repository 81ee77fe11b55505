import LosslessTree.Kind.Category
import LosslessTree.Proofs.Grammar.Form
import LosslessTree.Tree.Forest

set_option autoImplicit false

namespace LosslessTree

namespace Form

abbrev Matches (f : Form Empty) (w : List Kind) : Prop := f.Derives Empty.elim w

def category (c : Category) : Form Empty := oneOf c.members.toList

-- What is there in a broken text only.
def spoilt (broken : Bool) (a : Form Empty) : Form Empty := if broken then a else oneOf []

-- A part that may be missing.
def due (broken : Bool) (a : Form Empty) : Form Empty := alt a (spoilt broken empty)

-- A part that may be missing, or be an error node.
def part (broken : Bool) (a : Form Empty) : Form Empty :=
  alt a (spoilt broken (opt (token .error)))

-- Elements with a separator behind each.
def separated (broken : Bool) (element : Form Empty) : Form Empty :=
  many (alt (row [element, token .comma]) (spoilt broken (alt element (token .error))))

-- A bracketed list with a separator behind each element but perhaps the last.
def brackets (broken : Bool) (opening closing : Kind) (element : Form Empty) : Form Empty :=
  row [token opening, separated broken element, opt element, due broken (token closing)]

def preludeShape : Form Empty := row [many (token .attr), opt (token .visibility)]

def begunPrelude : Form Empty := alt (row [token .attr, preludeShape]) (token .visibility)

def itemShape (broken : Bool) : Form Empty := alt (category .item) (spoilt broken (token .error))

def typeBehind (broken : Bool) (separator : Kind) : Form Empty :=
  row [token separator, due broken (category .type)]

def initializerShape (broken : Bool) : Form Empty :=
  opt (row [token .equal, part broken (category .expr)])

def statementShape (broken : Bool) : Form Empty :=
  alt (itemShape broken) (oneOf [.semicolon, .letStmt, .exprStmt])

theorem itemShape_full {broken : Bool} : (itemShape broken).nullable = false := by
  cases broken <;> rfl

theorem statementShape_full {broken : Bool} : (statementShape broken).nullable = false := by
  cases broken <;> rfl

section Matching

variable {broken : Bool} {a : Form Empty} {w : List Kind}

theorem derives_spoilt : (spoilt broken a).Matches w ↔ broken = true ∧ a.Matches w := by
  cases broken <;> simp [spoilt]

theorem derives_due : (due broken a).Matches w ↔ a.Matches w ∨ broken = true ∧ w = [] := by
  simp [due, derives_spoilt]

theorem derives_part : (part broken a).Matches w ↔
    a.Matches w ∨ broken = true ∧ (w = [.error] ∨ w = []) := by
  simp [part, derives_spoilt]

theorem Derives.due (h : a.Matches w) : (due broken a).Matches w := .left h

theorem missing (isBroken : broken = true) : (due broken a).Matches [] :=
  derives_due.mpr (.inr ⟨isBroken, rfl⟩)

theorem Derives.part (h : a.Matches w) : (part broken a).Matches w := .left h

end Matching

end Form

open Form in
def Kind.shape (broken : Bool) : Kind → Form Empty
  | sourceFile => row [many (token .attr), many (itemShape broken), token .eof]
  | attr => row [token .hash, opt (token .bang),
      due broken (row [token .leftBracket, due broken (token .path),
        due broken (token .rightBracket)])]
  | visibility => token .pubKw
  | fnItem => row [preludeShape, token .fnKw, part broken (token .name),
      due broken (token .paramList), opt (token .retType),
      due broken (oneOf [.semicolon, .blockExpr])]
  | structItem => row [preludeShape, token .structKw, part broken (token .name),
      due broken (oneOf [.fieldList, .semicolon])]
  | constItem => row [preludeShape, token .constKw, part broken (token .name),
      due broken (typeBehind broken .colon), initializerShape broken,
      due broken (token .semicolon)]
  | useItem => row [preludeShape, token .useKw, due broken (token .path),
      due broken (token .semicolon)]
  | modItem => row [preludeShape, token .modKw, part broken (token .name),
      due broken (oneOf [.itemList, .semicolon])]
  | itemList => row [token .leftBrace, many (itemShape broken), due broken (token .rightBrace)]
  | name => token .ident
  | nameRef => token .ident
  | path => row [token .nameRef, many (row [token .doubleColon, token .nameRef]),
      opt (spoilt broken (token .doubleColon))]
  | paramList => brackets broken .leftParen .rightParen (token .param)
  | param => row [category .pat, due broken (typeBehind broken .colon)]
  | retType => row [token .arrow, due broken (category .type)]
  | fieldList => brackets broken .leftBrace .rightBrace (token .field)
  | field => alt (row [begunPrelude, part broken (token .name), due broken (typeBehind broken .colon)])
      (row [token .name, due broken (typeBehind broken .colon)])
  | blockExpr => row [token .leftBrace, many (statementShape broken),
      due broken (row [opt (category .expr), token .rightBrace])]
  | letStmt => row [token .letKw, part broken (category .pat), opt (typeBehind broken .colon),
      initializerShape broken, due broken (token .semicolon)]
  | exprStmt => alt (row [category .expr, token .semicolon])
      (alt (token .blockExpr) (spoilt broken (category .expr)))
  | identPat => alt (row [token .refKw, opt (token .mutKw), part broken (token .name)])
      (alt (row [token .mutKw, part broken (token .name)]) (token .name))
  | wildcardPat => token .underscore
  | tuplePat => brackets broken .leftParen .rightParen (category .pat)
  | refPat => row [token .ampersand, opt (token .mutKw), part broken (category .pat)]
  | literalPat => token .literal
  | restPat => token .doubleDot
  | pathType => token .path
  | tupleType => brackets broken .leftParen .rightParen (category .type)
  | refType => row [token .ampersand, opt (token .mutKw), due broken (category .type)]
  | literal => oneOf [.intNumber, .floatNumber, .stringLiteral, .trueKw, .falseKw]
  | pathExpr => token .path
  | tupleExpr => alt (row [token .leftParen, token .rightParen])
      (row [token .leftParen, part broken (category .expr),
        many (row [token .comma, part broken (category .expr)]), opt (token .comma),
        due broken (token .rightParen)])
  | parenExpr => row [token .leftParen, part broken (category .expr),
      due broken (token .rightParen)]
  | binaryExpr => row [category .expr, token .binaryOperator, part broken (category .expr)]
  | callExpr => row [category .expr, token .argList]
  | argList => brackets broken .leftParen .rightParen (category .expr)
  | refExpr => row [token .ampersand, opt (token .mutKw), part broken (category .expr)]
  | error => spoilt broken (alt (row [token .attr, preludeShape]) (oneOf Kind.all))
  | _ => empty

-- No node is empty.
theorem Kind.shape_full {broken : Bool} {k : Kind} (isNode : k.isNode = true) :
    (k.shape broken).nullable = false := by
  revert isNode
  cases broken <;> cases k <;> decide

theorem Category.isNode_of_contains {c : Category} {k : Kind} (h : c.members.contains k = true) :
    k.isNode = true := by
  revert h
  cases c <;> cases k <;> decide

theorem Kind.ne_tombstone {k : Kind} (isNode : k.isNode = true) : k ≠ .tombstone := by
  rintro rfl
  cases isNode

namespace Forest

def tops : Forest → List Kind
  | nil => []
  | leaf l rest => l.kind :: tops rest
  | node k _ rest => k :: tops rest

@[simp] theorem tops_append (f g : Forest) : (f ++ g).tops = f.tops ++ g.tops := by
  induction f with
  | nil => rfl
  | leaf l rest ih => simp [tops, ih]
  | node k inner rest _ ih => simp [tops, ih]

variable {broken : Bool}

def Shaped (broken : Bool) : Forest → Prop
  | nil => True
  | leaf _ rest => rest.Shaped broken
  | node k inner rest => k.isNode = true ∧ (k.shape broken).Matches inner.tops ∧
      inner.Shaped broken ∧ rest.Shaped broken

@[simp] theorem shaped_append (f g : Forest) :
    (f ++ g).Shaped broken ↔ f.Shaped broken ∧ g.Shaped broken := by
  induction f with
  | nil => simp [Shaped]
  | leaf l rest ih => simp [Shaped, ih]
  | node k inner rest _ ih => simp [Shaped, ih, and_assoc]

theorem Shaped.leaves_ne_nil {f : Forest} (h : f.Shaped broken) (some : f.tops ≠ []) :
    f.leaves ≠ [] := by
  induction f with
  | nil => exact absurd rfl some
  | leaf => simp [leaves]
  | node k inner rest ih _ =>
      obtain ⟨isNode, fits, shaped, _⟩ := h
      simp [leaves, ih shaped (fits.ne_nil (Kind.shape_full isNode))]

theorem eq_nil_of_tops {f : Forest} (h : f.tops = []) : f = nil := by
  cases f with
  | nil => rfl
  | leaf => cases h
  | node => cases h

theorem eq_node_of_tops {f : Forest} {k : Kind} (plain : ∀ l ∈ f.leaves, l.kind.isNode = false)
    {ks : List Kind} (h : f.tops = k :: ks) (isNode : k.isNode = true) :
    ∃ inner rest, f = .node k inner rest ∧ rest.tops = ks := by
  cases f with
  | nil => cases h
  | leaf l rest =>
      obtain ⟨rfl, _⟩ := List.cons.inj h
      rw [plain l List.mem_cons_self] at isNode
      cases isNode
  | node k' inner rest =>
      obtain ⟨rfl, rfl⟩ := List.cons.inj h
      exact ⟨inner, rest, rfl, rfl⟩

theorem eq_leaf_of_tops {f : Forest} {k : Kind} {ks : List Kind} (shaped : f.Shaped broken)
    (h : f.tops = k :: ks) (isToken : k.isNode = false) :
    ∃ l rest, f = .leaf l rest ∧ l.kind = k ∧ rest.tops = ks := by
  cases f with
  | nil => cases h
  | leaf l rest =>
      obtain ⟨rfl, rfl⟩ := List.cons.inj h
      exact ⟨l, rest, rfl, rfl, rfl⟩
  | node k' inner rest =>
      obtain ⟨rfl, _⟩ := List.cons.inj h
      rw [shaped.1] at isToken
      cases isToken

end Forest

end LosslessTree
