import LosslessTree.Grammar.Item
import LosslessTree.Proofs.Grammar.Form

set_option autoImplicit false

namespace LosslessTree

namespace Form

variable {σ : Type}

def commaSeparated (element : Form σ) : Form σ :=
  opt (row [element, many (row [token .comma, element]), opt (token .comma)])

def list (opening closing : Kind) (element : Form σ) : Form σ :=
  row [token opening, commaSeparated element, token closing]

-- A comma behind each element but perhaps the last.
def elements (element : Form σ) : Form σ :=
  row [many (row [element, token .comma]), opt element]

variable {rules : σ → Form σ} {element : Form σ} {opening closing : Kind} {u v x : List Kind}

theorem Derives.separated (hu : Derives rules element u)
    (hv : Derives rules (many (row [Form.token .comma, element])) v)
    (hx : Derives rules (opt (Form.token .comma)) x) :
    Derives rules (commaSeparated element) (u ++ (v ++ x)) :=
  .left (.seq hu (.seq hv hx))

theorem Derives.elements (hu : Derives rules (many (row [element, Form.token .comma])) u)
    (hv : Derives rules (opt element) v) : Derives rules (elements element) (u ++ v) :=
  .seq hu hv

theorem elements_of_separated (hu : Derives rules element u)
    (hv : Derives rules (many (row [token .comma, element])) v)
    (hx : Derives rules (opt (token .comma)) x) :
    Derives rules (elements element) (u ++ (v ++ x)) := by
  generalize form : many (row [token .comma, element]) = f at hv
  induction hv generalizing u with
  | none =>
      rcases derives_opt.mp hx with comma | rfl
      · have last : Derives rules (row [element, token .comma]) (u ++ x) := .seq hu comma
        have all := Derives.elements last.once (.right .empty)
        rwa [List.append_nil] at all
      · have all := Derives.elements .none (.left hu)
        rwa [List.append_nil, List.append_nil]
  | more ha _ _ ih =>
      cases form
      obtain ⟨_, u', rfl, comma, hu'⟩ := derives_seq.mp ha
      obtain ⟨before, last, split, more, final⟩ := derives_seq.mp (ih hu' rfl)
      have first : Derives rules (row [element, token .comma]) (u ++ _) := .seq hu comma
      have all := Derives.elements (.more first more) final
      simp only [List.append_assoc] at all split ⊢
      rwa [← split] at all
  | _ => cases form

theorem separated_of_elements (hu : Derives rules (many (row [element, token .comma])) u)
    (hv : Derives rules (opt element) v) : Derives rules (commaSeparated element) (u ++ v) := by
  generalize form : many (row [element, token .comma]) = f at hu
  induction hu with
  | none =>
      rcases derives_opt.mp hv with last | rfl
      · have alone := Derives.separated last .none (.right .empty)
        rwa [List.append_nil, List.append_nil] at alone
      · exact .right .empty
  | more ha _ _ ih =>
      cases form
      obtain ⟨first, comma, rfl, hfirst, hcomma⟩ := derives_seq.mp ha
      rcases derives_opt.mp (ih rfl) with further | none
      · obtain ⟨second, _, split, hsecond, rest⟩ := derives_seq.mp further
        obtain ⟨more, last, rfl, hmore, hlast⟩ := derives_seq.mp rest
        have next : Derives rules (row [token .comma, element]) (comma ++ second) :=
          .seq hcomma hsecond
        have all := Derives.separated hfirst (.more next hmore) hlast
        simp only [List.append_assoc] at all split ⊢
        rwa [split]
      · have alone := Derives.separated hfirst .none (.left hcomma)
        rw [List.append_assoc, none]
        rwa [List.append_nil]
  | _ => cases form

theorem derives_commaSeparated {w : List Kind} :
    Derives rules (commaSeparated element) w ↔ Derives rules (elements element) w := by
  constructor
  · intro h
    rcases derives_opt.mp h with some | rfl
    · obtain ⟨u, _, rfl, hu, rest⟩ := derives_seq.mp some
      obtain ⟨v, x, rfl, hv, hx⟩ := derives_seq.mp rest
      exact elements_of_separated hu hv hx
    · exact Derives.elements .none (.right .empty)
  · intro h
    obtain ⟨u, v, rfl, hu, hv⟩ := derives_seq.mp h
    exact separated_of_elements hu hv

end Form

open Form

inductive Symbol where
  | innerAttr | attr | item | core | path | param | field | pat | type | block | stmt | expr
  | unary | primary
  deriving DecidableEq

namespace Symbol

def arguments : Form Symbol := list .leftParen .rightParen (symbol expr)

def literal : Form Symbol := oneOf [.intNumber, .floatNumber, .stringLiteral, .trueKw, .falseKw]

def rule : Symbol → Form Symbol
  | innerAttr => row [token .hash, token .bang, token .leftBracket, symbol path,
      token .rightBracket]
  | attr => row [token .hash, opt (token .bang), token .leftBracket, symbol path,
      token .rightBracket]
  | item => row [many (symbol attr), opt (token .pubKw), symbol core]
  | core => choice [
      row [token .fnKw, token .ident, list .leftParen .rightParen (symbol param),
        opt (row [token .arrow, symbol type]), alt (token .semicolon) (symbol block)],
      row [token .structKw, token .ident,
        alt (token .semicolon) (list .leftBrace .rightBrace (symbol field))],
      row [token .constKw, token .ident, token .colon, symbol type,
        opt (row [token .equal, symbol expr]), token .semicolon],
      row [token .useKw, symbol path, token .semicolon],
      row [token .modKw, token .ident, alt (token .semicolon)
        (row [token .leftBrace, many (symbol item), token .rightBrace])]]
  | path => row [token .ident, many (row [token .doubleColon, token .ident])]
  | param => row [symbol pat, token .colon, symbol type]
  | field => row [many (symbol attr), opt (token .pubKw), token .ident, token .colon, symbol type]
  | pat => choice [
      row [opt (token .refKw), opt (token .mutKw), token .ident],
      token .underscore,
      token .doubleDot,
      row [token .ampersand, opt (token .mutKw), symbol pat],
      list .leftParen .rightParen (symbol pat),
      literal]
  | type => choice [
      symbol path,
      list .leftParen .rightParen (symbol type),
      row [token .ampersand, opt (token .mutKw), symbol type]]
  | block => row [token .leftBrace, many (symbol stmt), opt (symbol expr), token .rightBrace]
  | stmt => choice [
      token .semicolon,
      row [token .letKw, symbol pat, opt (row [token .colon, symbol type]),
        opt (row [token .equal, symbol expr]), token .semicolon],
      symbol item,
      row [symbol expr, token .semicolon],
      symbol block]
  | expr => row [symbol unary, many (row [token .binaryOperator, symbol unary])]
  | unary => alt (row [token .ampersand, opt (token .mutKw), symbol unary])
      (row [symbol primary, many arguments])
  | primary => choice [
      literal,
      symbol path,
      list .leftParen .rightParen (symbol expr),
      symbol block]

def file : Form Symbol := row [many (symbol innerAttr), many (symbol item)]

def heads : Symbol → KindSet
  | innerAttr | attr => .ofList [.hash]
  | item => Rule.itemFirst
  | core => .ofList [.fnKw, .structKw, .constKw, .useKw, .modKw]
  | path => .ofList [.ident]
  | param | pat => Rule.patternFirst
  | field => Rule.fieldFirst
  | type => Rule.typeFirst
  | block => .ofList [.leftBrace]
  | stmt => (Rule.itemFirst.union Rule.expressionFirst).union (.ofList [.semicolon, .letKw])
  | expr | unary => Rule.expressionFirst
  | primary => Rule.literalFirst.union (.ofList [.ident, .leftParen, .leftBrace])

theorem rule_filled (s : Symbol) : s.rule.nullable = false := by
  cases s <;> rfl

-- What the rules look for in front of a construct is what it can start with.
theorem rule_heads (s : Symbol) : (s.rule.heads heads).union s.heads = s.heads := by
  cases s <;> decide

theorem starts {f : Form Symbol} {w : List Kind} (h : Derives rule f w) :
    f.nullable = true ∧ w = [] ∨ ∃ k v, w = k :: v ∧ (f.heads heads).contains k = true :=
  h.starts rule_filled rule_heads

end Symbol

end LosslessTree
