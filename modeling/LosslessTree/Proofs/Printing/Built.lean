import LosslessTree.Proofs.Grammar.Readable
import LosslessTree.Proofs.Printing.Written

set_option autoImplicit false

namespace LosslessTree

namespace Expression

inductive Trailing : List Expression → List Token → Forest → Prop
  | none {fields : List Expression} (other : fields.length ≠ 1) : Trailing fields [] .nil
  | comma {c : Token} {e : Expression} (is : c.kind = .comma) :
      Trailing [e] [c] (.leaf c.leaf .nil)

mutual

-- The tokens are those of the expression, and these elements stand inside its node.
inductive Built : Expression → List Token → Forest → Prop
  | literal {t : Token} (is : Rule.literalFirst.contains t.kind = true) :
      Built (.literal t.text) [t] (.leaf t.leaf .nil)
  | path {t : Token} {more : List Text} {tokens : List Token} {segments : Forest}
      (is : t.kind = .ident) (further : Segments more tokens segments) :
      Built (.path t.text more) (t :: tokens)
        (.node .path (.node .nameRef (.leaf t.leaf .nil) segments) .nil)
  | tuple {o c : Token} {fields : List Expression} {tokens trailing : List Token}
      {parts last : Forest} (opens : o.kind = .leftParen) (closes : c.kind = .rightParen)
      (inside : Fields fields tokens parts) (comma : Trailing fields trailing last) :
      Built (.tuple fields) (o :: (tokens ++ (trailing ++ [c])))
        (.leaf o.leaf (parts ++ (last ++ .leaf c.leaf .nil)))
  | paren {o c : Token} {e : Expression} {tokens : List Token} {f : Forest}
      (opens : o.kind = .leftParen) (closes : c.kind = .rightParen) (inside : Built e tokens f) :
      Built (.paren e) (o :: (tokens ++ [c])) (.leaf o.leaf (.node e.kind f (.leaf c.leaf .nil)))
  | call {o c : Token} {callee : Expression} {arguments : List Expression}
      {tokens tokens' : List Token} {f parts : Forest} (first : Built callee tokens f)
      (opens : o.kind = .leftParen) (closes : c.kind = .rightParen)
      (inside : Fields arguments tokens' parts) :
      Built (.call callee arguments) (tokens ++ o :: (tokens' ++ [c]))
        (.node callee.kind f (.node .argList (.leaf o.leaf (parts ++ .leaf c.leaf .nil)) .nil))
  | reference {a : Token} {e : Expression} {tokens : List Token} {f : Forest}
      (is : a.kind = .ampersand) (inside : Built e tokens f) :
      Built (.reference false e) (a :: tokens) (.leaf a.leaf (.node e.kind f .nil))
  | mutable {a m : Token} {e : Expression} {tokens : List Token} {f : Forest}
      (is : a.kind = .ampersand) (word : m.kind = .mutKw) (inside : Built e tokens f) :
      Built (.reference true e) (a :: m :: tokens)
        (.leaf a.leaf (.leaf m.leaf (.node e.kind f .nil)))
  | binary {o : Token} {left right : Expression} {tokens tokens' : List Token} {f g : Forest}
      (is : o.kind = .binaryOperator) (first : Built left tokens f)
      (second : Built right tokens' g) :
      Built (.binary left o.text right) (tokens ++ o :: tokens')
        (.node left.kind f (.leaf o.leaf (.node right.kind g .nil)))

inductive Fields : List Expression → List Token → Forest → Prop
  | nil : Fields [] [] .nil
  | cons {e : Expression} {more : List Expression} {tokens tokens' : List Token} {f parts : Forest}
      (first : Built e tokens f) (further : Further more tokens' parts) :
      Fields (e :: more) (tokens ++ tokens') (.node e.kind f parts)

inductive Further : List Expression → List Token → Forest → Prop
  | nil : Further [] [] .nil
  | cons {c : Token} {e : Expression} {more : List Expression} {tokens tokens' : List Token}
      {f parts : Forest} (comma : c.kind = .comma) (first : Built e tokens f)
      (further : Further more tokens' parts) :
      Further (e :: more) (c :: (tokens ++ tokens')) (.leaf c.leaf (.node e.kind f parts))

end

open Lexeme

def Spelled (tokens : List Token) (words : List Text) : Prop :=
  tokens.map (fun t => (t.kind, t.text)) = words.map fun w => (kindOf w, w)

variable {tokens : List Token} {words words' : List Text} {w : Text}

theorem spelled_nil : Spelled tokens [] ↔ tokens = [] := by
  simp [Spelled]

theorem spelled_cons : Spelled tokens (w :: words) ↔
    ∃ t rest, tokens = t :: rest ∧ t.kind = kindOf w ∧ t.text = w ∧ Spelled rest words := by
  simp only [Spelled, List.map_cons, List.map_eq_cons_iff, Prod.mk.injEq, and_assoc]

theorem spelled_append : Spelled tokens (words ++ words') ↔
    ∃ front behind, tokens = front ++ behind ∧ Spelled front words ∧ Spelled behind words' := by
  simp only [Spelled, List.map_append, List.map_eq_append_iff]

theorem kindOf_of_isIdent (ident : isIdent w = true) : kindOf w = .ident := by
  rw [isIdent, Bool.and_eq_true, beq_iff_eq] at ident
  exact ident.2

theorem segments_of_spelled {more : List Text} (idents : more.all isIdent = true)
    (spelled : Spelled tokens (more.flatMap fun segment => [[':', ':'], segment])) :
    ∃ parts, Segments more tokens parts := by
  induction more generalizing tokens with
  | nil =>
      obtain rfl := spelled_nil.mp spelled
      exact ⟨_, .nil⟩
  | cons segment more ih =>
      rw [List.all_cons, Bool.and_eq_true] at idents
      rw [List.flatMap_cons, List.cons_append, List.singleton_append] at spelled
      obtain ⟨c, _, rfl, colons, -, spelled⟩ := spelled_cons.mp spelled
      obtain ⟨t, _, rfl, kind, rfl, others⟩ := spelled_cons.mp spelled
      obtain ⟨parts, further⟩ := ih idents.2 others
      exact ⟨_, .cons colons (kind.trans (kindOf_of_isIdent idents.1)) further⟩

theorem further_of_spelled {more : List Expression}
    (each : ∀ e ∈ more, ∀ tokens, Spelled tokens e.words → ∃ f, Built e tokens f)
    (spelled : Spelled tokens (furtherWords more)) : ∃ parts, Further more tokens parts := by
  induction more generalizing tokens with
  | nil =>
      obtain rfl := spelled_nil.mp spelled
      exact ⟨_, .nil⟩
  | cons e more ih =>
      obtain ⟨here, behind⟩ := List.forall_mem_cons.mp each
      rw [furtherWords] at spelled
      obtain ⟨c, _, rfl, comma, -, spelled⟩ := spelled_cons.mp spelled
      obtain ⟨_, _, rfl, own, spelled⟩ := spelled_append.mp spelled
      obtain ⟨f, first⟩ := here _ own
      obtain ⟨parts, further⟩ := ih behind spelled
      exact ⟨_, .cons comma first further⟩

theorem fields_of_spelled {fields : List Expression}
    (each : ∀ e ∈ fields, ∀ tokens, Spelled tokens e.words → ∃ f, Built e tokens f)
    (spelled : Spelled tokens (fieldWords fields)) : ∃ parts, Fields fields tokens parts := by
  cases fields with
  | nil =>
      obtain rfl := spelled_nil.mp spelled
      exact ⟨_, .nil⟩
  | cons e more =>
      obtain ⟨here, behind⟩ := List.forall_mem_cons.mp each
      obtain ⟨_, _, rfl, own, spelled⟩ := spelled_append.mp spelled
      obtain ⟨f, first⟩ := here _ own
      obtain ⟨parts, further⟩ := further_of_spelled behind spelled
      exact ⟨_, .cons first further⟩

theorem trailing_of_spelled {fields : List Expression}
    (spelled : Spelled tokens (trailingComma fields)) : ∃ last, Trailing fields tokens last := by
  match fields with
  | [] =>
      obtain rfl := spelled_nil.mp spelled
      exact ⟨_, .none (by simp)⟩
  | [e] =>
      obtain ⟨c, _, rfl, comma, -, spelled⟩ := spelled_cons.mp spelled
      obtain rfl := spelled_nil.mp spelled
      exact ⟨_, .comma comma⟩
  | e :: e' :: more =>
      obtain rfl := spelled_nil.mp spelled
      exact ⟨_, .none (by simp)⟩

theorem closing_of_spelled (spelled : Spelled tokens [[')']]) :
    ∃ c, tokens = [c] ∧ c.kind = .rightParen := by
  obtain ⟨c, _, rfl, kind, -, spelled⟩ := spelled_cons.mp spelled
  obtain rfl := spelled_nil.mp spelled
  exact ⟨c, rfl, kind⟩

theorem built_of_spelled {e : Expression} (formed : e.wellFormed = true)
    (spelled : Spelled tokens e.words) : ∃ f, Built e tokens f := by
  induction e using induct generalizing tokens with
  | literal text =>
      rw [wellFormed, isLiteral, Bool.and_eq_true] at formed
      obtain ⟨t, _, rfl, kind, rfl, none⟩ := spelled_cons.mp spelled
      obtain rfl := spelled_nil.mp none
      exact ⟨_, .literal (kind ▸ formed.2)⟩
  | path first more =>
      rw [wellFormed, Bool.and_eq_true] at formed
      obtain ⟨t, _, rfl, kind, rfl, others⟩ := spelled_cons.mp spelled
      obtain ⟨segments, further⟩ := segments_of_spelled formed.2 others
      exact ⟨_, .path (kind.trans (kindOf_of_isIdent formed.1)) further⟩
  | tuple fields ih =>
      rw [wellFormed, allWellFormed_iff] at formed
      obtain ⟨o, _, rfl, opens, -, spelled⟩ := spelled_cons.mp spelled
      rw [List.append_assoc] at spelled
      obtain ⟨_, _, rfl, own, spelled⟩ := spelled_append.mp spelled
      obtain ⟨_, _, rfl, comma, spelled⟩ := spelled_append.mp spelled
      obtain ⟨c, rfl, closes⟩ := closing_of_spelled spelled
      obtain ⟨parts, inside⟩ := fields_of_spelled
        (fun e mem tokens spelled => ih e mem (formed e mem) spelled) own
      obtain ⟨last, trailing⟩ := trailing_of_spelled comma
      exact ⟨_, .tuple opens closes inside trailing⟩
  | paren inner ih =>
      obtain ⟨o, _, rfl, opens, -, spelled⟩ := spelled_cons.mp spelled
      obtain ⟨_, _, rfl, own, spelled⟩ := spelled_append.mp spelled
      obtain ⟨c, rfl, closes⟩ := closing_of_spelled spelled
      obtain ⟨f, inside⟩ := ih formed own
      exact ⟨_, .paren opens closes inside⟩
  | call callee arguments ih each =>
      simp only [wellFormed, Bool.and_eq_true, allWellFormed_iff] at formed
      obtain ⟨_, _, rfl, own, spelled⟩ := spelled_append.mp spelled
      obtain ⟨o, _, rfl, opens, -, spelled⟩ := spelled_cons.mp spelled
      obtain ⟨_, _, rfl, fields, spelled⟩ := spelled_append.mp spelled
      obtain ⟨c, rfl, closes⟩ := closing_of_spelled spelled
      obtain ⟨f, first⟩ := ih formed.1.1.1 own
      obtain ⟨parts, inside⟩ := fields_of_spelled
        (fun e mem tokens spelled => each e mem (formed.2 e mem) spelled) fields
      exact ⟨_, .call first opens closes inside⟩
  | reference isMut operand ih =>
      rw [wellFormed, Bool.and_eq_true] at formed
      obtain ⟨a, _, rfl, ampersand, -, spelled⟩ := spelled_cons.mp spelled
      cases isMut with
      | false =>
          obtain ⟨f, inside⟩ := ih formed.1 spelled
          exact ⟨_, .reference ampersand inside⟩
      | true =>
          obtain ⟨m, _, rfl, word, -, spelled⟩ := spelled_cons.mp spelled
          obtain ⟨f, inside⟩ := ih formed.1 spelled
          exact ⟨_, .mutable ampersand word inside⟩
  | binary left operator right ih ih' =>
      obtain ⟨left_, right_, level, found, -⟩ := wellFormed_binary.mp formed
      obtain ⟨_, _, rfl, own, spelled⟩ := spelled_append.mp spelled
      obtain ⟨o, _, rfl, kind, rfl, behind⟩ := spelled_cons.mp spelled
      obtain ⟨f, first⟩ := ih left_ own
      obtain ⟨g, second⟩ := ih' right_ behind
      exact ⟨_, .binary (kind.trans (word_of_operator found).2) first second⟩

variable {parts : Forest}

theorem Segments.leaves {more : List Text} (h : Segments more tokens parts) :
    parts.leaves = tokens.map Token.leaf := by
  induction h with
  | nil => rfl
  | cons _ _ _ ih => simp [Forest.leaves, ih]

theorem Trailing.leaves {fields : List Expression} (h : Trailing fields tokens parts) :
    parts.leaves = tokens.map Token.leaf := by
  cases h <;> rfl

section Fields

variable {fields : List Expression}
  (each : ∀ e ∈ fields, ∀ {tokens f}, Built e tokens f → f.leaves = tokens.map Token.leaf)
include each

theorem Further.leaves (h : Further fields tokens parts) : parts.leaves = tokens.map Token.leaf := by
  induction fields generalizing tokens parts with
  | nil =>
      cases h
      rfl
  | cons e more ih =>
      obtain ⟨here, others⟩ := List.forall_mem_cons.mp each
      cases h with
      | cons _ first further => simp [Forest.leaves, here first, ih others further]

theorem Fields.leaves (h : Fields fields tokens parts) : parts.leaves = tokens.map Token.leaf := by
  cases h with
  | nil => rfl
  | cons first further =>
      obtain ⟨here, others⟩ := List.forall_mem_cons.mp each
      simp [Forest.leaves, here first, further.leaves others]

end Fields

theorem Built.leaves {e : Expression} {f : Forest} (built : Built e tokens f) :
    f.leaves = tokens.map Token.leaf := by
  induction e using induct generalizing tokens f with
  | literal text =>
      cases built
      rfl
  | path first more =>
      cases built with
      | path _ further => simp [Forest.leaves, further.leaves]
  | tuple _ ih =>
      cases built with
      | tuple _ _ inside comma => simp [Forest.leaves, inside.leaves ih, comma.leaves]
  | paren _ ih =>
      cases built with
      | paren _ _ inside => simp [Forest.leaves, ih inside]
  | call _ _ ih each =>
      cases built with
      | call first _ _ inside => simp [Forest.leaves, ih first, inside.leaves each]
  | reference _ _ ih =>
      cases built with
      | reference _ inside => simp [Forest.leaves, ih inside]
      | mutable _ _ inside => simp [Forest.leaves, ih inside]
  | binary _ _ _ ih ih' =>
      cases built with
      | binary _ first second => simp [Forest.leaves, ih first, ih' second]

end Expression

end LosslessTree
