import LosslessTree.Proofs.Printing.Built

set_option autoImplicit false

namespace LosslessTree.Expression

open Rule

variable {eof : Token}

abbrev Parsed (eof : Token) (e : Expression) (tokens : List Token) (f : Forest) : Prop :=
  Readable eof e.kind e.level? tokens f

variable {e : Expression} {tokens rest : List Token} {f : Forest}

theorem level_pos {level : Nat} {operator : Text} (found : operatorLevel? operator = some level) :
    1 ≤ level := by
  obtain ⟨before, after, split, -⟩ := List.lookup_eq_some_iff.mp found
  have each : ∀ entry ∈ before ++ (operator, level) :: after, 1 ≤ entry.2 := by
    rw [← split]
    decide
  exact each (operator, level) (by simp)

theorem parsed_paren {o c : Token} (opens : o.kind = .leftParen) (closes : c.kind = .rightParen)
    (inside : Parsed eof e tokens f) :
    Parsed eof (.paren e) (o :: (tokens ++ [c])) (.leaf o.leaf (.node e.kind f (.leaf c.leaf .nil))) := by
  refine readable_parenthesized opens fun rest Q ends => ?_
  have notEmpty := inside.seen_ne (a := .rightParen) (by decide) (c :: rest)
  rw [List.cons_append]
  simp only [parenthesized, passes_nodeIf, passes_bind, passes_takeKind, Forest.taken_cons, List.tail_cons,
    List.append_assoc, List.singleton_append, passes_eat, notEmpty, if_false, Bool.false_eq_true,
    passes_discard]
  have after : seen eof (c :: rest) ∉ expressionMore := by simp [closes, expressionMore, operandMore]
  refine inside.inner_passes after ?_
  simpa [parenthesizedRest, closes, kind] using ends

def AllParsed (eof : Token) (fields : List Expression) : Prop :=
  ∀ e ∈ fields, ∀ tokens f, Built e tokens f → Parsed eof e tokens f

variable {c : Token} {more : List Expression} {parts : Forest}

theorem Further.behind (h : Further more tokens parts) (closes : c.kind = .rightParen)
    (rest : List Token) : seen eof (tokens ++ c :: rest) ∉ expressionMore := by
  cases h with
  | nil => simp [closes, expressionMore, operandMore]
  | cons comma => simp [comma, expressionMore, operandMore]

theorem Further.passes (h : Further more tokens parts) (each : AllParsed eof more)
    (closes : c.kind = .rightParen) {Q : Unit → Forest → List Token → Prop}
    (ends : Q () parts (c :: rest)) : Passes eof (loop furtherField) (tokens ++ c :: rest) Q := by
  induction more generalizing tokens parts Q with
  | nil =>
      cases h
      rw [passes_loop]
      simpa [furtherField, closes] using ends
  | cons e more ih =>
      obtain ⟨here, others⟩ := List.forall_mem_cons.mp each
      cases h with
      | @cons c' _ _ before after _ _ comma first further =>
          have own := here _ _ first
          rw [passes_loop]
          simp only [furtherField, List.cons_append, List.append_assoc, passes_bind, passes_eat, seen_cons,
            comma, if_true, Forest.taken_cons, List.tail_cons, passes_ite, atEnd, passes_seesAny,
            own.not_atEnd, Bool.false_eq_true, if_false]
          refine own.inner_passes (further.behind closes rest) ?_
          simp only [passes_pure, Option.isSome_some, if_true]
          refine ih further others ?_
          simpa using ends

section Tuple

variable {trailing : List Token} {last : Forest} (further : Further more tokens parts)
  (comma : Trailing (e :: more) trailing last)
include further comma

theorem seen_comma (eof : Token) (rest : List Token) :
    seen eof (tokens ++ (trailing ++ rest)) = .comma := by
  cases comma with
  | none other =>
      cases further with
      | nil => simp at other
      | cons comma => exact comma
  | comma is =>
      cases further
      exact is

theorem passes_parenthesizedRest (each : AllParsed eof more) (closes : c.kind = .rightParen)
    {Q : Option Kind → Forest → List Token → Prop}
    (ends : Q (some .tupleExpr) (parts ++ (last ++ .leaf c.leaf .nil)) rest) :
    Passes eof parenthesizedRest (tokens ++ (trailing ++ c :: rest)) Q := by
  simp only [parenthesizedRest, passes_bind, passes_sees, seen_comma further comma, beq_self_eq_true,
    passes_ite, if_true, passes_expect, passes_pure]
  cases comma with
  | none =>
      refine further.passes each closes ⟨closes, ?_⟩
      simpa using ends
  | comma is =>
      cases further
      rw [passes_loop]
      simpa [furtherField, is, closes, atEnd, KindSet.contains_ofList] using ends

end Tuple

theorem parsed_tuple {o : Token} {fields : List Expression} {trailing : List Token} {last : Forest}
    (opens : o.kind = .leftParen) (closes : c.kind = .rightParen)
    (inside : Fields fields tokens parts) (comma : Trailing fields trailing last)
    (each : AllParsed eof fields) :
    Parsed eof (.tuple fields) (o :: (tokens ++ (trailing ++ [c])))
      (.leaf o.leaf (parts ++ (last ++ .leaf c.leaf .nil))) := by
  refine readable_parenthesized opens fun rest Q ends => ?_
  rw [List.cons_append]
  cases inside with
  | nil =>
      cases comma
      simpa [parenthesized, closes, kind] using ends
  | @cons e more before after _ _ first further =>
      obtain ⟨here, others⟩ := List.forall_mem_cons.mp each
      have own := here _ _ first
      have notEmpty := own.seen_ne (a := .rightParen) (by decide) (after ++ (trailing ++ c :: rest))
      simp only [parenthesized, passes_nodeIf, passes_bind, passes_takeKind, Forest.taken_cons,
        List.tail_cons, List.append_assoc, List.singleton_append, passes_eat, notEmpty, if_false,
        Bool.false_eq_true, passes_discard]
      refine own.inner_passes ?_ (passes_parenthesizedRest further comma others closes ?_)
      · rw [seen_comma further comma]
        decide
      · simpa [kind] using ends

abbrev argumentRound : Rule Bool :=
  bracketedRound .rightParen .comma .expectedArgument expressionFirst innerArgument

theorem Parsed.passes_argument (own : Parsed eof e tokens f) (behind : seen eof rest ∉ expressionMore)
    {Q : Bool → Forest → List Token → Prop}
    (ends : Passes eof (separation .comma expressionFirst) rest fun more parts left =>
      Q more (.node e.kind f parts) left) : Passes eof argumentRound (tokens ++ rest) Q := by
  have other (k : Kind) (out : expressionFirst.contains k = false) := own.seen_ne out rest
  rw [argumentRound, passes_element (other _ (by decide)) (other _ (by decide)) (other _ (by decide)),
    innerArgument, passes_bind]
  refine own.inner_passes behind ?_
  simpa using ends

theorem Further.passes_arguments (h : Further more tokens parts) (each : AllParsed eof more)
    (closes : c.kind = .rightParen) {before : List Token} (own : Parsed eof e before f)
    {Q : Unit → Forest → List Token → Prop} (ends : Q () (.node e.kind f parts) (c :: rest)) :
    Passes eof (loop argumentRound) (before ++ (tokens ++ c :: rest)) Q := by
  induction more generalizing e f before tokens parts Q with
  | nil =>
      rw [passes_loop]
      refine own.passes_argument (h.behind closes rest) ?_
      cases h
      have other : expressionFirst.contains .rightParen = false := by decide
      simpa [separation, closes, other] using ends
  | cons e' more ih =>
      obtain ⟨here, others⟩ := List.forall_mem_cons.mp each
      rw [passes_loop]
      refine own.passes_argument (h.behind closes rest) ?_
      cases h with
      | cons comma first further =>
          simp only [separation, List.cons_append, List.append_assoc, passes_bind, passes_eat, seen_cons,
            comma, if_true, Forest.taken_cons, List.tail_cons, passes_pure]
          refine ih further others (here _ _ first) ?_
          simpa using ends

theorem Fields.passes {fields : List Expression} (h : Fields fields tokens parts)
    (each : AllParsed eof fields) {o : Token} (closes : c.kind = .rightParen)
    {Q : Unit → Forest → List Token → Prop}
    (ends : Q () (.node .argList (.leaf o.leaf (parts ++ .leaf c.leaf .nil)) .nil) rest) :
    Passes eof arguments (o :: (tokens ++ c :: rest)) Q := by
  rw [arguments, passes_node]
  simp only [bracketed, passes_bind, passes_takeKind, Forest.taken_cons, List.tail_cons]
  cases h with
  | nil =>
      rw [passes_loop]
      simpa [bracketedRound, atEnd, closes, KindSet.contains_ofList] using ends
  | cons first further =>
      obtain ⟨here, others⟩ := List.forall_mem_cons.mp each
      rw [List.append_assoc]
      refine further.passes_arguments others closes (here _ _ first) ?_
      simpa [closes] using ends

theorem parsed_call {o : Token} {callee : Expression} {fields : List Expression}
    {before : List Token} (noBinary : callee.kind ≠ .binaryExpr) (noReference : callee.kind ≠ .refExpr)
    (first : Parsed eof callee before f) (opens : o.kind = .leftParen) (closes : c.kind = .rightParen)
    (inside : Fields fields tokens parts) (each : AllParsed eof fields) :
    Parsed eof (.call callee fields) (before ++ o :: (tokens ++ [c]))
      (.node callee.kind f (.node .argList (.leaf o.leaf (parts ++ .leaf c.leaf .nil)) .nil)) := by
  refine readable_call first noBinary noReference opens fun rest Q ends => ?_
  rw [List.cons_append, List.append_assoc]
  exact inside.passes each closes ends

theorem Built.parsed (formed : e.wellFormed = true) (built : Built e tokens f) :
    Parsed eof e tokens f := by
  have nested {fields : List Expression} (formed : allWellFormed fields = true)
      (each : ∀ e ∈ fields, ∀ {tokens f}, e.wellFormed = true → Built e tokens f →
        Parsed eof e tokens f) : AllParsed eof fields := fun e mem _ _ =>
    each e mem ((allWellFormed_iff fields).mp formed e mem)
  induction e using induct generalizing tokens f with
  | literal text =>
      cases built with
      | literal is => exact readable_literal is
  | path first more =>
      cases built with
      | path is further => exact readable_path is further
  | tuple fields ih =>
      cases built with
      | tuple opens closes inside comma =>
          exact parsed_tuple opens closes inside comma (nested formed ih)
  | paren inner ih =>
      cases built with
      | paren opens closes inside => exact parsed_paren opens closes (ih formed inside)
  | call callee fields ih each =>
      simp only [wellFormed, Bool.and_eq_true, bne_iff_ne] at formed
      obtain ⟨⟨⟨callee_, noBinary⟩, noReference⟩, fields_⟩ := formed
      cases built with
      | call first opens closes inside =>
          exact parsed_call noBinary noReference (ih callee_ first) opens closes inside
            (nested fields_ each)
  | reference isMut operand ih =>
      rw [wellFormed, Bool.and_eq_true, bne_iff_ne] at formed
      cases built with
      | reference is inside => exact readable_reference is (ih formed.1 inside) formed.2
      | mutable is word inside => exact readable_mutable is (ih formed.1 inside) formed.2 word
  | binary left operator right ih ih' =>
      obtain ⟨left_, right_, level, found, above, above'⟩ := wellFormed_binary.mp formed
      cases built with
      | binary is first second =>
          have reading := readable_binary is found (level_pos found) (ih left_ first) (ih' right_ second) above
            above'
          rwa [← found] at reading

end LosslessTree.Expression
