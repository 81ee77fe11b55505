import LosslessTree.Proofs.Grammar.Operands

/-!
# Reading expressions of their own tokens

An expression is read as what stands behind it allows: it takes up a call or an operator that is not too
loose. Up to there it is the same whatever stands behind, and so are the expressions made of it.
-/

set_option autoImplicit false

namespace LosslessTree

open Rule

variable {eof : Token}

namespace Rule

abbrev callMore (kind : Option Kind) (ahead : Lookahead) : Option Unit :=
  if kind.isSome && ahead.kind == .leftParen then some () else none

abbrev callStep (_ : Unit) : Rule (Kind × Option Kind) := do
  arguments
  return (.callExpr, some .callExpr)

abbrev operatorMore (least : Nat) (kind : Option Kind) (ahead : Lookahead) : Option Nat :=
  if kind.isSome then ahead.level.filter (least ≤ ·) else none

abbrev operatorStep (level : Nat) : Rule (Kind × Option Kind) := do
  take
  Rule.discard (Rule.call (.expression (level + 1)))
  return (.binaryExpr, some .binaryExpr)

end Rule

/-- How the node of an expression, with the level of its operator, is made of its tokens, whatever
stands behind them that does not go on with it. -/
structure Readable (eof : Token) (k : Kind) (level? : Option Nat) (tokens : List Token) (inner : Forest) :
    Prop where
  opens : ∀ rest, expressionFirst.contains (seen eof (tokens ++ rest)) = true
  operand : k ≠ .binaryExpr → k ≠ .refExpr → ∀ rest, seen eof (tokens ++ rest) ≠ .ampersand
  calls : k ≠ .binaryExpr → k ≠ .refExpr → ∀ rest Q, seen eof rest ≠ .doubleColon →
    PassesOn eof callMore callStep (some k) (.node k inner .nil) rest Q →
      Passes eof postfixed (tokens ++ rest) Q
  alone : k ≠ .binaryExpr → ∀ rest Q, seen eof rest ∉ operandMore →
    Q (some k) (.node k inner .nil) rest → Passes eof unary (tokens ++ rest) Q
  climbs : ∀ least rest Q, (∀ level ∈ level?, least ≤ level) → seen eof rest ∉ operandMore →
    (∀ next ∈ (ahead eof rest).level, ∀ level ∈ level?, next ≤ level) →
      PassesOn eof (operatorMore least) operatorStep (some k) (.node k inner .nil) rest Q →
        Passes eof (Rule.expression least) (tokens ++ rest) Q
  level_pos : ∀ level ∈ level?, 1 ≤ level

namespace Readable

variable {k : Kind} {level? : Option Nat} {tokens rest : List Token} {inner : Forest}

theorem seen_ne (h : Readable eof k level? tokens inner) {a : Kind}
    (out : expressionFirst.contains a = false) (rest : List Token) :
    seen eof (tokens ++ rest) ≠ a := by
  intro here
  rw [← here, h.opens rest] at out
  cases out

theorem not_atEnd (h : Readable eof k level? tokens inner) (rest : List Token) :
    (KindSet.ofList [.rightParen, .eof]).contains (seen eof (tokens ++ rest)) = false := by
  have notClosing := h.seen_ne (a := .rightParen) (by decide) rest
  have notEof := h.seen_ne (a := .eof) (by decide) rest
  simp [KindSet.contains_ofList, notClosing, notEof]

theorem inner_passes (h : Readable eof k level? tokens inner) {Q : Option Kind → Forest → List Token → Prop}
    (behind : seen eof rest ∉ expressionMore) (ends : Q (some k) (.node k inner .nil) rest) :
    Passes eof innerExpression (tokens ++ rest) Q := by
  simp only [expressionMore, List.mem_cons, not_or] at behind
  have loose : (ahead eof rest).level = none := level_of_other behind.1
  rw [innerExpression, passes_call]
  refine h.climbs 1 rest Q h.level_pos behind.2 (by simp [loose]) ?_
  exact .last (by simp [loose]) ends

section Classes

variable (opens : ∀ rest, expressionFirst.contains (seen eof (tokens ++ rest)) = true)
include opens

theorem of_unary (reference : k = .refExpr)
    (alone : ∀ rest Q, seen eof rest ∉ operandMore →
      Q (some k) (.node k inner .nil) rest → Passes eof unary (tokens ++ rest) Q) :
    Readable eof k none tokens inner where
  opens := opens
  operand _ other := absurd reference other
  calls _ other := absurd reference other
  alone _ := alone
  climbs least rest Q _ behind _ ends := by
    rw [Rule.expression, passes_grow]
    exact alone rest _ behind ends
  level_pos := by simp

variable (operand : ∀ rest, seen eof (tokens ++ rest) ≠ .ampersand)
include operand

theorem of_postfixed
    (calls : ∀ rest Q, seen eof rest ≠ .doubleColon →
      PassesOn eof callMore callStep (some k) (.node k inner .nil) rest Q →
        Passes eof postfixed (tokens ++ rest) Q) : Readable eof k none tokens inner := by
  have alone (rest : List Token) (Q : Option Kind → Forest → List Token → Prop)
      (behind : seen eof rest ∉ operandMore) (ends : Q (some k) (.node k inner .nil) rest) :
      Passes eof unary (tokens ++ rest) Q := by
    simp only [operandMore, List.mem_cons, List.not_mem_nil, or_false, not_or] at behind
    rw [unary, passes_bind, passes_sees, beq_false_of_ne (operand rest)]
    refine calls rest _ behind.1 (.last ?_ ends)
    simp [behind.2]
  refine ⟨opens, fun _ _ => operand, fun _ _ => calls, fun _ => alone, ?_, by simp⟩
  intro least rest Q _ behind _ ends
  rw [Rule.expression, passes_grow]
  exact alone rest _ behind ends

theorem of_primary
    (first : ∀ rest Q, seen eof rest ≠ .doubleColon →
      Q (some k) (.node k inner .nil) rest → Passes eof primary (tokens ++ rest) Q) :
    Readable eof k none tokens inner := by
  refine .of_postfixed opens operand fun rest Q behind ends => ?_
  rw [postfixed, passes_grow]
  exact first rest _ behind ends

end Classes

end Readable

theorem readable_literal {t : Token} (is : literalFirst.contains t.kind = true) :
    Readable eof .literal none [t] (.leaf t.leaf .nil) := by
  have kinds : t.kind ∈ [.intNumber, .floatNumber, .stringLiteral, .trueKw, .falseKw] := by
    rwa [literalFirst, KindSet.contains_ofList, List.contains_iff_mem] at is
  simp only [List.mem_cons, List.not_mem_nil, or_false] at kinds
  refine .of_primary (fun rest => ?_) (fun rest => ?_) fun rest Q _ ends => ?_
  · rcases kinds with kind | kind | kind | kind | kind <;>
      simp [kind, expressionFirst, literalFirst, KindSet.contains_ofList]
  · rcases kinds with kind | kind | kind | kind | kind <;> simp [kind]
  · rcases kinds with kind | kind | kind | kind | kind <;> rw [kind] at is <;>
      simpa [primary, kind, is] using ends

inductive Expression.Segments : List Text → List Token → Forest → Prop
  | nil : Segments [] [] .nil
  | cons {c t : Token} {more : List Text} {tokens : List Token} {parts : Forest}
      (colons : c.kind = .doubleColon) (ident : t.kind = .ident) (further : Segments more tokens parts) :
      Segments (t.text :: more) (c :: t :: tokens)
        (.leaf c.leaf (.node .nameRef (.leaf t.leaf .nil) parts))

variable {tokens rest : List Token} {inner : Forest}

theorem Expression.Segments.passes {more : List Text} (h : Segments more tokens inner)
    (behind : seen eof rest ≠ .doubleColon) {Q : Unit → Forest → List Token → Prop}
    (ends : Q () inner rest) : Passes eof (loop Rule.segment) (tokens ++ rest) Q := by
  induction h generalizing Q with
  | nil =>
      rw [passes_loop]
      simpa [Rule.segment, behind] using ends
  | cons colons ident further ih =>
      rw [passes_loop]
      simp only [Rule.segment, List.cons_append, passes_bind, passes_eat, seen_cons, colons, if_true,
        Forest.taken_cons, List.tail_cons, passes_ite, passes_sees, ident, beq_self_eq_true, nameRef,
        passes_node, passes_takeKind, passes_pure, Forest.leaf_append, Forest.nil_append,
        Forest.node_append, Forest.append_nil]
      exact ih ends

theorem readable_path {t : Token} {more : List Text} (is : t.kind = .ident)
    (further : Expression.Segments more tokens inner) :
    Readable eof .pathExpr none (t :: tokens)
      (.node .path (.node .nameRef (.leaf t.leaf .nil) inner) .nil) := by
  refine .of_primary (fun rest => ?_) (fun rest => ?_) fun rest Q behind ends => ?_
  · simp [is, expressionFirst, KindSet.contains_ofList]
  · simp [is]
  · simp only [primary, List.cons_append, passes_bind, passes_peekKind, seen_cons, is, passes_made, Rule.path,
      passes_node, nameRef, passes_takeKind, Forest.taken_cons, List.tail_cons]
    exact further.passes behind ends

variable {k : Kind}

theorem readable_parenthesized {o : Token} (opens : o.kind = .leftParen)
    (inside : ∀ rest Q, Q (some k) (.node k inner .nil) rest →
      Passes eof parenthesized (o :: tokens ++ rest) Q) : Readable eof k none (o :: tokens) inner := by
  refine .of_primary (fun rest => ?_) (fun rest => ?_) fun rest Q _ ends => ?_
  · simp [opens, expressionFirst, KindSet.contains_ofList]
  · simp [opens]
  · have reading := inside rest Q ends
    simpa only [primary, passes_bind, passes_peekKind, List.cons_append, seen_cons, opens,
      Forest.nil_append] using reading

theorem readable_block {o : Token} (opens : o.kind = .leftBrace)
    (inside : ∀ rest Q, Q () (.node .blockExpr inner .nil) rest →
      Passes eof (node .blockExpr block) (o :: tokens ++ rest) Q) :
    Readable eof .blockExpr none (o :: tokens) inner := by
  refine .of_primary (fun rest => ?_) (fun rest => ?_) fun rest Q _ ends => ?_
  · simp [opens, expressionFirst, KindSet.contains_ofList]
  · simp [opens]
  · have reading := inside rest (fun _ parts left => Q (some .blockExpr) parts left) ends
    simpa only [primary, passes_bind, passes_peekKind, List.cons_append, seen_cons, opens,
      Forest.nil_append, passes_made, passes_node] using reading

section Made

variable {level? : Option Nat} {before : List Token} {first : Forest}

theorem readable_call {o : Token} (callee : Readable eof k level? before first) (noBinary : k ≠ .binaryExpr)
    (noReference : k ≠ .refExpr) (opens : o.kind = .leftParen)
    (inside : ∀ rest Q, Q () (.node .argList inner .nil) rest →
      Passes eof arguments (o :: tokens ++ rest) Q) :
    Readable eof .callExpr none (before ++ o :: tokens) (.node k first (.node .argList inner .nil)) := by
  refine .of_postfixed (fun rest => ?_) (fun rest => ?_) fun rest Q behind ends => ?_
  · rw [List.append_assoc]
    exact callee.opens _
  · rw [List.append_assoc]
    exact callee.operand noBinary noReference _
  · rw [List.append_assoc]
    refine callee.calls noBinary noReference _ _ (by simp [opens]) ?_
    refine .grown (b := ()) (by simp [opens]) ?_
    rw [callStep, passes_bind]
    refine inside rest _ ?_
    simpa using ends

variable {a m : Token} (is : a.kind = .ampersand) (operand : Readable eof k level? tokens inner)
  (noBinary : k ≠ .binaryExpr)
include is operand noBinary

theorem readable_reference :
    Readable eof .refExpr none (a :: tokens) (.leaf a.leaf (.node k inner .nil)) := by
  refine .of_unary (fun rest => ?_) rfl fun rest Q behind ends => ?_
  · simp [is, expressionFirst, KindSet.contains_ofList]
  · have notMut := operand.seen_ne (a := .mutKw) (by decide) rest
    simp only [unary, refExpression, List.cons_append, passes_bind, passes_sees, seen_cons, is,
      beq_self_eq_true, passes_ite, if_true, passes_made, passes_take, Forest.taken_cons, List.tail_cons,
      passes_discard, passes_eat, notMut, if_false, passes_call]
    refine operand.alone noBinary rest _ behind ?_
    simpa using ends

theorem readable_mutable (word : m.kind = .mutKw) :
    Readable eof .refExpr none (a :: m :: tokens) (.leaf a.leaf (.leaf m.leaf (.node k inner .nil))) := by
  refine .of_unary (fun rest => ?_) rfl fun rest Q behind ends => ?_
  · simp [is, expressionFirst, KindSet.contains_ofList]
  · simp only [unary, refExpression, List.cons_append, passes_bind, passes_sees, seen_cons, is,
      beq_self_eq_true, passes_ite, if_true, passes_made, passes_take, Forest.taken_cons, List.tail_cons,
      passes_discard, passes_eat, word, passes_call]
    refine operand.alone noBinary rest _ behind ?_
    simpa using ends

end Made

theorem readable_binary {o : Token} {k' : Kind} {level?' : Option Nat} {before : List Token} {first : Forest}
    {level : Nat} {level? : Option Nat} (is : o.kind = .binaryOperator)
    (found : operatorLevel? o.text = some level) (pos : 1 ≤ level)
    (left : Readable eof k level? before first) (right : Readable eof k' level?' tokens inner)
    (above : ∀ own ∈ level?, level ≤ own) (above' : ∀ own ∈ level?', level < own) :
    Readable eof .binaryExpr (some level) (before ++ o :: tokens)
      (.node k first (.leaf o.leaf (.node k' inner .nil))) := by
  have ahead_ (rest : List Token) : (ahead eof (o :: rest)).level = some level := by
    simp [ahead, Token.lookahead, is, found]
  refine ⟨fun rest => ?_, fun other => absurd rfl other, fun other => absurd rfl other,
    fun other => absurd rfl other, fun least rest Q lower behind next ends => ?_, by simpa using pos⟩
  · rw [List.append_assoc]
    exact left.opens _
  have lower : least ≤ level := lower level rfl
  have next : ∀ n ∈ (ahead eof rest).level, n ≤ level := fun n mem => next n mem level rfl
  rw [List.append_assoc, List.cons_append]
  refine left.climbs least _ Q (fun own mem => Nat.le_trans lower (above own mem))
    (by simp [is, operandMore]) ?_ ?_
  · intro n mem
    rw [ahead_, Option.mem_some] at mem
    exact mem ▸ above
  · refine .grown (b := level) (by simp [ahead_, lower]) ?_
    simp only [operatorStep, passes_bind, passes_take, Forest.taken_cons, List.tail_cons, passes_discard,
      passes_call]
    -- The right operand ends where the whole expression does.
    refine right.climbs (level + 1) rest _ above' behind
      (fun n mem own inside => Nat.le_of_lt (Nat.lt_of_le_of_lt (next n mem) (above' own inside))) ?_
    refine .last ?_ ?_
    · simpa [operatorMore, Option.filter_eq_none_iff, Nat.lt_succ_iff] using next
    · simpa using ends

end LosslessTree
