import LosslessTree.Grammar.Calls
import LosslessTree.Proofs.Grammar.Reporting

set_option autoImplicit false

namespace LosslessTree

namespace Step

variable {α β : Type} {more : α → List Token → Option β} {step : β → List Token → Step (Kind × α)}

theorem growing_last (shorter : ∀ a b tokens, more a tokens = some b →
      (step b tokens).rest.length < tokens.length) {n : Nat} {built : Step α}
    (enough : built.rest.length < n) :
    more (growing more step n built).value (growing more step n built).rest = none := by
  induction n generalizing built with
  | zero => cases enough
  | succ n ih =>
      rw [growing]
      split
      · next last => exact last
      · next b found =>
          have less := shorter _ b _ found
          exact ih (Nat.lt_of_lt_of_le less (Nat.le_of_lt_succ enough))

theorem growing_isSome {more : Option α → List Token → Option β}
    {step : β → List Token → Step (Kind × Option α)} (there : ∀ tokens, more none tokens = none)
    (stays : ∀ b tokens, (step b tokens).value.2.isSome = true) (n : Nat) (built : Step (Option α)) :
    (growing more step n built).value.isSome = built.value.isSome := by
  induction n generalizing built with
  | zero => rfl
  | succ n ih =>
      rw [growing]
      split
      · rfl
      · next b found =>
          -- A node is put around nothing but an operand that is there.
          have present : built.value.isSome = true := by
            cases missing : built.value with
            | none =>
                rw [missing, there] at found
                cases found
            | some => rfl
          rw [ih, present]
          exact stays b built.rest

end Step

namespace Rule

theorem expression_stops {eof : Token} {productions : Productions} (atEof : eof.kind = .eof)
    (kept : ∀ p tokens, (productions p tokens).Keeps tokens) (least : Nat) (tokens : List Token) :
    ((expression least).run eof productions tokens).value.isSome =
        (unary.run eof productions tokens).value.isSome ∧
      (((expression least).run eof productions tokens).value.isSome = true →
        (ahead eof ((expression least).run eof productions tokens).rest).level.filter (least ≤ ·) =
          none) := by
  have within : (unary.run eof productions tokens).rest.length < tokens.length + 1 :=
    Nat.lt_succ_of_le (unary.run_keeps eof productions kept tokens).rest_le
  have last := @Step.growing_last _ _
    (fun kind rest => if kind.isSome then (ahead eof rest).level.filter (least ≤ ·) else none)
    (fun level => (do
      take
      discard (call (.expression (level + 1)))
      return (Kind.binaryExpr, some Kind.binaryExpr) : Rule _).run eof productions) ?_ _ _ within
  · refine ⟨Step.growing_isSome (fun _ => rfl) (fun _ _ => rfl) _ _, fun present => ?_⟩
    exact (if_pos present).symm.trans last
  · intro kind level rest found
    obtain ⟨-, operator⟩ := Option.ite_none_right_eq_some.mp found
    have here := seen_of_ahead_level (Option.filter_eq_some_iff.mp operator).1
    cases rest with
    | nil => exact absurd (atEof.symm.trans here) (by decide)
    | cons t rest => exact Nat.lt_succ_of_le (kept _ rest).rest_le

end Rule

section Recording

variable {eof : Token} {all : List Token} {Q : Call → Prop}

theorem Step.forall_callsRepeating {body : List Token → Step Bool} {calls : List Token → List Call}
    (left : ∀ tokens, tokens <:+ all → (body tokens).rest <:+ all)
    (each : ∀ tokens, tokens <:+ all → ∀ c ∈ calls tokens, Q c) (n : Nat) {tokens : List Token}
    (inside : tokens <:+ all) : ∀ c ∈ callsRepeating body calls n tokens, Q c := by
  induction n generalizing tokens with
  | zero => simp [callsRepeating]
  | succ n ih =>
      intro c mem
      rcases List.mem_append.mp mem with mem | mem
      · exact each tokens inside c mem
      split at mem
      · exact ih (left tokens inside) c mem
      · cases mem

theorem Step.forall_callsGrowing {α β : Type} {more : α → List Token → Option β}
    {step : β → List Token → Step (Kind × α)} {calls : β → List Token → List Call}
    (left : ∀ b tokens, tokens <:+ all → (step b tokens).rest <:+ all)
    (each : ∀ b tokens, tokens <:+ all → ∀ c ∈ calls b tokens, Q c) (n : Nat) {built : Step α}
    (inside : built.rest <:+ all) : ∀ c ∈ callsGrowing more step calls n built, Q c := by
  induction n generalizing built with
  | zero => simp [callsGrowing]
  | succ n ih =>
      intro c mem
      rw [callsGrowing] at mem
      split at mem
      · cases mem
      · next b _ =>
          rcases List.mem_append.mp mem with mem | mem
          · exact each b _ inside c mem
          · exact ih (left b _ inside) c mem

variable {productions : Productions} {inside : Production → List Token → List Call}
  (ordered : Token.Ordered eof all)
include ordered

-- What holds of each call that is made at tokens behind some of all, and of those inside it, holds
-- of the calls of a rule.
theorem Rule.forall_calls
    (advance : ∀ p tokens, Token.Ordered eof tokens → (productions p tokens).Advances eof tokens)
    (direct : ∀ p tokens, tokens <:+ all → Q ⟨p, tokens, productions p tokens⟩)
    (nested : ∀ p tokens, tokens <:+ all → ∀ c ∈ inside p tokens, Q c) {α : Type} (rule : Rule α)
    {tokens : List Token} (within : tokens <:+ all) :
    ∀ c ∈ rule.calls eof productions inside tokens, Q c := by
  have left {α : Type} (rule : Rule α) (tokens : List Token) (within : tokens <:+ all) :
      (rule.run eof productions tokens).rest <:+ all :=
    (rule.run_advances advance (ordered.suffix within)).rest.trans within
  induction rule generalizing tokens with
  | pure | peek | ensure | take | report => simp [calls]
  | bind first next ih ih' =>
      intro c mem
      rcases List.mem_append.mp mem with mem | mem
      · exact ih within c mem
      · exact ih' _ (left first tokens within) c mem
  | wrap body ih => exact ih within
  | grow first more step ih ih' =>
      intro c mem
      rcases List.mem_append.mp mem with mem | mem
      · exact ih within c mem
      · exact Step.forall_callsGrowing (fun b => left (step b)) (fun b _ => ih' b) _
          (left first tokens within) c mem
  | loop body ih => exact Step.forall_callsRepeating (left body) (fun _ => ih) _ within
  | call p =>
      intro c mem
      rcases List.mem_cons.mp mem with rfl | mem
      · exact direct p tokens within
      · exact nested p tokens within c mem

end Recording

theorem TokenStream.called {s : TokenStream} (ordered : Token.Ordered s.eof s.tokens) {α : Type}
    (rule : Rule α) :
    ∀ c ∈ s.calls rule, c.tokens <:+ s.tokens ∧
      ∃ depth, c.step = Productions.upTo Production.rule s.eof depth c.production c.tokens := by
  have advance := Productions.upTo_advances Production.rule s.eof
  refine Rule.forall_calls ordered (advance _) (fun p tokens within => ⟨within, _, rfl⟩) ?_ rule
    List.suffix_rfl
  generalize s.tokens.length + 1 = depth
  induction depth with
  | zero => simp [Productions.callsUpTo]
  | succ depth ih =>
      intro p tokens within
      exact Rule.forall_calls ordered (advance depth) (fun p tokens within => ⟨within, depth, rfl⟩) ih
        p.rule within

-- The operand on the right is missing, and the call of it gives nothing.
example : ((TokenStream.ofText ['1', '+', '}']).calls .statement).map
      (fun c => (c.production, c.step.value.isSome)) =
    [(.expression 1, true), (.expression 7, false)] := by decide +kernel

theorem TokenStream.ahead_level_eq_none_iff {text : Text} {tokens : List Token}
    (left : tokens <:+ (ofText text).tokens) :
    (ahead (ofText text).eof tokens).level.filter (1 ≤ ·) = none ↔
      seen (ofText text).eof tokens ≠ .binaryOperator := by
  constructor
  · intro loose operator
    cases tokens with
    | nil => exact absurd ((ofText_eof text).symm.trans operator) (by decide)
    | cons t rest =>
        obtain ⟨level, found, -, pos⟩ :=
          (ofText_lexed text t (left.subset List.mem_cons_self)).operator_level operator
        change t.lookahead.level.filter _ = none at loose
        rw [found, Option.filter_some_pos (by simpa using pos)] at loose
        cases loose
  · intro other
    cases found : (ahead (ofText text).eof tokens).level with
    | none => rfl
    | some => exact absurd (seen_of_ahead_level found) other

/-- Every operator of a text has a level. Behind an operand that is there an expression above the loosest
level stops at no operator, and none is left behind any such expression that a parse of the text finds. -/
theorem operators_exhausted (text : Text) :
    let s := TokenStream.ofText text
    (∀ t ∈ s.tokens, t.kind = .binaryOperator →
      ∃ level, t.lookahead.level = some level ∧ operatorLevel? t.text = some level ∧ 1 ≤ level) ∧
    (∀ depth tokens, tokens <:+ s.tokens →
      (Rule.unary.run s.eof (.upTo Production.rule s.eof depth) tokens).value.isSome = true →
      let r := (Rule.expression 1).run s.eof (.upTo Production.rule s.eof depth) tokens
      r.value.isSome = true ∧ seen s.eof r.rest ≠ .binaryOperator) ∧
    ∀ c ∈ s.calls .file, c.production = .expression 1 → c.step.value.isSome = true →
      seen s.eof c.step.rest ≠ .binaryOperator := by
  intro s
  have ordered := TokenStream.ofText_ordered text
  have stops (depth : Nat) (tokens : List Token) (left : tokens <:+ s.tokens)
      (operand : (Rule.unary.run s.eof (.upTo Production.rule s.eof depth) tokens).value.isSome = true) :
      let r := (Rule.expression 1).run s.eof (.upTo Production.rule s.eof depth) tokens
      r.value.isSome = true ∧ seen s.eof r.rest ≠ .binaryOperator := by
    obtain ⟨same, last⟩ := Rule.expression_stops (TokenStream.ofText_eof text)
      (Productions.upTo_keeps Production.rule s.eof depth) 1 tokens
    have advanced := (Rule.expression 1).run_advances
      (Productions.upTo_advances Production.rule s.eof depth) (ordered.suffix left)
    have present := same.trans operand
    exact ⟨present, (TokenStream.ahead_level_eq_none_iff (advanced.rest.trans left)).mp (last present)⟩
  refine ⟨fun t mem => (TokenStream.ofText_lexed text t mem).operator_level, stops, ?_⟩
  intro c mem isExpression found
  obtain ⟨left, depth, gives⟩ := TokenStream.called ordered .file c mem
  rw [isExpression] at gives
  cases depth with
  | zero =>
      rw [gives] at found
      cases found
  | succ depth =>
      have same := (Rule.expression_stops (TokenStream.ofText_eof text)
        (Productions.upTo_keeps Production.rule s.eof depth) 1 c.tokens).1
      rw [gives] at found ⊢
      exact (stops depth c.tokens left (same.symm.trans found)).2

end LosslessTree
