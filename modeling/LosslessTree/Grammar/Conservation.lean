import LosslessTree.Grammar.Parse

set_option autoImplicit false

namespace LosslessTree

def Step.Keeps {α : Type} (s : Step α) (tokens : List Token) : Prop :=
  tokens.map Token.leaf = s.parts.leaves ++ s.rest.map Token.leaf

namespace Step

theorem keeps_nothing {α : Type} (value : α) (reports : List Diagnostic) (tokens : List Token) :
    (Step.mk value .nil reports tokens).Keeps tokens := by
  simp [Keeps, Forest.leaves]

theorem Keeps.andThen {α β : Type} {s : Step α} {tokens : List Token}
    {next : α → List Token → Step β} (kept : s.Keeps tokens)
    (nextKept : ∀ value rest, (next value rest).Keeps rest) :
    (s.andThen next).Keeps tokens := by
  have more := nextKept s.value s.rest
  simp only [Keeps, Step.andThen, Forest.leaves_append] at *
  rw [kept, more, List.append_assoc]

theorem Keeps.wrapped {α : Type} {s : Step (Option Kind × α)} {tokens : List Token}
    (kept : s.Keeps tokens) : s.wrapped.Keeps tokens := by
  unfold Step.wrapped
  split <;> simpa [Keeps, Forest.leaves] using kept

theorem repeating_keeps {body : List Token → Step Bool}
    (kept : ∀ tokens, (body tokens).Keeps tokens) (n : Nat) (tokens : List Token) :
    (repeating body n tokens).Keeps tokens := by
  induction n generalizing tokens with
  | zero => exact keeps_nothing _ _ _
  | succ n ih =>
      refine (kept tokens).andThen fun again rest => ?_
      cases again with
      | false => exact keeps_nothing _ _ _
      | true => exact ih rest

theorem Keeps.around {α β : Type} {built : Step α} {tokens : List Token}
    {step : List Token → Step (Kind × β)} (kept : built.Keeps tokens)
    (stepKept : ∀ rest, (step rest).Keeps rest) : (built.around step).Keeps tokens := by
  have all : (built.andThen fun _ rest => step rest).Keeps tokens :=
    kept.andThen fun _ rest => stepKept rest
  simpa [Keeps, Step.around, Forest.leaves] using all

theorem Keeps.growing {α β : Type} {more : α → List Token → Option β}
    {step : β → List Token → Step (Kind × α)} (stepKept : ∀ b tokens, (step b tokens).Keeps tokens)
    (n : Nat) {built : Step α} {tokens : List Token} (kept : built.Keeps tokens) :
    (growing more step n built).Keeps tokens := by
  induction n generalizing built with
  | zero => exact kept
  | succ n ih =>
      simp only [Step.growing]
      split
      · exact kept
      · exact ih (kept.around (stepKept _))

end Step

-- A rule keeps its tokens if the productions that it calls keep theirs.
theorem Rule.run_keeps (eof : Token) (productions : Productions)
    (calls : ∀ production tokens, (productions production tokens).Keeps tokens) {α : Type}
    (rule : Rule α) (tokens : List Token) : (rule.run eof productions tokens).Keeps tokens := by
  induction rule generalizing tokens with
  | pure => exact Step.keeps_nothing _ _ _
  | bind first next firstKept nextKept => exact (firstKept tokens).andThen nextKept
  | peek => exact Step.keeps_nothing _ _ _
  | ensure => exact Step.keeps_nothing _ _ _
  | take => cases tokens <;> simp [Step.Keeps, run, Forest.leaves]
  | report => exact Step.keeps_nothing _ _ _
  | wrap body ih => exact (ih tokens).wrapped
  | grow first more step firstKept stepKept =>
      exact Step.Keeps.growing stepKept _ (firstKept tokens)
  | loop body ih => exact Step.repeating_keeps ih _ _
  | call production => exact calls production tokens

theorem Productions.upTo_keeps (rules : Production → Rule (Option Kind)) (eof : Token) (n : Nat)
    (production : Production) (tokens : List Token) :
    (upTo rules eof n production tokens).Keeps tokens := by
  induction n generalizing production tokens with
  | zero => exact Step.keeps_nothing _ _ _
  | succ n ih => exact (rules production).run_keeps eof _ ih tokens

theorem TokenStream.run_keeps (s : TokenStream) {α : Type} (rule : Rule α) :
    (s.run rule).Keeps s.tokens :=
  rule.run_keeps s.eof _ (Productions.upTo_keeps _ s.eof _) s.tokens

end LosslessTree
