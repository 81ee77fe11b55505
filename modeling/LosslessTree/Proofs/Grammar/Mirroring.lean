import Mathlib.Data.List.Forall2
import LosslessTree.Proofs.Grammar.Giving
import LosslessTree.Proofs.Tree.Skeleton

/-!
# Rules on two streams

Rules see kinds and levels of tokens. On two streams whose tokens are alike in these, a rule does the
same twice: it builds the same forest but for lengths and trivia, and reports the same at tokens that
stand for one another.
-/

set_option autoImplicit false

namespace LosslessTree

section Mirroring

variable {α β : Type} {R : Token → Token → Prop} {eof eof' : Token} {tokens tokens' : List Token}

def Diagnostic.Mirrored (R : Token → Token → Prop) (d d' : Diagnostic) : Prop :=
  d.message = d'.message ∧ ∃ t t', R t t' ∧ d.span = t.span ∧ d'.span = t'.span

structure Step.Mirrored (R : Token → Token → Prop) (s s' : Step α) : Prop where
  value : s.value = s'.value
  parts : s.parts.bare = s'.parts.bare
  reports : List.Forall₂ (Diagnostic.Mirrored R) s.reports s'.reports
  rest : List.Forall₂ R s.rest s'.rest

def Transfers (R : Token → Token → Prop) (given given' : List Token → Step α → Prop) : Prop :=
  ∀ tokens s, given tokens s → ∀ tokens', List.Forall₂ R tokens tokens' →
    ∃ s', given' tokens' s' ∧ s.Mirrored R s'

namespace Step

theorem mirrored_nothing (a : α) (same : List.Forall₂ R tokens tokens') :
    (Step.mk a .nil [] tokens).Mirrored R (Step.mk a .nil [] tokens') :=
  ⟨rfl, rfl, .nil, same⟩

theorem Mirrored.andThen {r r' : Step α} {s s' : Step β} (first : r.Mirrored R r')
    (next : s.Mirrored R s') :
    (r.andThen fun _ _ => s).Mirrored R (r'.andThen fun _ _ => s') where
  value := next.value
  parts := by simp [Step.andThen, first.parts, next.parts]
  reports := List.rel_append first.reports next.reports
  rest := next.rest

theorem Mirrored.wrapped {s s' : Step (Option Kind × α)} (h : s.Mirrored R s') :
    s.wrapped.Mirrored R s'.wrapped := by
  obtain ⟨value, parts, reports, rest⟩ := s
  obtain ⟨value', parts', reports', rest'⟩ := s'
  obtain ⟨rfl, same, messages, left⟩ := h
  obtain ⟨kind | kind, a⟩ := value
  · exact ⟨rfl, same, messages, left⟩
  · exact ⟨rfl, congrArg (fun f => Forest.node kind f .nil) same, messages, left⟩

theorem Mirrored.around {r r' : Step α} {s s' : Step (Kind × β)} (first : r.Mirrored R r')
    (next : s.Mirrored R s') :
    (r.around fun _ => s).Mirrored R (r'.around fun _ => s') where
  value := by simp [Step.around, Step.andThen, next.value]
  parts := by simp [Step.around, Step.andThen, Forest.bare, first.parts, next.parts, next.value]
  reports := List.rel_append first.reports next.reports
  rest := next.rest

theorem Repeats.mirrored {body body' : List Token → Step Bool → Prop}
    (each : Transfers R body body') : Transfers R (Repeats body) (Repeats body') := by
  intro tokens s h
  induction h with
  | last round ended =>
      intro tokens' same
      obtain ⟨s', round', mirrored⟩ := each _ _ round _ same
      exact ⟨_, .last round' (mirrored.value ▸ ended),
        rfl, mirrored.parts, mirrored.reports, mirrored.rest⟩
  | again round more _ ih =>
      intro tokens' same
      obtain ⟨s', round', mirrored⟩ := each _ _ round _ same
      obtain ⟨_, further, mirrored'⟩ := ih _ mirrored.rest
      exact ⟨_, .again round' (mirrored.value ▸ more) further, mirrored.andThen mirrored'⟩

theorem Grows.mirrored {more : α → Lookahead → Option β}
    {step step' : β → List Token → Step (Kind × α) → Prop}
    (sees : ∀ {tokens tokens'}, List.Forall₂ R tokens tokens' →
      ahead eof tokens = ahead eof' tokens')
    (each : ∀ b, Transfers R (step b) (step' b)) {s s' : Step α}
    (h : Grows (fun a rest => more a (ahead eof rest)) step s s') {r : Step α}
    (begun : s.Mirrored R r) :
    ∃ r', Grows (fun a rest => more a (ahead eof' rest)) step' r r' ∧ s'.Mirrored R r' := by
  induction h generalizing r with
  | done last =>
      refine ⟨r, .done ?_, begun⟩
      rw [← last, begun.value, sees begun.rest]
  | grown found round _ ih =>
      obtain ⟨_, round', mirrored⟩ := each _ _ _ round _ begun.rest
      obtain ⟨r', grows, ended⟩ := ih (begun.around mirrored)
      refine ⟨r', .grown ?_ round' grows, ended⟩
      rw [← found, begun.value, sees begun.rest]

end Step

variable (alike : ∀ t t', R t t' → t.lookahead = t'.lookahead) (ends : R eof eof')

include ends in
theorem mirrored_head (same : List.Forall₂ R tokens tokens') :
    R (tokens.headD eof) (tokens'.headD eof') := by
  cases same with
  | nil => exact ends
  | cons first _ => exact first

include alike ends

theorem Rule.Gives.mirrored {calls calls' : Giving}
    (called : ∀ p, Transfers R (calls p) (calls' p)) (rule : Rule α) :
    Transfers R (rule.Gives eof calls) (rule.Gives eof' calls') := by
  have sees {tokens tokens' : List Token} (same : List.Forall₂ R tokens tokens') :
      ahead eof tokens = ahead eof' tokens' := alike _ _ (mirrored_head ends same)
  induction rule with
  | pure | ensure =>
      rintro tokens _ rfl tokens' same
      exact ⟨_, rfl, Step.mirrored_nothing _ same⟩
  | peek =>
      rintro tokens _ rfl tokens' same
      refine ⟨_, rfl, ?_⟩
      rw [sees same]
      exact Step.mirrored_nothing _ same
  | take =>
      intro tokens s h tokens' same
      cases same with
      | nil =>
          cases h
          exact ⟨_, rfl, Step.mirrored_nothing _ .nil⟩
      | cons first rest =>
          cases h
          have kind := congrArg Lookahead.kind (alike _ _ first)
          exact ⟨_, rfl, rfl, congrArg (fun k => Forest.leaf ⟨[], k, 0, []⟩ .nil) kind, .nil, rest⟩
  | report problem =>
      rintro tokens _ rfl tokens' same
      exact ⟨_, rfl, rfl, rfl, .cons ⟨rfl, _, _, mirrored_head ends same, rfl, rfl⟩ .nil, same⟩
  | bind first next ih ih' =>
      rintro tokens _ ⟨r, begun, r', ended, rfl⟩ tokens' same
      obtain ⟨s, begun, mirrored⟩ := ih _ _ begun _ same
      obtain ⟨s', ended, mirrored'⟩ := ih' _ _ _ ended _ mirrored.rest
      rw [mirrored.value] at ended
      exact ⟨_, ⟨s, begun, s', ended, rfl⟩, mirrored.andThen mirrored'⟩
  | wrap body ih =>
      rintro tokens _ ⟨r, inside, rfl⟩ tokens' same
      obtain ⟨s, inside, mirrored⟩ := ih _ _ inside _ same
      exact ⟨_, ⟨s, inside, rfl⟩, mirrored.wrapped⟩
  | grow first more step ih ih' =>
      rintro tokens _ ⟨r, begun, grows⟩ tokens' same
      obtain ⟨s, begun, mirrored⟩ := ih _ _ begun _ same
      obtain ⟨s', grows, mirrored'⟩ := grows.mirrored sees ih' mirrored
      exact ⟨s', ⟨s, begun, grows⟩, mirrored'⟩
  | loop body ih => exact Step.Repeats.mirrored ih
  | call production => exact called production

theorem Production.Gives.mirrored (p : Production) :
    Transfers R (p.Gives eof) (p.Gives eof') := by
  intro tokens s h
  refine h (fun p tokens s => ∀ tokens', List.Forall₂ R tokens tokens' →
    ∃ s', p.Gives eof' tokens' s' ∧ s.Mirrored R s') ?_
  intro p tokens s inside tokens' same
  obtain ⟨s', given, mirrored⟩ := Rule.Gives.mirrored alike ends
    (fun _ _ _ called => called) p.rule _ _ inside _ same
  exact ⟨s', .of_rule given, mirrored⟩

omit ends in
theorem TokenStream.run_mirrored {s s' : TokenStream} (atEof : s.eof.kind = .eof)
    (plain : ∀ t ∈ s.tokens, t.kind.isNode = false) (atEof' : s'.eof.kind = .eof)
    (plain' : ∀ t ∈ s'.tokens, t.kind.isNode = false) (last : R s.eof s'.eof)
    (same : List.Forall₂ R s.tokens s'.tokens) :
    (s.run .file).Mirrored R (s'.run .file) := by
  obtain ⟨r, given, mirrored⟩ := Rule.Gives.mirrored alike last
    (Production.Gives.mirrored alike last) .file _ _ (gives_file atEof plain) _ same
  rwa [given.unique (gives_file atEof' plain')] at mirrored

end Mirroring

end LosslessTree
