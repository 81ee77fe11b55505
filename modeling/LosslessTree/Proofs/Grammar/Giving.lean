import LosslessTree.Grammar.Conservation
import LosslessTree.Grammar.Marking
import LosslessTree.Proofs.Grammar.Files

/-!
# What rules give

A rule read as a relation between the tokens that are left and the step that it gives, with no bound
on rounds or depth. A stream is parsed without reaching a bound, so the relation holds of its parse.
-/

set_option autoImplicit false

namespace LosslessTree

namespace Step

variable {α β : Type}

inductive Repeats (body : List Token → Step Bool → Prop) : List Token → Step Unit → Prop where
  | last {tokens : List Token} {s : Step Bool} (round : body tokens s) (ended : s.value = false) :
      Repeats body tokens ⟨(), s.parts, s.reports, s.rest⟩
  | again {tokens : List Token} {s : Step Bool} {s' : Step Unit} (round : body tokens s)
      (more : s.value = true) (rest : Repeats body s.rest s') :
      Repeats body tokens (s.andThen fun _ _ => s')

inductive Grows (more : α → List Token → Option β)
    (step : β → List Token → Step (Kind × α) → Prop) : Step α → Step α → Prop where
  | done {s : Step α} (last : more s.value s.rest = none) : Grows more step s s
  | grown {s s' : Step α} {b : β} {r : Step (Kind × α)} (found : more s.value s.rest = some b)
      (round : step b s.rest r) (rest : Grows more step (s.around fun _ => r) s') :
      Grows more step s s'

end Step

abbrev Giving := Production → List Token → Step (Option Kind) → Prop

-- The steps that a rule gives. `eof` stands behind the last token.
def Rule.Gives (eof : Token) (calls : Giving) :
    {α : Type} → Rule α → List Token → Step α → Prop
  | _, .pure a, tokens, s => s = ⟨a, .nil, [], tokens⟩
  | _, .bind first next, tokens, s => ∃ r, first.Gives eof calls tokens r ∧
      ∃ r', (next r.value).Gives eof calls r.rest r' ∧ s = r.andThen fun _ _ => r'
  | _, .peek, tokens, s => s = ⟨ahead eof tokens, .nil, [], tokens⟩
  | _, .ensure _, tokens, s => s = ⟨(), .nil, [], tokens⟩
  | _, .take, [], s => s = ⟨(), .nil, [], []⟩
  | _, .take, t :: tokens, s => s = ⟨(), .leaf t.leaf .nil, [], tokens⟩
  | _, .report problem, tokens, s =>
      s = ⟨(), .nil, [⟨problem.message, (tokens.headD eof).span⟩], tokens⟩
  | _, .wrap body, tokens, s => ∃ r, body.Gives eof calls tokens r ∧ s = r.wrapped
  | _, .grow first more step, tokens, s => ∃ r, first.Gives eof calls tokens r ∧
      Step.Grows (fun a rest => more a (ahead eof rest)) (fun b => (step b).Gives eof calls) r s
  | _, .loop body, tokens, s => Step.Repeats (body.Gives eof calls) tokens s
  | _, .call production, tokens, s => calls production tokens s

/-- The steps that a production gives: the least relation that holds of what its rule gives. -/
def Production.Gives (eof : Token) : Giving := fun production tokens s =>
  ∀ calls : Giving, (∀ p tokens s, p.rule.Gives eof calls tokens s → calls p tokens s) →
    calls production tokens s

namespace Step

variable {α β : Type}

theorem Repeats.imp {body body' : List Token → Step Bool → Prop} {tokens : List Token}
    {s : Step Unit} (h : Repeats body tokens s)
    (weaker : ∀ tokens s, body tokens s → body' tokens s) : Repeats body' tokens s := by
  induction h with
  | last round ended => exact .last (weaker _ _ round) ended
  | again round more _ ih => exact .again (weaker _ _ round) more ih

theorem Repeats.unique {body body' : List Token → Step Bool → Prop}
    (single : ∀ tokens s s', body tokens s → body' tokens s' → s = s') {tokens : List Token}
    {s s' : Step Unit} (h : Repeats body tokens s) (h' : Repeats body' tokens s') : s = s' := by
  induction h generalizing s' with
  | last round ended =>
      cases h' with
      | last round' _ => rw [single _ _ _ round round']
      | again round' more _ =>
          rw [single _ _ _ round round', more] at ended
          cases ended
  | again round more _ ih =>
      cases h' with
      | last round' ended =>
          rw [single _ _ _ round round', ended] at more
          cases more
      | again round' _ rest =>
          obtain rfl := single _ _ _ round round'
          rw [ih rest]

section Growth

variable {more : α → List Token → Option β} {step step' : β → List Token → Step (Kind × α) → Prop}
  {s s' s'' : Step α}

theorem Grows.imp (h : Grows more step s s')
    (weaker : ∀ b tokens r, step b tokens r → step' b tokens r) : Grows more step' s s' := by
  induction h with
  | done last => exact .done last
  | grown found round _ ih => exact .grown found (weaker _ _ _ round) ih

theorem Grows.unique (single : ∀ b tokens r r', step b tokens r → step' b tokens r' → r = r')
    (h : Grows more step s s') (h' : Grows more step' s s'') : s' = s'' := by
  induction h with
  | done last =>
      cases h' with
      | done => rfl
      | grown found =>
          rw [last] at found
          cases found
  | grown found round _ ih =>
      cases h' with
      | done last =>
          rw [last] at found
          cases found
      | grown found' round' rest =>
          rw [found] at found'
          cases found'
          obtain rfl := single _ _ _ _ round round'
          exact ih rest

end Growth

theorem Keeps.followed {s : Step α} {s' : Step β} {tokens : List Token} (kept : s.Keeps tokens)
    (kept' : s'.Keeps s.rest) : (s.andThen fun _ _ => s').Keeps tokens := by
  simp only [Keeps, Step.andThen, Forest.leaves_append] at *
  rw [kept, kept', List.append_assoc]

theorem Keeps.surrounded {s : Step α} {s' : Step (Kind × β)} {tokens : List Token}
    (kept : s.Keeps tokens) (kept' : s'.Keeps s.rest) : (s.around fun _ => s').Keeps tokens := by
  simpa [Keeps, Step.around, Forest.leaves] using kept.followed kept'

theorem Repeats.keeps {body : List Token → Step Bool → Prop}
    (kept : ∀ tokens s, body tokens s → s.Keeps tokens) {tokens : List Token} {s : Step Unit}
    (h : Repeats body tokens s) : s.Keeps tokens := by
  induction h with
  | last round _ => exact kept _ _ round
  | again round _ _ ih => exact (kept _ _ round).followed ih

theorem Grows.keeps {more : α → List Token → Option β}
    {step : β → List Token → Step (Kind × α) → Prop} {s s' : Step α}
    (kept : ∀ b tokens r, step b tokens r → r.Keeps tokens) {tokens : List Token}
    (h : Grows more step s s') (begun : s.Keeps tokens) : s'.Keeps tokens := by
  induction h with
  | done => exact begun
  | grown _ round _ ih => exact ih (begun.surrounded (kept _ _ _ round))

theorem Grows.reports_nil {more : α → List Token → Option β}
    {step : β → List Token → Step (Kind × α) → Prop} {s s' : Step α} (h : Grows more step s s')
    (quiet : s'.reports = []) : s.reports = [] := by
  induction h with
  | done => exact quiet
  | grown _ _ _ ih => exact (List.append_eq_nil_iff.mp (ih quiet)).1

end Step

namespace Rule

variable {α : Type} {eof : Token} {calls calls' : Giving} {rule : Rule α} {tokens : List Token}
  {s s' : Step α}

theorem Gives.imp (h : rule.Gives eof calls tokens s)
    (weaker : ∀ p tokens s, calls p tokens s → calls' p tokens s) :
    rule.Gives eof calls' tokens s := by
  induction rule generalizing tokens with
  | pure | peek | ensure | report => exact h
  | take => cases tokens <;> exact h
  | bind first next ih ih' =>
      obtain ⟨r, begun, r', ended, rfl⟩ := h
      exact ⟨r, ih begun, r', ih' _ ended, rfl⟩
  | wrap body ih =>
      obtain ⟨r, inside, rfl⟩ := h
      exact ⟨r, ih inside, rfl⟩
  | grow first more step ih ih' =>
      obtain ⟨r, begun, grows⟩ := h
      exact ⟨r, ih begun, grows.imp fun b _ _ round => ih' b round⟩
  | loop body ih => exact Step.Repeats.imp h fun _ _ round => ih round
  | call production => exact weaker _ _ _ h

theorem Gives.unique_of (single : ∀ p tokens s s', calls p tokens s → calls' p tokens s' → s = s')
    (h : rule.Gives eof calls tokens s) (h' : rule.Gives eof calls' tokens s') : s = s' := by
  induction rule generalizing tokens with
  | pure | peek | ensure | report => exact h.trans h'.symm
  | take => cases tokens <;> exact Eq.trans h (Eq.symm h')
  | bind first next ih ih' =>
      obtain ⟨r, begun, _, ended, rfl⟩ := h
      obtain ⟨r', begun', _, ended', rfl⟩ := h'
      obtain rfl := ih begun begun'
      rw [ih' _ ended ended']
  | wrap body ih =>
      obtain ⟨r, inside, rfl⟩ := h
      obtain ⟨r', inside', rfl⟩ := h'
      rw [ih inside inside']
  | grow first more step ih ih' =>
      obtain ⟨r, begun, grows⟩ := h
      obtain ⟨r', begun', grows'⟩ := h'
      obtain rfl := ih begun begun'
      refine grows.unique ?_ grows'
      exact fun b _ _ _ => ih' b
  | loop body ih =>
      refine Step.Repeats.unique ?_ h h'
      exact fun _ _ _ => ih
  | call production => exact single _ _ _ _ h h'

theorem Gives.keeps_of (kept : ∀ p tokens s, calls p tokens s → s.Keeps tokens)
    (h : rule.Gives eof calls tokens s) : s.Keeps tokens := by
  induction rule generalizing tokens with
  | pure | peek | ensure | report =>
      rw [h]
      exact Step.keeps_nothing _ _ _
  | take =>
      cases tokens <;> rw [h] <;> simp [Step.Keeps, Forest.leaves]
  | bind first next ih ih' =>
      obtain ⟨r, begun, r', ended, rfl⟩ := h
      exact (ih begun).followed (ih' _ ended)
  | wrap body ih =>
      obtain ⟨r, inside, rfl⟩ := h
      exact (ih inside).wrapped
  | grow first more step ih ih' =>
      obtain ⟨r, begun, grows⟩ := h
      exact grows.keeps (fun b _ _ round => ih' b round) (ih begun)
  | loop body ih => exact Step.Repeats.keeps (fun _ _ round => ih round) h
  | call production => exact kept _ _ _ h

end Rule

namespace Production

variable {eof : Token} {p : Production} {tokens : List Token} {s s' : Step (Option Kind)}

theorem Gives.of_rule (h : p.rule.Gives eof (Production.Gives eof) tokens s) :
    p.Gives eof tokens s :=
  fun calls closed => closed _ _ _ (h.imp fun _ _ _ called => called calls closed)

theorem gives_iff : p.Gives eof tokens s ↔ p.rule.Gives eof (Production.Gives eof) tokens s := by
  constructor
  · intro h
    apply h fun p tokens s => p.rule.Gives eof (Production.Gives eof) tokens s
    exact fun p tokens s inside => inside.imp fun _ _ _ => .of_rule
  · exact .of_rule

theorem Gives.unique (h : p.Gives eof tokens s) (h' : p.Gives eof tokens s') : s = s' := by
  refine h (fun p tokens s => ∀ s', p.Gives eof tokens s' → s = s') ?_ s' h'
  intro p tokens s inside s' h'
  exact inside.unique_of (fun _ _ _ s' same given => same s' given) (gives_iff.mp h')

theorem Gives.keeps (h : p.Gives eof tokens s) : s.Keeps tokens :=
  h (fun _ tokens s => s.Keeps tokens) fun _ _ _ inside => inside.keeps_of fun _ _ _ kept => kept

end Production

namespace Rule

variable {α : Type} {eof : Token} {rule : Rule α} {tokens : List Token} {s s' : Step α}

theorem Gives.unique (h : rule.Gives eof (Production.Gives eof) tokens s)
    (h' : rule.Gives eof (Production.Gives eof) tokens s') : s = s' := by
  refine h.unique_of ?_ h'
  exact fun _ _ _ _ => Production.Gives.unique

-- What is built and what is left are the tokens.
theorem Gives.keeps (h : rule.Gives eof (Production.Gives eof) tokens s) : s.Keeps tokens :=
  h.keeps_of fun _ _ _ => Production.Gives.keeps

end Rule

theorem Marking.bind_eq_ok {α β : Type} {first : Except Panic α} {next : α → Except Panic β}
    {b : β} : (first >>= next) = .ok b ↔ ∃ a, first = .ok a ∧ next a = .ok b := by
  cases first with
  | error => simp [bind, Except.bind]
  | ok a => simp [bind, Except.bind]

theorem Marking.precede_rest {keep : Nat → Nat} {m : Marking} {marked : Nat × Marking}
    (h : m.precede keep = .ok marked) : marked.2.rest = m.rest := by
  rw [precede] at h
  split at h
  · cases h
  · split at h
    next around begun started =>
      cases started
      split at h
      · cases h
      · split at h
        · cases h
        · cases h
          rfl
      · cases h

theorem Marking.complete_rest {m m' : Marking} {position : Nat} {kind : Kind}
    (h : m.complete position kind = .ok m') : m'.rest = m.rest := by
  rw [complete] at h
  split at h
  · cases h
  · cases h
    rfl
  · cases h

theorem Marking.abandon_rest {m m' : Marking} {position : Nat}
    (h : m.abandon position = .ok m') : m'.rest = m.rest := by
  rw [abandon] at h
  split at h
  · cases h
  split at h
  · split at h
    · cases h
      rfl
    · cases h
  · cases h
    rfl

namespace Step

variable {α β : Type} {eof : Token} {keep : Nat → Nat}

-- Where the program does not panic the step is given, with the program's result.
def Agrees (given : List Token → Step α → Prop) (step : List Token → Step α)
    (program : Marking.Run α) : Prop :=
  ∀ m a m', program m = .ok (a, m') →
    given m.rest (step m.rest) ∧ (step m.rest).value = a ∧ (step m.rest).rest = m'.rest

theorem Agrees.repeating {given : List Token → Step Bool → Prop} {step : List Token → Step Bool}
    {program : Marking.Run Bool} (body : Agrees given step program) (n : Nat) :
    Agrees (Repeats given) (Step.repeating step n) (Marking.repeating program n) := by
  induction n with
  | zero =>
      intro m a m' ran
      cases ran
  | succ n ih =>
      intro m a m' ran
      obtain ⟨⟨again, between⟩, round, ran⟩ := Marking.bind_eq_ok.mp ran
      obtain ⟨given, value, rest⟩ := body _ _ _ round
      simp only [Step.repeating, Step.andThen, value]
      cases again with
      | true =>
          obtain ⟨repeats, -, rest'⟩ := ih _ _ _ ran
          rw [← rest] at repeats rest'
          exact ⟨.again given value repeats, trivial, rest'⟩
      | false =>
          cases ran
          refine ⟨?_, trivial, rest⟩
          have last := Repeats.last given value
          simpa using last

theorem Agrees.growing {more : α → Lookahead → Option β}
    {given : β → List Token → Step (Kind × α) → Prop} {step : β → List Token → Step (Kind × α)}
    {program : β → Marking.Run (Kind × α)} (body : ∀ b, Agrees (given b) (step b) (program b))
    (n : Nat) {s : Step α} {m m' : Marking} {a : α} (same : s.rest = m.rest)
    (ran : Marking.growing keep (fun a m => more a (m.ahead eof)) program n s.value m = .ok (a, m')) :
    let s' := Step.growing (fun a rest => more a (ahead eof rest)) step n s
    Grows (fun a rest => more a (ahead eof rest)) given s s' ∧ s'.value = a ∧ s'.rest = m'.rest := by
  have sees : m.ahead eof = ahead eof s.rest := by
    rw [same]
    rfl
  induction n generalizing s m with
  | zero =>
      cases found : more s.value (ahead eof s.rest) with
      | none =>
          simp only [Marking.growing, sees, found, Option.isSome_none, Bool.false_eq_true,
            if_false] at ran
          cases ran
          exact ⟨.done found, rfl, same⟩
      | some b => simp [Marking.growing, sees, found] at ran
  | succ n ih =>
      cases found : more s.value (ahead eof s.rest) with
      | none =>
          simp only [Marking.growing, sees, found] at ran
          cases ran
          simp only [Step.growing, found]
          exact ⟨.done found, trivial, same⟩
      | some b =>
          simp only [Marking.growing, sees, found] at ran
          obtain ⟨⟨position, begun⟩, preceded, ran⟩ := Marking.bind_eq_ok.mp ran
          obtain ⟨⟨⟨kind, a'⟩, between⟩, stepped, ran⟩ := Marking.bind_eq_ok.mp ran
          obtain ⟨closed, completed, ran⟩ := Marking.bind_eq_ok.mp ran
          obtain ⟨round, value, rest⟩ := body b _ _ _ stepped
          have kept : begun.rest = m.rest := Marking.precede_rest preceded
          rw [kept, ← same] at round value rest
          have around : (s.around (step b)).rest = closed.rest :=
            rest.trans (Marking.complete_rest completed).symm
          have carried : (s.around (step b)).value = a' := congrArg Prod.snd value
          rw [← carried] at ran
          obtain ⟨grows, ends⟩ := ih around ran (by rw [around]; rfl)
          simp only [Step.growing, found]
          exact ⟨.grown found round grows, ends⟩

end Step

theorem Rule.mark_agrees {α : Type} {keep : Nat → Nat} {eof : Token} {productions : Productions}
    {programs : Production → Marking.Run (Option Kind)}
    (calls : ∀ p, Step.Agrees (p.Gives eof) (productions p) (programs p)) (rule : Rule α) :
    Step.Agrees (rule.Gives eof (Production.Gives eof)) (rule.run eof productions)
      (rule.mark keep eof programs) := by
  induction rule with
  | pure | peek | report =>
      intro m a m' ran
      cases ran
      exact ⟨rfl, rfl, rfl⟩
  | ensure =>
      intro m a m' ran
      rw [mark] at ran
      split at ran
      · cases ran
        exact ⟨rfl, rfl, rfl⟩
      · cases ran
  | take =>
      rintro ⟨marks, completed, reports, rest⟩ a m' ran
      cases ran
      cases rest <;> exact ⟨rfl, rfl, rfl⟩
  | bind first next ih ih' =>
      intro m a m' ran
      obtain ⟨⟨b, between⟩, begun, ran⟩ := Marking.bind_eq_ok.mp ran
      obtain ⟨given, rfl, rest⟩ := ih _ _ _ begun
      obtain ⟨given', value', rest'⟩ := ih' _ _ _ _ ran
      rw [← rest] at given' value' rest'
      exact ⟨⟨_, given, _, given', rfl⟩, value', rest'⟩
  | wrap body ih =>
      intro m a m' ran
      obtain ⟨⟨⟨kind, a'⟩, between⟩, inside, ran⟩ := Marking.bind_eq_ok.mp ran
      obtain ⟨given, value, rest⟩ := ih _ _ _ inside
      change (body.run eof productions m.rest).value = _ at value
      refine ⟨⟨_, given, rfl⟩, ?_⟩
      simp only [run, Step.wrapped, value]
      cases kind with
      | some k =>
          obtain ⟨closed, completed, ran⟩ := Marking.bind_eq_ok.mp ran
          cases ran
          exact ⟨rfl, rest.trans (Marking.complete_rest completed).symm⟩
      | none =>
          obtain ⟨closed, abandoned, ran⟩ := Marking.bind_eq_ok.mp ran
          cases ran
          exact ⟨rfl, rest.trans (Marking.abandon_rest abandoned).symm⟩
  | grow first more step ih ih' =>
      intro m a m' ran
      obtain ⟨⟨b, between⟩, begun, ran⟩ := Marking.bind_eq_ok.mp ran
      obtain ⟨given, rfl, rest⟩ := ih _ _ _ begun
      have grows := Step.Agrees.growing ih' _ rest ran
      exact ⟨⟨_, given, grows.1⟩, grows.2⟩
  | loop body ih =>
      intro m
      exact ih.repeating _ m
  | call production => exact calls production

theorem Marking.upTo_agrees (keep : Nat → Nat) (eof : Token) (n : Nat) (p : Production) :
    Step.Agrees (p.Gives eof) (Productions.upTo Production.rule eof n p) (Marking.upTo keep eof n p) := by
  induction n generalizing p with
  | zero =>
      intro m a m' ran
      cases ran
  | succ n ih =>
      intro m a m' ran
      obtain ⟨given, ends⟩ := Rule.mark_agrees ih p.rule _ _ _ ran
      exact ⟨.of_rule given, ends⟩

namespace TokenStream

theorem gives_file {s : TokenStream} (atEof : s.eof.kind = .eof)
    (plain : ∀ t ∈ s.tokens, t.kind.isNode = false) :
    Rule.file.Gives s.eof (Production.Gives s.eof) s.tokens (s.run .file) := by
  have quiet : (s.run .file).Quiet true := Step.quiet_broken
  have marked := (run_file_fits atEof plain quiet).marked rfl
  obtain ⟨new, completed, ran, -⟩ := marked id ⟨[], none, [], s.tokens⟩ rfl fun _ _ => rfl
  exact (Rule.mark_agrees (Marking.upTo_agrees id s.eof _) .file _ _ _ ran).1

end TokenStream

end LosslessTree
