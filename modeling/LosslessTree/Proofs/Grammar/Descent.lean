import LosslessTree.Grammar.Descent
import LosslessTree.Proofs.Grammar.Certifying

/-!
# Rules get on

Rounds and steps that ask for another one take a token, and what a production calls is called behind
the token that it begins with. So there are fewer tokens left at every return to a production or to a
statement, and a parse needs no other bound than the tokens that are left.
-/

set_option autoImplicit false

namespace LosslessTree

namespace Step

variable {α β : Type}

inductive Again (body : List Token → Step Bool → Prop) : List Token → List Token → Prop where
  | here {tokens : List Token} : Again body tokens tokens
  | round {tokens rest : List Token} {s : Step Bool} (given : body tokens s) (more : s.value = true)
      (later : Again body s.rest rest) : Again body tokens rest

inductive Built (more : α → List Token → Option β) (step : β → List Token → Step (Kind × α) → Prop) :
    Step α → Step α → Prop where
  | here {s : Step α} : Built more step s s
  | grown {s s' : Step α} {b : β} {r : Step (Kind × α)} (found : more s.value s.rest = some b)
      (given : step b s.rest r) (later : Built more step (s.around fun _ => r) s') : Built more step s s'

theorem Again.rest_le {body : List Token → Step Bool → Prop}
    (kept : ∀ tokens s, body tokens s → s.Keeps tokens) {tokens rest : List Token}
    (h : Again body tokens rest) : rest.length ≤ tokens.length := by
  induction h with
  | here => exact Nat.le_refl _
  | round given _ _ ih => exact Nat.le_trans ih (kept _ _ given).rest_le

theorem Built.rest_le {more : α → List Token → Option β}
    {step : β → List Token → Step (Kind × α) → Prop}
    (kept : ∀ b tokens r, step b tokens r → r.Keeps tokens) {s s' : Step α}
    (h : Built more step s s') : s'.rest.length ≤ s.rest.length := by
  induction h with
  | here => exact Nat.le_refl _
  | grown _ given _ ih => exact Nat.le_trans ih (kept _ _ _ given).rest_le

theorem Grows.rest_le {more : α → List Token → Option β}
    {step : β → List Token → Step (Kind × α) → Prop}
    (kept : ∀ b tokens r, step b tokens r → r.Keeps tokens) {s s' : Step α}
    (h : Grows more step s s') : s'.rest.length ≤ s.rest.length := by
  induction h with
  | done => exact Nat.le_refl _
  | grown _ given _ ih => exact Nat.le_trans ih (kept _ _ _ given).rest_le

end Step

/-- On the way of a rule from these tokens on, every round and every step that asks for another one
takes a token; productions are called at fewer tokens than the one bound, and statements begin at fewer
than the other. What happens inside a production that is called is told by its own rule. -/
def Rule.Descends (eof : Token) (calls statements : Nat) :
    {α : Type} → Rule α → List Token → Prop
  | _, .pure _, _ | _, .peek, _ | _, .ensure _, _ | _, .take, _ | _, .report _, _ => True
  | _, .bind first next, tokens => first.Descends eof calls statements tokens ∧
      ∀ s, first.Gives eof (Production.Gives eof) tokens s →
        (next s.value).Descends eof calls statements s.rest
  | _, .wrap body, tokens => body.Descends eof calls statements tokens
  | _, .grow first more step, tokens => first.Descends eof calls statements tokens ∧
      ∀ s, first.Gives eof (Production.Gives eof) tokens s →
        ∀ built, Step.Built (fun a rest => more a (ahead eof rest))
          (fun b => (step b).Gives eof (Production.Gives eof)) s built →
        ∀ b, more built.value (ahead eof built.rest) = some b →
          (step b).Descends eof calls statements built.rest ∧
            ∀ r, (step b).Gives eof (Production.Gives eof) built.rest r →
              r.rest.length < built.rest.length ∨ more r.value.2 (ahead eof r.rest) = none
  | _, .loop body, tokens =>
      ∀ rest, Step.Again (body.Gives eof (Production.Gives eof)) tokens rest →
        (body = .blockRound → rest.length < statements) ∧
          body.Descends eof calls statements rest ∧
            ∀ s, body.Gives eof (Production.Gives eof) rest s → s.value = true →
              s.rest.length < rest.length
  | _, .call _, tokens => tokens.length < calls

namespace Rule

variable {α β : Type} {eof : Token} {bound statements : Nat} {tokens : List Token}

theorem exists_rounds {body : Rule Bool} {calls : (p : Production) → (tokens : List Token) →
      tokens.length < bound → Option (Step (Option Kind))}
    (each : ∀ tokens, body.Descends eof bound statements tokens → ∃ s,
      body.descend eof bound calls tokens = some s ∧ body.Gives eof (Production.Gives eof) tokens s)
    (h : (loop body).Descends eof bound statements tokens) :
    ∃ s, Step.rounds (body.descend eof bound calls) tokens = some s ∧
      (loop body).Gives eof (Production.Gives eof) tokens s := by
  induction size : tokens.length using Nat.strongRecOn generalizing tokens with
  | ind n ih =>
      obtain ⟨-, round, shorter⟩ := h tokens .here
      obtain ⟨s, ran, given⟩ := each tokens round
      rw [Step.rounds, ran, Option.bind_some]
      cases more : s.value with
      | false =>
          rw [if_neg Bool.false_ne_true]
          exact ⟨_, rfl, .last given more⟩
      | true =>
          have less := shorter s given more
          obtain ⟨s', ran', given'⟩ := ih _ (size ▸ less)
            (fun rest later => h rest (.round given more later)) rfl
          rw [if_pos rfl, if_pos less, ran']
          exact ⟨_, rfl, .again given more given'⟩

theorem exists_grown {more : α → Lookahead → Option β} {step : β → Rule (Kind × α)}
    {calls : (p : Production) → (tokens : List Token) → tokens.length < bound →
      Option (Step (Option Kind))}
    (each : ∀ b tokens, (step b).Descends eof bound statements tokens → ∃ s,
      (step b).descend eof bound calls tokens = some s ∧
        (step b).Gives eof (Production.Gives eof) tokens s) {s : Step α}
    (h : ∀ built, Step.Built (fun a rest => more a (ahead eof rest))
        (fun b => (step b).Gives eof (Production.Gives eof)) s built →
      ∀ b, more built.value (ahead eof built.rest) = some b →
        (step b).Descends eof bound statements built.rest ∧
          ∀ r, (step b).Gives eof (Production.Gives eof) built.rest r →
            r.rest.length < built.rest.length ∨ more r.value.2 (ahead eof r.rest) = none) :
    ∃ s', Step.grown (fun a rest => more a (ahead eof rest))
        (fun b => (step b).descend eof bound calls) s = some s' ∧
      Step.Grows (fun a rest => more a (ahead eof rest))
        (fun b => (step b).Gives eof (Production.Gives eof)) s s' := by
  induction size : s.rest.length using Nat.strongRecOn generalizing s with
  | ind n ih =>
      rw [Step.grown]
      cases found : more s.value (ahead eof s.rest) with
      | none => exact ⟨s, rfl, .done found⟩
      | some b =>
          obtain ⟨round, shorter⟩ := h s .here b found
          obtain ⟨r, ran, given⟩ := each b s.rest round
          simp only [ran, Option.bind_some]
          by_cases less : (s.around fun _ => r).rest.length < s.rest.length
          · obtain ⟨s', ran', grows⟩ := ih _ (size ▸ less)
              (fun built later => h built (.grown found given later)) rfl
            rw [if_pos less]
            exact ⟨s', ran', .grown found given grows⟩
          · have last : more r.value.2 (ahead eof r.rest) = none := by
              rcases shorter r given with shorter | last
              · exact absurd shorter less
              · exact last
            rw [if_neg less, last]
            exact ⟨_, rfl, .grown found given (.done last)⟩

theorem Descends.exists_step {rule : Rule α} {calls : (p : Production) → (tokens : List Token) →
      tokens.length < bound → Option (Step (Option Kind))}
    (called : ∀ p tokens less, ∃ s, calls p tokens less = some s ∧ p.Gives eof tokens s)
    (h : rule.Descends eof bound statements tokens) :
    ∃ s, rule.descend eof bound calls tokens = some s ∧
      rule.Gives eof (Production.Gives eof) tokens s := by
  induction rule generalizing tokens with
  | pure | peek | ensure | report => exact ⟨_, rfl, rfl⟩
  | take => cases tokens <;> exact ⟨_, rfl, rfl⟩
  | bind first next ih ih' =>
      obtain ⟨s, ran, given⟩ := ih h.1
      obtain ⟨s', ran', given'⟩ := ih' s.value (h.2 s given)
      rw [descend, ran, Option.bind_some, ran']
      exact ⟨_, rfl, s, given, s', given', rfl⟩
  | wrap body ih =>
      obtain ⟨s, ran, given⟩ := ih h
      rw [descend, ran]
      exact ⟨_, rfl, s, given, rfl⟩
  | grow first more step ih ih' =>
      obtain ⟨s, ran, given⟩ := ih h.1
      obtain ⟨s', ran', grows⟩ := exists_grown (fun b _ => ih' b) (h.2 s given)
      rw [descend, ran, Option.bind_some]
      exact ⟨s', ran', s, given, grows⟩
  | loop body ih => exact exists_rounds (fun _ => ih) h
  | call p =>
      have less : tokens.length < bound := h
      rw [descend, dif_pos less]
      exact called p tokens less

def Free (eof : Token) (calls statements limit : Nat) (rule : Rule α) : Prop :=
  ∀ tokens, tokens.length < limit → rule.Descends eof calls statements tokens

def Moves (eof : Token) (rule : Rule α) (tokens : List Token) (V : α → Prop) : Prop :=
  ∀ s, rule.Gives eof (Production.Gives eof) tokens s → V s.value → s.rest.length < tokens.length

section Calculus

variable {calls limit : Nat} {V : α → Prop} {W : β → Prop}

theorem free_pure {a : α} : Free eof calls statements limit (Pure.pure a) := fun _ _ => trivial

theorem free_peek : Free eof calls statements limit peek := fun _ _ => trivial

theorem free_ensure {kinds : KindSet} : Free eof calls statements limit (ensure kinds) :=
  fun _ _ => trivial

theorem free_take : Free eof calls statements limit take := fun _ _ => trivial

theorem free_report {problem : Problem} : Free eof calls statements limit (report problem) :=
  fun _ _ => trivial

theorem free_bind {first : Rule α} {next : α → Rule β} (h : Free eof calls statements limit first)
    (hn : ∀ a, Free eof calls statements limit (next a)) :
    Free eof calls statements limit (first >>= next) :=
  fun tokens less => ⟨h tokens less, fun s given =>
    hn s.value s.rest (Nat.lt_of_le_of_lt given.keeps.rest_le less)⟩

theorem free_ite {here : Prop} [Decidable here] {a b : Rule α}
    (yes : Free eof calls statements limit a) (no : Free eof calls statements limit b) :
    Free eof calls statements limit (if here then a else b) := by
  split
  · exact yes
  · exact no

theorem free_wrap {body : Rule (Option Kind × α)} (h : Free eof calls statements limit body) :
    Free eof calls statements limit (wrap body) := h

theorem free_loop {body : Rule Bool} (h : Free eof calls statements limit body)
    (moves : ∀ tokens, Moves eof body tokens (· = true))
    (apart : limit ≤ statements ∨ body ≠ .blockRound) :
    Free eof calls statements limit (loop body) := by
  intro tokens less rest later
  have within : rest.length < limit :=
    Nat.lt_of_le_of_lt (later.rest_le fun _ _ => Gives.keeps) less
  refine ⟨fun same => ?_, h rest within, moves rest⟩
  rcases apart with bounded | other
  · exact Nat.lt_of_lt_of_le within bounded
  · exact absurd same other

theorem free_grow {first : Rule α} {more : α → Lookahead → Option β} {step : β → Rule (Kind × α)}
    (h : Free eof calls statements limit first) (hs : ∀ b, Free eof calls statements limit (step b))
    (moves : ∀ a b tokens r, more a (ahead eof tokens) = some b →
      (step b).Gives eof (Production.Gives eof) tokens r →
        r.rest.length < tokens.length ∨ more r.value.2 (ahead eof r.rest) = none) :
    Free eof calls statements limit (grow first more step) := by
  intro tokens less
  refine ⟨h tokens less, fun s given built later b found => ⟨hs b _ ?_, fun r => moves _ b _ r found⟩⟩
  have grown := later.rest_le fun b _ _ => Gives.keeps
  have begun := given.keeps.rest_le
  omega

theorem free_call {p : Production} (within : limit ≤ calls) : Free eof calls statements limit (call p) :=
  fun _ less => Nat.lt_of_lt_of_le less within

theorem free_peekKind_bind {next : Kind → Rule β} (h : ∀ k, Free eof calls statements limit (next k)) :
    Free eof calls statements limit (peekKind >>= next) :=
  free_bind (free_bind free_peek fun _ => free_pure) h

theorem free_seesAny {kinds : KindSet} {a b : Rule β} (yes : Free eof calls statements limit a)
    (no : Free eof calls statements limit b) :
    Free eof calls statements limit (seesAny kinds >>= fun here => if here = true then a else b) :=
  free_bind (free_peekKind_bind fun _ => free_pure) fun _ => free_ite yes no

theorem free_sees {k : Kind} {a b : Rule β} (yes : Free eof calls statements limit a)
    (no : Free eof calls statements limit b) :
    Free eof calls statements limit (sees k >>= fun here => if here = true then a else b) :=
  free_bind (free_peekKind_bind fun _ => free_pure) fun _ => free_ite yes no

theorem free_eat {k : Kind} : Free eof calls statements limit (eat k) :=
  free_sees (free_bind free_take fun _ => free_pure) free_pure

theorem free_ifEat {k : Kind} {a b : Rule β} (yes : Free eof calls statements limit a)
    (no : Free eof calls statements limit b) :
    Free eof calls statements limit (eat k >>= fun here => if here = true then a else b) :=
  free_bind free_eat fun _ => free_ite yes no

theorem free_takeOf {kinds : KindSet} : Free eof calls statements limit (takeOf kinds) :=
  free_bind free_ensure fun _ => free_take

theorem free_expect {k : Kind} : Free eof calls statements limit (expect k) :=
  free_sees free_take free_report

theorem free_discard {rule : Rule α} (h : Free eof calls statements limit rule) :
    Free eof calls statements limit (discard rule) :=
  free_bind h fun _ => free_pure

theorem free_whenSees {k : Kind} {rule : Rule Unit} (h : Free eof calls statements limit rule) :
    Free eof calls statements limit (whenSees k rule) :=
  free_sees h free_pure

theorem free_node {k : Kind} {body : Rule Unit} (h : Free eof calls statements limit body) :
    Free eof calls statements limit (node k body) :=
  free_bind h fun _ => free_pure

theorem free_made {k : Kind} {body : Rule Unit} (h : Free eof calls statements limit body) :
    Free eof calls statements limit (made k body) :=
  free_bind (free_node h) fun _ => free_pure

theorem free_skipToken {problem : Problem} : Free eof calls statements limit (skipToken problem) :=
  free_node (free_bind free_report fun _ => free_take)

theorem free_skipUnless {problem : Problem} {kept : KindSet} :
    Free eof calls statements limit (skipUnless problem kept) :=
  free_seesAny free_report free_skipToken

end Calculus

section Moving

variable {V : α → Prop} {W : β → Prop}

theorem Moves.imp {rule : Rule α} {V' : α → Prop} (h : Moves eof rule tokens V)
    (weaker : ∀ a, V' a → V a) : Moves eof rule tokens V' :=
  fun s given holds => h s given (weaker _ holds)

theorem moves_pure {a : α} (h : ¬ V a) : Moves eof (Pure.pure a) tokens V := by
  rintro _ rfl holds
  exact absurd holds h

theorem moves_bind {first : Rule α} {next : α → Rule β}
    (h : ∀ s, first.Gives eof (Production.Gives eof) tokens s →
      s.rest.length < tokens.length ∨ Moves eof (next s.value) s.rest W) :
    Moves eof (first >>= next) tokens W := by
  rintro _ ⟨s, given, s', given', rfl⟩ holds
  have later : s'.rest.length ≤ s.rest.length := given'.keeps.rest_le
  rcases h s given with less | moves
  · exact Nat.lt_of_le_of_lt later less
  · exact Nat.lt_of_lt_of_le (moves s' given' holds) given.keeps.rest_le

theorem moves_first {first : Rule α} {next : α → Rule β} (h : Moves eof first tokens fun _ => True) :
    Moves eof (first >>= next) tokens W :=
  moves_bind fun s given => .inl (h s given trivial)

theorem moves_peekKind_bind {next : Kind → Rule β} (h : Moves eof (next (seen eof tokens)) tokens W) :
    Moves eof (peekKind >>= next) tokens W :=
  fun s given => h s (gives_peekKind_bind.mp given)

theorem moves_seesAny {kinds : KindSet} {a b : Rule β}
    (yes : kinds.contains (seen eof tokens) = true → Moves eof a tokens W)
    (no : kinds.contains (seen eof tokens) = false → Moves eof b tokens W) :
    Moves eof (seesAny kinds >>= fun here => if here = true then a else b) tokens W := by
  intro s given
  rw [gives_seesAny_bind] at given
  split at given
  · next here => exact yes here s given
  · next away => exact no (Bool.eq_false_iff.mpr away) s given

theorem moves_sees {k : Kind} {a b : Rule β} (yes : seen eof tokens = k → Moves eof a tokens W)
    (no : seen eof tokens ≠ k → Moves eof b tokens W) :
    Moves eof (sees k >>= fun here => if here = true then a else b) tokens W := by
  intro s given
  rw [gives_sees_bind] at given
  split at given
  · next here => exact yes (beq_iff_eq.mp here) s given
  · next away => exact no (by simpa using away) s given

theorem moves_wrap {body : Rule (Option Kind × α)} (h : Moves eof body tokens fun _ => True) :
    Moves eof (wrap body) tokens V := by
  rintro _ ⟨r, given, rfl⟩ -
  rw [Step.wrapped_rest]
  exact h r given trivial

theorem moves_node {k : Kind} {body : Rule Unit} {V : Unit → Prop}
    (h : Moves eof body tokens fun _ => True) : Moves eof (node k body) tokens V :=
  moves_wrap (moves_first h)

theorem moves_made {k : Kind} {body : Rule Unit} {V : Option Kind → Prop}
    (h : Moves eof body tokens fun _ => True) : Moves eof (made k body) tokens V :=
  moves_first (moves_node h)

theorem moves_grow {first : Rule α} {more : α → Lookahead → Option β} {step : β → Rule (Kind × α)}
    (h : Moves eof first tokens fun a => V a ∨ ∃ ahead b, more a ahead = some b) :
    Moves eof (grow first more step) tokens V := by
  rintro s' ⟨s, given, grows⟩ holds
  have later : s'.rest.length ≤ s.rest.length := grows.rest_le fun _ _ _ => Gives.keeps
  refine Nat.lt_of_le_of_lt later (h s given ?_)
  cases grows with
  | done => exact .inl holds
  | grown found => exact .inr ⟨_, _, found⟩

theorem moves_call {p : Production} {V : Option Kind → Prop} (h : Moves eof p.rule tokens V) :
    Moves eof (call p) tokens V :=
  fun s given => h s (Production.gives_iff.mp given)

theorem moves_isSome {rule : Rule (Option Kind)} (h : Moves eof rule tokens (·.isSome = true)) :
    Moves eof (rule >>= fun kind => Pure.pure kind.isSome) tokens (· = true) :=
  moves_bind fun s given => by
    cases found : s.value.isSome with
    | true => exact .inl (h s given found)
    | false => exact .inr (moves_pure (by simp))

variable (atEof : eof.kind = .eof)
include atEof

theorem moves_take {V : Unit → Prop} (here : seen eof tokens ≠ .eof) : Moves eof take tokens V := by
  intro s given _
  cases tokens with
  | nil => exact absurd atEof here
  | cons t rest =>
      cases given
      exact Nat.lt_succ_self _

theorem moves_takeOf {kinds : KindSet} {V : Unit → Prop} (here : seen eof tokens ≠ .eof) :
    Moves eof (takeOf kinds) tokens V :=
  moves_bind fun s given => by
    obtain rfl := given
    exact .inr (moves_take atEof here)

theorem moves_takeKind {k : Kind} {V : Unit → Prop} (here : seen eof tokens = k) (inside : k ≠ .eof) :
    Moves eof (takeKind k) tokens V :=
  moves_takeOf atEof (here ▸ inside)

theorem moves_ifEat {k : Kind} {a b : Rule β} (inside : k ≠ .eof)
    (no : seen eof tokens ≠ k → Moves eof b tokens W) :
    Moves eof (eat k >>= fun here => if here = true then a else b) tokens W := by
  rintro _ ⟨s, given, s', given', rfl⟩ holds
  rw [eat, gives_sees_bind] at given
  split at given
  · next here =>
      have later : s'.rest.length ≤ s.rest.length := given'.keeps.rest_le
      refine Nat.lt_of_le_of_lt later ?_
      have taken : Moves eof (take >>= fun _ => Pure.pure true) tokens fun _ => True :=
        moves_first (moves_take atEof (beq_iff_eq.mp here ▸ inside))
      exact taken s given trivial
  · next away =>
      cases given
      exact no (by simpa using away) s' given' holds

theorem moves_discardEat_bind {k : Kind} {next : Unit → Rule β} (inside : k ≠ .eof)
    (no : seen eof tokens ≠ k → Moves eof (next ()) tokens W) :
    Moves eof (discard (eat k) >>= next) tokens W := by
  refine moves_bind fun s given => ?_
  obtain ⟨r, eaten, _, rfl, rfl⟩ := given
  rw [eat, gives_sees_bind] at eaten
  split at eaten
  · next here =>
      have taken : Moves eof (take >>= fun _ => Pure.pure true) tokens fun _ => True :=
        moves_first (moves_take atEof (beq_iff_eq.mp here ▸ inside))
      exact .inl (taken r eaten trivial)
  · next away =>
      cases eaten
      exact .inr (no (by simpa using away))

end Moving

section Entering

variable {calls limit : Nat}

theorem free_of_descends {rule : Rule α} (within : limit ≤ calls) (within' : limit ≤ statements)
    (h : ∀ tokens, tokens.length ≤ calls → tokens.length ≤ statements →
      rule.Descends eof calls statements tokens) : Free eof calls statements limit rule :=
  fun tokens less => h tokens (Nat.le_of_lt (Nat.lt_of_lt_of_le less within))
    (Nat.le_of_lt (Nat.lt_of_lt_of_le less within'))

theorem Free.descends {rule : Rule α} (h : ∀ limit, Free eof calls statements limit rule) :
    rule.Descends eof calls statements tokens :=
  h _ tokens (Nat.lt_succ_self _)

theorem descends_behind {first : Rule α} {next : α → Rule β}
    (h : first.Descends eof calls statements tokens) (moves : Moves eof first tokens fun _ => True)
    (free : ∀ a, Free eof calls statements tokens.length (next a)) :
    (first >>= next).Descends eof calls statements tokens :=
  ⟨h, fun s given => free s.value s.rest (moves s given trivial)⟩

theorem descends_bind {first : Rule α} {next : α → Rule β}
    (h : first.Descends eof calls statements tokens)
    (free : ∀ a, ∀ limit, Free eof calls statements limit (next a)) :
    (first >>= next).Descends eof calls statements tokens :=
  ⟨h, fun s _ => Free.descends (free s.value)⟩

theorem descends_peekKind_bind {next : Kind → Rule β}
    (h : (next (seen eof tokens)).Descends eof calls statements tokens) :
    (peekKind >>= next).Descends eof calls statements tokens := by
  refine ⟨⟨trivial, fun _ _ => trivial⟩, ?_⟩
  rintro _ ⟨_, rfl, _, rfl, rfl⟩
  exact h

theorem descends_sees {k : Kind} {a b : Rule β}
    (yes : seen eof tokens = k → a.Descends eof calls statements tokens)
    (no : seen eof tokens ≠ k → b.Descends eof calls statements tokens) :
    (sees k >>= fun here => if here = true then a else b).Descends eof calls statements tokens := by
  refine ⟨descends_peekKind_bind trivial, ?_⟩
  rintro _ ⟨_, ⟨_, rfl, _, rfl, rfl⟩, _, rfl, rfl⟩
  change Descends eof calls statements (if (seen eof tokens == k) = true then a else b) tokens
  split
  · next here => exact yes (beq_iff_eq.mp here)
  · next away => exact no (by simpa using away)

theorem descends_made {k : Kind} {body : Rule Unit} (h : body.Descends eof calls statements tokens) :
    (made k body).Descends eof calls statements tokens :=
  ⟨⟨h, fun _ _ => trivial⟩, fun _ _ => trivial⟩

theorem descends_grow {first : Rule α} {more : α → Lookahead → Option β} {step : β → Rule (Kind × α)}
    (h : first.Descends eof calls statements tokens)
    (taken : Moves eof first tokens fun a => ∃ ahead b, more a ahead = some b)
    (free : ∀ b, Free eof calls statements tokens.length (step b))
    (moves : ∀ a b rest r, more a (ahead eof rest) = some b →
      (step b).Gives eof (Production.Gives eof) rest r →
        r.rest.length < rest.length ∨ more r.value.2 (ahead eof r.rest) = none) :
    (grow first more step).Descends eof calls statements tokens := by
  refine ⟨h, fun s given built later b found => ⟨free b _ ?_, fun r => moves _ b _ r found⟩⟩
  have grown := later.rest_le fun b _ _ => Gives.keeps
  refine Nat.lt_of_le_of_lt grown (taken s given ?_)
  cases later with
  | here => exact ⟨_, b, found⟩
  | grown found' => exact ⟨_, _, found'⟩

end Entering

end Rule

end LosslessTree
