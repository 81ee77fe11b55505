import LosslessTree.Proofs.Grammar.Shape
import LosslessTree.Proofs.Grammar.Tracing

/-!
# What rules build

A condition on the result of a rule, on the kinds of what it built and on the tokens that it left
is carried through the rule from its first token on. If the rule reports nothing, then the text was
not broken where the rule was. On the way the rule does the same on markings: no bound on its depth
or its rounds is reached.
-/

set_option autoImplicit false

namespace LosslessTree

def seen (eof : Token) (tokens : List Token) : Kind := (tokens.headD eof).kind

def ahead (eof : Token) (tokens : List Token) : Lookahead := (tokens.headD eof).lookahead

@[simp] theorem ahead_kind (eof : Token) (tokens : List Token) :
    (ahead eof tokens).kind = seen eof tokens := rfl

-- Only an operator has a level.
theorem seen_of_ahead_level {eof : Token} {tokens : List Token} {level : Nat}
    (h : (ahead eof tokens).level = some level) : seen eof tokens = .binaryOperator := by
  rw [ahead, Token.lookahead] at h
  split at h
  · assumption
  · cases h

namespace Step

variable {α β : Type} {broken : Bool} {s : Step α} {tokens : List Token}

-- Nothing was reported unless the text may be broken.
def Quiet (broken : Bool) (s : Step α) : Prop := broken = false → s.reports = []

theorem quiet_broken : s.Quiet true := fun whole => Bool.noConfusion whole

-- The step builds nodes of the right shapes only and ends as the condition says, and the program
-- on markings does the same.
structure Fits (broken : Bool) (s : Step α) (program : (Nat → Nat) → Marking.Run α)
    (tokens : List Token) (Q : α → List Kind → List Token → Prop) : Prop where
  shaped : s.parts.Shaped broken
  ends : Q s.value s.parts.tops s.rest
  marked : broken = true → s.Marked program tokens

structure Holds (broken : Bool) (s : Step α) (tokens : List Token) (Q : α → List Kind → List Token → Prop) :
    Prop where
  shaped : s.parts.Shaped broken
  kept : s.Keeps tokens
  ends : Q s.value s.parts.tops s.rest

theorem Keeps.rest_le (kept : s.Keeps tokens) : s.rest.length ≤ tokens.length := by
  have size := congrArg List.length kept
  simp only [List.length_map, List.length_append] at size
  omega

theorem Keeps.rest_lt (kept : s.Keeps tokens) (shaped : s.parts.Shaped broken)
    (some : s.parts.tops ≠ []) : s.rest.length < tokens.length := by
  have size := congrArg List.length kept
  have taken := List.length_pos_iff.mpr (shaped.leaves_ne_nil some)
  simp only [List.length_map, List.length_append] at size
  omega

theorem Quiet.andThen {next : α → List Token → Step β} (quiet : (s.andThen next).Quiet broken) :
    s.Quiet broken ∧ (next s.value s.rest).Quiet broken := by
  constructor
  · exact fun whole => (List.append_eq_nil_iff.mp (quiet whole)).1
  · exact fun whole => (List.append_eq_nil_iff.mp (quiet whole)).2

theorem Quiet.around {step : List Token → Step (Kind × β)} (quiet : (s.around step).Quiet broken) :
    s.Quiet broken ∧ (step s.rest).Quiet broken := by
  constructor
  · exact fun whole => (List.append_eq_nil_iff.mp (quiet whole)).1
  · exact fun whole => (List.append_eq_nil_iff.mp (quiet whole)).2

theorem Quiet.growing {more : α → List Token → Option β} {step : β → List Token → Step (Kind × α)}
    {n : Nat} {built : Step α} (quiet : (growing more step n built).Quiet broken) :
    built.Quiet broken := by
  induction n generalizing built with
  | zero => exact quiet
  | succ n ih =>
      rw [Step.growing] at quiet
      split at quiet
      · exact quiet
      · exact (ih quiet).around.1

theorem growing_keeps {more : α → List Token → Option β}
    {step : β → List Token → Step (Kind × α)} {I : Step α → Prop}
    (round : ∀ built b, I built → more built.value built.rest = some b →
      (step b built.rest).Quiet broken → I (built.around (step b)))
    (n : Nat) {built : Step α} (h : I built) (quiet : (growing more step n built).Quiet broken) :
    I (growing more step n built) := by
  induction n generalizing built with
  | zero => exact h
  | succ n ih =>
      rw [growing] at quiet ⊢
      split at quiet
      · exact h
      · next b found => exact ih (round built b h found quiet.growing.around.2) quiet

end Step

-- Tokens for a rule that is nested so deep: no more than that, and none of a node's kind.
structure Admits (depth : Nat) (tokens : List Token) : Prop where
  enough : tokens.length ≤ depth
  plain : ∀ l ∈ tokens.map Token.leaf, l.kind.isNode = false

namespace Admits

variable {α : Type} {broken : Bool} {depth : Nat} {tokens : List Token} {s : Step α}

theorem rest (admits : Admits depth tokens) (kept : s.Keeps tokens) : Admits depth s.rest := by
  constructor
  case enough =>
    have := kept.rest_le
    have := admits.enough
    omega
  case plain =>
    intro l mem
    apply admits.plain l
    rw [kept]
    exact List.mem_append_right _ mem

theorem leaves (admits : Admits depth tokens) (kept : s.Keeps tokens) :
    ∀ l ∈ s.parts.leaves, l.kind.isNode = false := by
  intro l mem
  apply admits.plain l
  rw [kept]
  exact List.mem_append_left _ mem

-- There is a rule left to be nested, or a token was taken.
theorem within (admits : Admits depth tokens) (kept : s.Keeps tokens)
    (shaped : s.parts.Shaped broken) :
    tokens.length < depth ∨ s.parts.tops ≠ [] → s.rest.length < depth := by
  intro less
  have := admits.enough
  rcases less with less | some
  · have := kept.rest_le
    omega
  · have := kept.rest_lt shaped some
    omega

end Admits

namespace Rule

variable {broken : Bool} {eof : Token} {depth : Nat} {α β : Type} {tokens : List Token}

theorem keeps (eof : Token) (depth : Nat) (rule : Rule α) (tokens : List Token) :
    (rule.run eof (.upTo Production.rule eof depth) tokens).Keeps tokens :=
  rule.run_keeps eof _ (Productions.upTo_keeps _ eof depth) tokens

def marked (eof : Token) (depth : Nat) (rule : Rule α) (keep : Nat → Nat) : Marking.Run α :=
  rule.mark keep eof (Marking.upTo keep eof depth)

def Builds (broken : Bool) (eof : Token) (depth : Nat) (rule : Rule α) (tokens : List Token)
    (Q : α → List Kind → List Token → Prop) : Prop :=
  Admits depth tokens → (rule.run eof (.upTo Production.rule eof depth) tokens).Quiet broken →
    (rule.run eof (.upTo Production.rule eof depth) tokens).Fits broken (rule.marked eof depth) tokens Q

abbrev Yields (broken : Bool) (eof : Token) (depth : Nat) (rule : Rule α) (tokens : List Token)
    (f : Form Empty) : Prop :=
  Builds broken eof depth rule tokens fun _ tops _ => f.Matches tops

theorem Builds.imp {rule : Rule α} {Q R : α → List Kind → List Token → Prop}
    (h : Builds broken eof depth rule tokens Q) (weaker : ∀ a tops rest, Q a tops rest → R a tops rest) :
    Builds broken eof depth rule tokens R := by
  intro admits quiet
  obtain ⟨shaped, ends, marked⟩ := h admits quiet
  exact ⟨shaped, weaker _ _ _ ends, marked⟩

theorem builds_pure {a : α} {Q : α → List Kind → List Token → Prop} (h : Q a [] tokens) :
    Builds broken eof depth (pure a) tokens Q := by
  intro _ _
  refine ⟨trivial, h, fun _ => Step.marked_nothing fun keep m _ => ?_⟩
  rw [List.append_nil]
  rfl

theorem builds_report {problem : Problem} {Q : Unit → List Kind → List Token → Prop}
    (h : broken = true → Q () [] tokens) :
    Builds broken eof depth (report problem) tokens Q := by
  intro _ quiet
  have isBroken : broken = true := by
    cases broken with
    | true => rfl
    | false => cases quiet rfl
  refine ⟨trivial, h isBroken, fun _ => Step.marked_nothing fun keep m same => ?_⟩
  rw [← same]
  rfl

theorem builds_peek {Q : Lookahead → List Kind → List Token → Prop}
    (h : Q (ahead eof tokens) [] tokens) : Builds broken eof depth peek tokens Q := by
  intro _ _
  refine ⟨trivial, h, fun _ => Step.marked_nothing fun keep m same => ?_⟩
  rw [List.append_nil, ← same]
  rfl

theorem builds_bind_within {first : Rule α} {next : α → Rule β}
    {Q : α → List Kind → List Token → Prop} {R : β → List Kind → List Token → Prop}
    (h : Builds broken eof depth first tokens Q)
    (hn : ∀ a tops rest, Q a tops rest →
      (tokens.length < depth ∨ tops ≠ [] → rest.length < depth) →
      Builds broken eof depth (next a) rest fun b more rest' => R b (tops ++ more) rest') :
    Builds broken eof depth (first >>= next) tokens R := by
  intro admits quiet
  obtain ⟨firstQuiet, nextQuiet⟩ := Step.Quiet.andThen quiet
  obtain ⟨shaped, ends, marked⟩ := h admits firstQuiet
  have kept := keeps eof depth first tokens
  obtain ⟨shaped', ends', marked'⟩ :=
    hn _ _ _ ends (admits.within kept shaped) (admits.rest kept) nextQuiet
  constructor
  case shaped => exact (Forest.shaped_append _ _).mpr ⟨shaped, shaped'⟩
  case ends =>
    change R _ (Forest.tops (_ ++ _)) _
    rw [Forest.tops_append]
    exact ends'
  case marked =>
    intro isBroken
    exact (marked isBroken).andThen (fun a => (next a).marked eof depth)
      (marked' isBroken)

theorem builds_bind {first : Rule α} {next : α → Rule β} {Q : α → List Kind → List Token → Prop}
    {R : β → List Kind → List Token → Prop} (h : Builds broken eof depth first tokens Q)
    (hn : ∀ a tops rest, Q a tops rest →
      Builds broken eof depth (next a) rest fun b more rest' => R b (tops ++ more) rest') :
    Builds broken eof depth (first >>= next) tokens R :=
  builds_bind_within h fun a tops rest hq _ => hn a tops rest hq

theorem builds_peekKind_bind {next : Kind → Rule β} {R : β → List Kind → List Token → Prop}
    (h : Builds broken eof depth (next (seen eof tokens)) tokens R) :
    Builds broken eof depth (peekKind >>= next) tokens R := by
  refine builds_bind (Q := fun k tops rest => k = seen eof tokens ∧ tops = [] ∧ rest = tokens)
    ?_ ?_
  · refine builds_bind (builds_peek ⟨rfl, rfl, rfl⟩ : Builds broken eof depth peek tokens
      fun a tops rest => a = ahead eof tokens ∧ tops = [] ∧ rest = tokens) ?_
    rintro _ _ _ ⟨rfl, rfl, rfl⟩
    exact builds_pure ⟨rfl, rfl, rfl⟩
  · rintro _ _ _ ⟨rfl, rfl, rfl⟩
    exact h

theorem builds_report_bind {problem : Problem} {next : Unit → Rule β}
    {R : β → List Kind → List Token → Prop}
    (h : broken = true → Builds broken eof depth (next ()) tokens R) :
    Builds broken eof depth (report problem >>= next) tokens R := by
  refine builds_bind (Q := fun _ tops rest => broken = true ∧ tops = [] ∧ rest = tokens)
    (builds_report fun isBroken => ⟨isBroken, rfl, rfl⟩) ?_
  rintro _ _ _ ⟨isBroken, rfl, rfl⟩
  exact h isBroken

theorem builds_seesAny_bind {kinds : KindSet} {next : Bool → Rule β}
    {R : β → List Kind → List Token → Prop}
    (h : Builds broken eof depth (next (kinds.contains (seen eof tokens))) tokens R) :
    Builds broken eof depth (seesAny kinds >>= next) tokens R := by
  refine builds_bind
    (Q := fun here tops rest => here = kinds.contains (seen eof tokens) ∧ tops = [] ∧ rest = tokens)
    (builds_peekKind_bind (builds_pure ⟨rfl, rfl, rfl⟩)) ?_
  rintro _ _ _ ⟨rfl, rfl, rfl⟩
  exact h

theorem builds_ifSeesAny {kinds : KindSet} {a b : Rule β} {R : β → List Kind → List Token → Prop}
    (yes : kinds.contains (seen eof tokens) = true → Builds broken eof depth a tokens R)
    (no : kinds.contains (seen eof tokens) = false → Builds broken eof depth b tokens R) :
    Builds broken eof depth (seesAny kinds >>= fun here => if here = true then a else b) tokens R := by
  apply builds_seesAny_bind
  cases here : kinds.contains (seen eof tokens) with
  | true => exact yes here
  | false => exact no here

theorem builds_ifSees {k : Kind} {a b : Rule β} {R : β → List Kind → List Token → Prop}
    (yes : seen eof tokens = k → Builds broken eof depth a tokens R)
    (no : seen eof tokens ≠ k → Builds broken eof depth b tokens R) :
    Builds broken eof depth (sees k >>= fun here => if here = true then a else b) tokens R := by
  refine builds_bind
    (Q := fun here tops rest => here = (seen eof tokens == k) ∧ tops = [] ∧ rest = tokens)
    (builds_peekKind_bind (builds_pure ⟨rfl, rfl, rfl⟩)) ?_
  rintro _ _ rest ⟨rfl, rfl, rfl⟩
  by_cases here : seen eof rest = k
  · simpa [here] using yes here
  · simpa [here] using no here

-- Taking a token, unless it is the end of the file, builds just that token.
theorem builds_take {k : Kind} (atEof : eof.kind = .eof) (here : seen eof tokens = k)
    (inside : k ≠ .eof) : Builds broken eof depth take tokens fun _ tops rest =>
      tops = [k] ∧ rest = tokens.tail := by
  intro _ _
  have marked : (take.run eof (.upTo Production.rule eof depth) tokens).Marked
      (take.marked eof depth) tokens :=
    Step.marked_take eof (.upTo Production.rule eof depth)
  cases tokens with
  | nil => exact absurd (here.symm.trans atEof) inside
  | cons t rest => exact ⟨trivial, ⟨congrArg (fun k => [k]) here, rfl⟩, fun _ => marked⟩

theorem yields_take {k : Kind} (atEof : eof.kind = .eof) (here : seen eof tokens = k)
    (inside : k ≠ .eof) : Yields broken eof depth take tokens (.token k) :=
  (builds_take atEof here inside).imp fun _ _ _ taken => Form.derives_token.mpr taken.1

theorem builds_take_bind {k : Kind} {next : Unit → Rule β} {R : β → List Kind → List Token → Prop}
    (atEof : eof.kind = .eof) (here : seen eof tokens = k) (inside : k ≠ .eof)
    (h : ∀ rest, rest.length < depth →
      Builds broken eof depth (next ()) rest fun b more rest' => R b (k :: more) rest') :
    Builds broken eof depth (take >>= next) tokens R := by
  refine builds_bind_within (yields_take atEof here inside) fun _ tops rest fits within => ?_
  obtain rfl := Form.derives_token.mp fits
  exact h rest (within (.inr (by simp)))

theorem builds_ensure {kinds : KindSet} {Q : Unit → List Kind → List Token → Prop}
    (here : kinds.contains (seen eof tokens) = true) (h : Q () [] tokens) :
    Builds broken eof depth (ensure kinds) tokens Q := by
  intro _ _
  refine ⟨trivial, h, fun _ => Step.marked_nothing fun keep m same => ?_⟩
  subst same
  rw [List.append_nil]
  exact if_pos here

theorem builds_takeOf {kinds : KindSet} {k : Kind} (atEof : eof.kind = .eof)
    (here : seen eof tokens = k) (inside : k ≠ .eof) (member : kinds.contains k = true) :
    Builds broken eof depth (takeOf kinds) tokens fun _ tops rest =>
      tops = [k] ∧ rest = tokens.tail := by
  refine builds_bind (Q := fun _ tops rest => tops = [] ∧ rest = tokens)
    (builds_ensure (here ▸ member) ⟨rfl, rfl⟩) ?_
  rintro _ _ _ ⟨rfl, rfl⟩
  exact builds_take atEof here inside

theorem builds_takeKind {k : Kind} (atEof : eof.kind = .eof) (here : seen eof tokens = k)
    (inside : k ≠ .eof) : Builds broken eof depth (takeKind k) tokens fun _ tops rest =>
      tops = [k] ∧ rest = tokens.tail :=
  builds_takeOf atEof here inside (by simp [KindSet.contains_ofList])

theorem yields_takeKind {k : Kind} (atEof : eof.kind = .eof) (here : seen eof tokens = k)
    (inside : k ≠ .eof) : Yields broken eof depth (takeKind k) tokens (.token k) :=
  (builds_takeKind atEof here inside).imp fun _ _ _ taken => Form.derives_token.mpr taken.1

theorem builds_takeKind_bind {k : Kind} {next : Unit → Rule β}
    {R : β → List Kind → List Token → Prop} (atEof : eof.kind = .eof) (here : seen eof tokens = k)
    (inside : k ≠ .eof)
    (h : ∀ rest, rest.length < depth →
      Builds broken eof depth (next ()) rest fun b more rest' => R b (k :: more) rest') :
    Builds broken eof depth (takeKind k >>= next) tokens R := by
  refine builds_bind_within (yields_takeKind atEof here inside) fun _ tops rest fits within => ?_
  obtain rfl := Form.derives_token.mp fits
  exact h rest (within (.inr (by simp)))

theorem quiet_of_wrapped {body : Rule (Option Kind × α)}
    (quiet : ((wrap body).run eof (.upTo Production.rule eof depth) tokens).Quiet broken) :
    (body.run eof (.upTo Production.rule eof depth) tokens).Quiet broken := by
  intro whole
  have none := quiet whole
  simp only [run, Step.wrapped] at none
  split at none <;> exact none

theorem builds_wrap {body : Rule (Option Kind × α)} {Q : α → List Kind → List Token → Prop}
    (h : Builds broken eof depth body tokens fun result tops rest =>
      ∃ k, result.1 = some k ∧ k.isNode = true ∧ (k.shape broken).Matches tops ∧ Q result.2 [k] rest) :
    Builds broken eof depth (wrap body) tokens Q := by
  intro admits quiet
  obtain ⟨shaped, ⟨k, found, isNode, fits, ends⟩, marked⟩ := h admits (quiet_of_wrapped quiet)
  have wrapped : (wrap body).run eof (.upTo Production.rule eof depth) tokens = _ :=
    Step.wrapped_some found
  constructor
  case shaped =>
    rw [wrapped]
    exact ⟨isNode, fits, shaped, trivial⟩
  case ends =>
    rw [wrapped]
    exact ends
  case marked => exact fun isBroken => (marked isBroken).wrapped found (Kind.ne_tombstone isNode)

-- Behind a start that is given up something is built.
theorem builds_wrap_bind {body : Rule (Option Kind × α)} {next : α → Rule β}
    {R : β → List Kind → List Token → Prop}
    (h : Builds broken eof depth body tokens fun result tops rest =>
      match result.1 with
      | some k => k.isNode = true ∧ (k.shape broken).Matches tops ∧
          Builds broken eof depth (next result.2) rest fun b more rest' => R b (k :: more) rest'
      | none => tops = [] ∧
          Builds broken eof depth (next result.2) rest fun b more rest' => more ≠ [] ∧ R b more rest') :
    Builds broken eof depth (wrap body >>= next) tokens R := by
  cases found : (body.run eof (.upTo Production.rule eof depth) tokens).value.1 with
  | some k =>
      have named : Builds broken eof depth (wrap body) tokens fun a tops rest => tops = [k] ∧
          Builds broken eof depth (next a) rest fun b more rest' => R b (k :: more) rest' := by
        apply builds_wrap
        intro admits quiet
        obtain ⟨shaped, ends, marked⟩ := h admits quiet
        rw [found] at ends
        exact ⟨shaped, ⟨k, found, ends.1, ends.2.1, rfl, ends.2.2⟩, marked⟩
      refine builds_bind named ?_
      rintro a _ rest ⟨rfl, further⟩
      exact further
  | none =>
      intro admits quiet
      obtain ⟨firstQuiet, nextQuiet⟩ := Step.Quiet.andThen quiet
      obtain ⟨shaped, ends, marked⟩ := h admits (quiet_of_wrapped firstQuiet)
      rw [found] at ends
      have nothing := Forest.eq_nil_of_tops ends.1
      have wrapped : (wrap body).run eof (.upTo Production.rule eof depth) tokens = _ :=
        Step.wrapped_none found
      have kept := keeps eof depth body tokens
      rw [wrapped] at nextQuiet
      obtain ⟨shaped', ⟨some, ends'⟩, marked'⟩ := ends.2 (admits.rest kept) nextQuiet
      have same : (wrap body >>= next).run eof (.upTo Production.rule eof depth) tokens = _ :=
        congrArg (Step.andThen · _) wrapped
      constructor
      case shaped =>
        rw [same]
        exact (Forest.shaped_append _ _).mpr ⟨shaped, shaped'⟩
      case ends =>
        rw [same]
        simpa [Step.andThen, nothing] using ends'
      case marked =>
        intro isBroken
        refine (marked isBroken).unwrapped_andThen found nothing (fun a => (next a).marked eof depth)
          (marked' isBroken) ?_
        rintro none
        rw [none] at some
        exact some rfl

/-- Behind a single node a rule builds what else is in the node around it, and it takes a token
unless nothing more goes around that one. -/
def Surrounds (broken : Bool) (eof : Token) (depth : Nat) (more : α → Lookahead → Option β)
    (step : Rule (Kind × α)) (tops : List Kind) (tokens : List Token)
    (Q : α → List Kind → List Token → Prop) : Prop :=
  ∃ k, tops = [k] ∧ k.isNode = true ∧
    Builds broken eof depth step tokens fun result new rest =>
      result.1.isNode = true ∧ (result.1.shape broken).Matches (k :: new) ∧ Q result.2 [result.1] rest ∧
        (new ≠ [] ∨ ∀ ahead, more result.2 ahead = none)

section Around

variable {more : α → Lookahead → Option β} {step : Rule (Kind × α)}
  {Q : α → List Kind → List Token → Prop} {built : Step α}

theorem Surrounds.around (h : Surrounds broken eof depth more step built.parts.tops built.rest Q)
    (admits : Admits depth tokens) (shaped : built.parts.Shaped broken) (kept : built.Keeps tokens)
    (quiet : (step.run eof (.upTo Production.rule eof depth) built.rest).Quiet broken) :
    (built.around (step.run eof (.upTo Production.rule eof depth))).Holds broken tokens Q := by
  obtain ⟨k, only, _, builds⟩ := h
  obtain ⟨inside, ⟨isNode, shape, ends, _⟩, _⟩ := builds (admits.rest kept) quiet
  constructor
  case shaped =>
    refine ⟨isNode, ?_, (Forest.shaped_append _ _).mpr ⟨shaped, inside⟩, trivial⟩
    change Form.Matches _ (Forest.tops (_ ++ _))
    rw [Forest.tops_append, only]
    exact shape
  case kept => exact kept.around (keeps eof depth step)
  case ends => exact ends

theorem Surrounds.single (h : Surrounds broken eof depth more step built.parts.tops built.rest Q)
    (admits : Admits depth tokens) (kept : built.Keeps tokens) :
    ∃ k inner, built.parts = .node k inner .nil := by
  obtain ⟨k, only, isNode, _⟩ := h
  obtain ⟨inner, rest, same, last⟩ := Forest.eq_node_of_tops (admits.leaves kept) only isNode
  obtain rfl := Forest.eq_nil_of_tops last
  exact ⟨k, inner, same⟩

theorem Surrounds.marked {tops : List Kind} (h : Surrounds true eof depth more step tops tokens Q)
    (admits : Admits depth tokens) :
    (step.run eof (.upTo Production.rule eof depth) tokens).value.1 ≠ .tombstone ∧
      (step.run eof (.upTo Production.rule eof depth) tokens).Marked (step.marked eof depth) tokens := by
  obtain ⟨k, _, _, builds⟩ := h
  obtain ⟨_, ⟨isNode, _⟩, marked⟩ := builds admits Step.quiet_broken
  exact ⟨Kind.ne_tombstone isNode, marked rfl⟩

theorem Surrounds.progress (h : Surrounds true eof depth more step built.parts.tops built.rest Q)
    (admits : Admits depth tokens) (kept : built.Keeps tokens) :
    let next := built.around (step.run eof (.upTo Production.rule eof depth))
    next.rest.length < built.rest.length ∨ more next.value (ahead eof next.rest) = none := by
  obtain ⟨k, _, _, builds⟩ := h
  obtain ⟨inside, ⟨_, _, _, progress⟩, _⟩ := builds (admits.rest kept) Step.quiet_broken
  rcases progress with some | last
  · exact .inl ((keeps eof depth step built.rest).rest_lt inside some)
  · exact .inr (last _)

end Around

theorem builds_grow_from {first : Rule α} {more : α → Lookahead → Option β}
    {step : β → Rule (Kind × α)} {I Q : α → List Kind → List Token → Prop}
    (h : Builds broken eof depth first tokens I)
    (stop : ∀ a tops rest, I a tops rest → more a (ahead eof rest) = none → Q a tops rest)
    (round : ∀ a tops rest b, I a tops rest ∨ Q a tops rest → more a (ahead eof rest) = some b →
      Surrounds broken eof depth more (step b) tops rest Q) :
    Builds broken eof depth (grow first more step) tokens Q := by
  intro admits quiet
  obtain ⟨shaped, before, marked⟩ := h admits (Step.Quiet.growing quiet)
  have kept := keeps eof depth first tokens
  have grown : ((grow first more step).run eof (.upTo Production.rule eof depth) tokens).Holds
      broken tokens Q := by
    simp only [run, Step.growing] at quiet ⊢
    cases found : more (first.run eof (.upTo Production.rule eof depth) tokens).value
        (ahead eof (first.run eof (.upTo Production.rule eof depth) tokens).rest) with
    | none =>
        rw [ahead] at found
        simp only [found]
        exact ⟨shaped, kept, stop _ _ _ before found⟩
    | some b =>
        rw [ahead] at found
        simp only [found] at quiet ⊢
        apply Step.growing_keeps (I := fun built => built.Holds broken tokens Q) _ _ _ quiet
        · intro built b' holds found' stepQuiet
          exact (round _ _ _ b' (.inr holds.ends) found').around admits holds.shaped holds.kept
            stepQuiet
        · exact (round _ _ _ b (.inl before) found).around admits shaped kept
            quiet.growing.around.2
  refine ⟨grown.shaped, grown.ends, fun isBroken => ?_⟩
  subst isBroken
  have chained : Step.Marked
      (Step.growing (fun a rest => more a (ahead eof rest))
        (fun b => (step b).run eof (.upTo Production.rule eof depth)) (tokens.length + 1)
        (first.run eof (.upTo Production.rule eof depth) tokens))
      (fun keep => Marking.grown keep (first.marked eof depth keep) (fun a m => more a (ahead eof m.rest))
        fun b => (step b).marked eof depth keep) tokens := by
    apply (marked rfl).grown fun built =>
      built.Holds true tokens fun a tops rest => I a tops rest ∨ Q a tops rest
    case hi => exact ⟨shaped, kept, .inl before⟩
    case enough => exact kept.rest_le
    case round =>
      intro built b holds found
      have surrounds := round _ _ _ b holds.ends found
      have around := surrounds.around admits holds.shaped holds.kept Step.quiet_broken
      obtain ⟨named, marked⟩ := surrounds.marked (admits.rest holds.kept)
      exact ⟨surrounds.single admits holds.kept, marked, named,
        ⟨around.shaped, around.kept, .inr around.ends⟩, surrounds.progress admits holds.kept⟩
  exact chained

theorem builds_grow {first : Rule α} {more : α → Lookahead → Option β}
    {step : β → Rule (Kind × α)} {Q : α → List Kind → List Token → Prop}
    (h : Builds broken eof depth first tokens Q)
    (round : ∀ a tops rest b, Q a tops rest → more a (ahead eof rest) = some b →
      Surrounds broken eof depth more (step b) tops rest Q) :
    Builds broken eof depth (grow first more step) tokens Q :=
  builds_grow_from h (fun _ _ _ hq _ => hq) fun a tops rest b hq =>
    round a tops rest b (hq.elim id id)

theorem repeating_ends {body : List Token → Step Bool} {I Q : List Kind → List Token → Prop}
    (round : ∀ tops rest, I tops rest → (body rest).Quiet broken →
      (body rest).parts.Shaped broken ∧ if (body rest).value = true then
        (body rest).rest.length < rest.length ∧ I (tops ++ (body rest).parts.tops) (body rest).rest
      else Q (tops ++ (body rest).parts.tops) (body rest).rest)
    {n : Nat} (enough : tokens.length < n) {tops : List Kind} (h : I tops tokens)
    (quiet : (Step.repeating body n tokens).Quiet broken) :
    (Step.repeating body n tokens).parts.Shaped broken ∧
      Q (tops ++ (Step.repeating body n tokens).parts.tops) (Step.repeating body n tokens).rest := by
  induction n generalizing tokens tops with
  | zero => omega
  | succ n ih =>
      obtain ⟨bodyQuiet, restQuiet⟩ := Step.Quiet.andThen quiet
      obtain ⟨shaped, after⟩ := round tops tokens h bodyQuiet
      simp only [Step.repeating, Step.andThen, Forest.shaped_append, Forest.tops_append,
        ← List.append_assoc]
      cases again : (body tokens).value with
      | true =>
          rw [again] at after
          rw [again, if_pos rfl] at restQuiet
          have more := ih (by have := after.1; omega) after.2 restQuiet
          exact ⟨⟨shaped, more.1⟩, more.2⟩
      | false =>
          rw [again] at after
          exact ⟨⟨shaped, trivial⟩, by simpa [Forest.tops] using after⟩

-- In front of a round of a loop, behind what was built of all its tokens.
structure Looping (depth : Nat) (I : List Kind → List Token → Prop) (all : List Token)
    (tops : List Kind) (rest : List Token) : Prop where
  holds : I tops rest
  admits : Admits depth rest
  within : all.length < depth → rest.length < depth

-- A loop keeps what each of its rounds keeps. A round that asks for another builds something.
theorem builds_loop {body : Rule Bool} {I : List Kind → List Token → Prop}
    {Q : Unit → List Kind → List Token → Prop} (h : I [] tokens)
    (round : ∀ tops rest, I tops rest → (tokens.length < depth → rest.length < depth) →
      Builds broken eof depth body rest fun again new rest' =>
        if again = true then new ≠ [] ∧ I (tops ++ new) rest' else Q () (tops ++ new) rest') :
    Builds broken eof depth (loop body) tokens Q := by
  intro admits quiet
  have begun : Looping depth I tokens [] tokens := ⟨h, admits, id⟩
  have next (tops : List Kind) (rest : List Token) (l : Looping depth I tokens tops rest)
      (quiet : (body.run eof (.upTo Production.rule eof depth) rest).Quiet broken) :
      (body.run eof (.upTo Production.rule eof depth) rest).Fits broken
        (body.marked eof depth) rest fun again new rest' =>
          if again = true then
            rest'.length < rest.length ∧ Looping depth I tokens (tops ++ new) rest'
          else Q () (tops ++ new) rest' := by
    obtain ⟨shaped, ends, marked⟩ := round tops rest l.holds l.within l.admits quiet
    have kept := keeps eof depth body rest
    refine ⟨shaped, ?_, marked⟩
    split at ends
    · next again =>
        rw [if_pos again]
        have shorter := kept.rest_lt shaped ends.1
        refine ⟨shorter, ends.2, l.admits.rest kept, fun less => ?_⟩
        have := l.within less
        omega
    · next last =>
        rw [if_neg last]
        exact ends
  have enough : tokens.length < tokens.length + 1 := by omega
  obtain ⟨shaped, ends⟩ := repeating_ends (fun tops rest l quiet =>
    ⟨(next tops rest l quiet).shaped, (next tops rest l quiet).ends⟩) enough begun quiet
  refine ⟨shaped, ends, fun isBroken => ?_⟩
  subst isBroken
  have marked := Step.marked_repeating (fun rest => ∃ tops, Looping depth I tokens tops rest)
    (fun rest ⟨tops, l⟩ => ⟨(next tops rest l Step.quiet_broken).marked rfl, fun again => by
      have ends := (next tops rest l Step.quiet_broken).ends
      rw [if_pos again] at ends
      exact ⟨ends.1, _, ends.2⟩⟩) enough ⟨[], begun⟩
  refine marked.of_eq fun keep m same _ => ?_
  rw [← same]
  rfl

theorem yields_bind {first : Rule α} {next : α → Rule β} {f g : Form Empty}
    (h : Yields broken eof depth first tokens f) (hn : ∀ a rest, Yields broken eof depth (next a) rest g) :
    Yields broken eof depth (first >>= next) tokens (.seq f g) :=
  builds_bind h fun a _ rest fits => (hn a rest).imp fun _ _ _ more => .seq fits more

theorem yields_bind_inside {first : Rule α} {next : α → Rule β} {f g : Form Empty}
    (inside : tokens.length < depth) (h : Yields broken eof depth first tokens f)
    (hn : ∀ a rest, rest.length < depth → Yields broken eof depth (next a) rest g) :
    Yields broken eof depth (first >>= next) tokens (.seq f g) :=
  builds_bind_within h fun a _ rest fits within =>
    (hn a rest (within (.inl inside))).imp fun _ _ _ more => .seq fits more

theorem yields_take_bind {k : Kind} {next : Unit → Rule β} {f : Form Empty}
    (atEof : eof.kind = .eof) (here : seen eof tokens = k) (inside : k ≠ .eof)
    (h : ∀ rest, rest.length < depth → Yields broken eof depth (next ()) rest f) :
    Yields broken eof depth (take >>= next) tokens (.seq (.token k) f) :=
  builds_take_bind atEof here inside fun rest less =>
    (h rest less).imp fun _ _ _ more => .seq .token more

theorem yields_takeKind_bind {k : Kind} {next : Unit → Rule β} {f : Form Empty}
    (atEof : eof.kind = .eof) (here : seen eof tokens = k) (inside : k ≠ .eof)
    (h : ∀ rest, rest.length < depth → Yields broken eof depth (next ()) rest f) :
    Yields broken eof depth (takeKind k >>= next) tokens (.seq (.token k) f) :=
  builds_takeKind_bind atEof here inside fun rest less =>
    (h rest less).imp fun _ _ _ more => .seq .token more

theorem Yields.weaken {rule : Rule α} {f g : Form Empty} (h : Yields broken eof depth rule tokens f)
    (weaker : ∀ w, f.Matches w → g.Matches w) : Yields broken eof depth rule tokens g :=
  h.imp fun _ _ _ fits => weaker _ fits

theorem yields_discard {rule : Rule α} {f : Form Empty} (h : Yields broken eof depth rule tokens f) :
    Yields broken eof depth (discard rule) tokens f :=
  builds_bind h fun _ _ _ fits => builds_pure (by simpa using fits)

theorem builds_node {k : Kind} {body : Rule Unit} {Q : Unit → List Kind → List Token → Prop}
    (isNode : k.isNode = true)
    (h : Builds broken eof depth body tokens fun _ tops rest => (k.shape broken).Matches tops ∧ Q () [k] rest) :
    Builds broken eof depth (node k body) tokens Q := by
  apply builds_wrap
  refine builds_bind h fun _ tops rest fits => builds_pure ?_
  rw [List.append_nil]
  exact ⟨k, rfl, isNode, fits⟩

theorem yields_node {k : Kind} {body : Rule Unit} (isNode : k.isNode = true)
    (h : Yields broken eof depth body tokens (k.shape broken)) : Yields broken eof depth (node k body) tokens (.token k) :=
  builds_node isNode (h.imp fun _ _ _ fits => ⟨fits, Form.derives_token.mpr rfl⟩)

end Rule

end LosslessTree
