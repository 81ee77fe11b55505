import LosslessTree.Proofs.Grammar.Ranking
import LosslessTree.Proofs.Grammar.Succession

/-!
# Nodes judged by the runs that make them

A condition on nodes that holds of what certain rules make when they run alone holds of every such
node of a parse, since no rule makes them otherwise. Error nodes are judged by what they are put
around and by the problem that is reported with them.
-/

set_option autoImplicit false

namespace LosslessTree

-- Rules that make the nodes of some kinds, as steps of their own.
inductive Maker where
  | pattern
  | letStatement
  | block
  | parenthesized
  | arguments

def Maker.rule : Maker → Rule Unit
  | pattern => .discard .pattern
  | letStatement => .letStatement
  | block => .node .blockExpr .block
  | parenthesized => .discard .parenthesized
  | arguments => .arguments

def Maker.kinds : Maker → KindSet
  | pattern => Category.pat.members
  | letStatement => .ofList [.letStmt]
  | block => .ofList [.blockExpr]
  | parenthesized => .ofList [.tupleExpr, .parenExpr]
  | arguments => .ofList [.argList]

def Maker.all : List Maker := [pattern, letStatement, block, parenthesized, arguments]

def Kind.isUnjudged (k : Kind) : Bool :=
  k != error && !Maker.all.any fun m => m.kinds.contains k

def Kind.IsFront (k : Kind) : Prop := k = attr ∨ k = visibility

def Step.Among {α : Type} (told : List Diagnostic) (s : Step α) : Prop := s.reports ⊆ told

def Blames (told : List Diagnostic) (eof : Token) (tokens : List Token) : Prop :=
  ∃ d ∈ told, d.span = (tokens.headD eof).span

/-- The condition holds of what makers build, and of every error node for which there is a report at
the token that it is around, or at the one behind it. -/
structure Judged (told : List Diagnostic) (eof : Token) (P : List Token → Kind → Forest → Prop) :
    Prop where
  other : ∀ {k}, k.isUnjudged = true → ∀ tokens inner, P tokens k inner
  made : ∀ (m : Maker) {tokens s k inner}, m.kinds.contains k = true →
    m.rule.Gives eof (Production.Gives eof) tokens s → s.Among told →
      s.parts = .node k inner .nil → P tokens k inner
  skipped : ∀ tokens, Blames told eof tokens → P tokens .error (.taken tokens)
  unfinished : ∀ tokens inner, (∀ k ∈ inner.tops, k.IsFront) →
    Blames told eof (tokens.drop inner.leaves.length) → P tokens .error inner

theorem Blames.among {told told' : List Diagnostic} {eof : Token} {tokens : List Token}
    (h : Blames told eof tokens) (among : told ⊆ told') : Blames told' eof tokens := by
  obtain ⟨d, mem, span⟩ := h
  exact ⟨d, among mem, span⟩

theorem Step.Among.andThen {α β : Type} {told : List Diagnostic} {s : Step α}
    {next : α → List Token → Step β} (among : (s.andThen next).Among told) :
    s.Among told ∧ (next s.value s.rest).Among told :=
  List.append_subset.mp among

theorem Step.Among.around {α β : Type} {told : List Diagnostic} {s : Step α}
    {step : List Token → Step (Kind × β)} (among : (s.around step).Among told) :
    s.Among told ∧ (step s.rest).Among told :=
  List.append_subset.mp among

theorem Step.Repeats.tops {p : Kind → Prop} {body : List Token → Step Bool → Prop}
    (each : ∀ tokens s, body tokens s → ∀ k ∈ s.parts.tops, p k) {tokens : List Token} {s : Step Unit}
    (h : Step.Repeats body tokens s) : ∀ k ∈ s.parts.tops, p k := by
  induction h with
  | last round _ => exact each _ _ round
  | again round _ _ ih =>
      intro k mem
      rw [Step.andThen, Forest.tops_append, List.mem_append] at mem
      exact mem.elim (each _ _ round k) (ih k)

-- A node around all that was built, if a kind is answered.
theorem Step.Each.named {P : List Token → Kind → Forest → Prop} {tokens : List Token}
    {s : Step (Option Kind)} (h : s.Each P tokens) (made : ∀ k, s.value = some k → P tokens k s.parts) :
    (Step.mk s.value (s.parts.within s.value) s.reports s.rest).Each P tokens := by
  cases named : s.value with
  | none => exact ⟨h.parts, h.rest⟩
  | some k => exact h.within (made k named) (some k)

namespace Rule

variable {α β : Type} {told : List Diagnostic} {eof : Token} {calls : Giving}
  {P : List Token → Kind → Forest → Prop} {tokens : List Token}

theorem gives_peekKind_bind {next : Kind → Rule α} {s : Step α} :
    (peekKind >>= next).Gives eof calls tokens s ↔
      (next (seen eof tokens)).Gives eof calls tokens s := by
  constructor
  · rintro ⟨_, ⟨_, rfl, _, rfl, rfl⟩, r, given, rfl⟩
    exact given
  · intro given
    exact ⟨_, ⟨_, rfl, _, rfl, rfl⟩, s, given, rfl⟩

theorem gives_node {k : Kind} {body : Rule Unit} {s : Step Unit} :
    (node k body).Gives eof calls tokens s ↔ ∃ r, body.Gives eof calls tokens r ∧
      s = ⟨(), .node k r.parts .nil, r.reports, r.rest⟩ := by
  constructor
  · rintro ⟨_, ⟨r, inside, _, rfl, rfl⟩, rfl⟩
    exact ⟨r, inside, by simp [Step.wrapped, Step.andThen]⟩
  · rintro ⟨r, inside, rfl⟩
    exact ⟨_, ⟨r, inside, _, rfl, rfl⟩, by simp [Step.wrapped, Step.andThen]⟩

theorem gives_map {first : Rule β} {f : β → α} {s : Step α} :
    (first >>= fun b => Pure.pure (f b)).Gives eof calls tokens s ↔
      ∃ r, first.Gives eof calls tokens r ∧ s = ⟨f r.value, r.parts, r.reports, r.rest⟩ := by
  constructor
  · rintro ⟨r, begun, _, rfl, rfl⟩
    exact ⟨r, begun, by simp [Step.andThen]⟩
  · rintro ⟨r, begun, rfl⟩
    exact ⟨r, begun, _, rfl, by simp [Step.andThen]⟩

theorem gives_nodeIf {body : Rule (Option Kind)} {s : Step (Option Kind)} :
    (nodeIf body).Gives eof calls tokens s ↔ ∃ r, body.Gives eof calls tokens r ∧
      s = ⟨r.value, r.parts.within r.value, r.reports, r.rest⟩ := by
  constructor
  · rintro ⟨_, both, rfl⟩
    obtain ⟨r, inside, rfl⟩ := gives_map.mp both
    refine ⟨r, inside, ?_⟩
    cases r.value <;> simp [Step.wrapped]
  · rintro ⟨r, inside, rfl⟩
    refine ⟨_, gives_map.mpr ⟨r, inside, rfl⟩, ?_⟩
    cases r.value <;> simp [Step.wrapped]

theorem attr_parts {s : Step Bool} (h : attr.Gives eof calls tokens s) :
    ∃ inner, s.parts = .node .attr inner .nil := by
  obtain ⟨_, ⟨_, _, _, ⟨_, _, _, ⟨_, _, _, rfl, rfl⟩, rfl⟩, rfl⟩, rfl⟩ := h
  exact ⟨_, Step.wrapped_parts⟩

theorem attrRound_tops {s : Step Bool} (h : attrRound.Gives eof calls tokens s) :
    ∀ k ∈ s.parts.tops, k.IsFront := by
  rw [attrRound, gives_sees_bind] at h
  split at h
  · obtain ⟨_, ⟨r, first, _, rfl, rfl⟩, _, rfl, rfl⟩ := h
    obtain ⟨inner, parts⟩ := attr_parts first
    simp [Step.andThen, parts, Forest.tops, Kind.IsFront]
  · cases h
    simp [Forest.tops]

theorem prelude_tops {s : Step Unit} (h : prelude.Gives eof calls tokens s) :
    ∀ k ∈ s.parts.tops, k.IsFront := by
  obtain ⟨attrs, rounds, v, visible, rfl⟩ := h
  have shown : ∀ k ∈ v.parts.tops, k.IsFront := by
    rw [whenSees, gives_sees_bind] at visible
    split at visible
    · obtain ⟨r, -, rfl⟩ := gives_node.mp visible
      simp [Forest.tops, Kind.IsFront]
    · cases visible
      simp [Forest.tops]
  intro k mem
  rw [Step.andThen, Forest.tops_append, List.mem_append] at mem
  exact mem.elim (Step.Repeats.tops (fun _ _ => attrRound_tops) rounds k) (shown k)

theorem itemCore_value {s : Step (Option Kind)} (h : itemCore.Gives eof calls tokens s) :
    s.value = none ∧ s.parts = .nil ∨ ∃ k, s.value = some k ∧ Category.item.members.contains k := by
  rw [itemCore, gives_peekKind_bind] at h
  split at h
  case h_6 =>
    cases h
    exact .inl ⟨rfl, rfl⟩
  all_goals
    obtain ⟨r, -, rfl⟩ := gives_map.mp h
    exact .inr ⟨_, rfl, by decide⟩

theorem itemRest_value {begun : Bool} {s : Step (Option Kind)}
    (h : (itemRest begun).Gives eof calls tokens s) {k : Kind} (named : s.value = some k) :
    Category.item.members.contains k ∨ k = .error ∧ (∀ k' ∈ s.parts.tops, k'.IsFront) ∧
      Blames s.reports eof s.rest := by
  rw [itemRest, gives_seesAny_bind] at h
  obtain ⟨front, before, _, ⟨⟨kind, _, _, _⟩, core, _, ended, rfl⟩, rfl⟩ := h
  rcases itemCore_value core with ⟨rfl, rfl⟩ | ⟨k', rfl, isItem⟩
  · simp only [Option.isNone_none, Bool.and_true] at ended
    split at ended
    · obtain ⟨_, rfl, _, rfl, rfl⟩ := ended
      cases named
      refine .inr ⟨rfl, by simpa [Step.andThen] using prelude_tops before, ?_⟩
      exact ⟨_, List.mem_append_right _ (List.mem_append_right _ List.mem_cons_self), rfl⟩
    · cases ended
      cases named
  · simp only [Option.isNone_some, Bool.and_false, Bool.false_eq_true, if_false] at ended
    cases ended
    cases named
    exact .inl isItem

-- Whatever the tokens are, every node that the rule makes is as the condition says, at least if
-- nothing is reported but what may be.
def Certifies (told : List Diagnostic) (eof : Token) (calls : Giving)
    (P : List Token → Kind → Forest → Prop) (rule : Rule α) : Prop :=
  ∀ tokens s, rule.Gives eof calls tokens s → s.Among told → s.Each P tokens

section Certified

variable {rule : Rule α}

theorem certifies_pure {a : α} : Certifies told eof calls P (Pure.pure a) := by
  rintro tokens _ rfl -
  exact Step.each_nothing _ _

theorem certifies_report {problem : Problem} : Certifies told eof calls P (report problem) := by
  rintro tokens _ rfl -
  exact Step.each_nothing _ _

theorem certifies_take : Certifies told eof calls P take := by
  rintro (_ | ⟨t, tokens⟩) _ rfl -
  · exact Step.each_nothing _ _
  · exact @Step.each_taken _ P (t :: tokens) _ _

theorem certifies_takeOf {kinds : KindSet} : Certifies told eof calls P (takeOf kinds) := by
  rintro tokens _ ⟨_, rfl, r, taken, rfl⟩ among
  exact certifies_take tokens r taken (Step.Among.andThen among).2

theorem certifies_takeKind {k : Kind} : Certifies told eof calls P (takeKind k) :=
  certifies_takeOf

theorem certifies_bind {first : Rule β} {next : β → Rule α}
    (h : Certifies told eof calls P first) (hn : ∀ b, Certifies told eof calls P (next b)) :
    Certifies told eof calls P (first >>= next) := by
  rintro tokens _ ⟨r, begun, r', ended, rfl⟩ among
  obtain ⟨early, late⟩ := Step.Among.andThen among
  exact (h _ _ begun early).followed (hn _ _ _ ended late)

theorem certifies_map {first : Rule β} {f : β → α} (h : Certifies told eof calls P first) :
    Certifies told eof calls P (first >>= fun b => Pure.pure (f b)) :=
  certifies_bind h fun _ => certifies_pure

theorem certifies_discard {first : Rule β} (h : Certifies told eof calls P first) :
    Certifies told eof calls P (discard first) :=
  certifies_map h

theorem certifies_peekKind_bind {next : Kind → Rule α}
    (h : ∀ k, Certifies told eof calls P (next k)) :
    Certifies told eof calls P (peekKind >>= next) :=
  fun tokens s given among => h _ tokens s (gives_peekKind_bind.mp given) among

theorem certifies_sees {k : Kind} {a b : Rule α} (ha : Certifies told eof calls P a)
    (hb : Certifies told eof calls P b) :
    Certifies told eof calls P (sees k >>= fun here => if here = true then a else b) := by
  intro tokens s given among
  rw [gives_sees_bind] at given
  split at given
  · exact ha tokens s given among
  · exact hb tokens s given among

theorem certifies_seesAny {kinds : KindSet} {a b : Rule α} (ha : Certifies told eof calls P a)
    (hb : Certifies told eof calls P b) :
    Certifies told eof calls P (seesAny kinds >>= fun here => if here = true then a else b) := by
  intro tokens s given among
  rw [gives_seesAny_bind] at given
  split at given
  · exact ha tokens s given among
  · exact hb tokens s given among

theorem certifies_ite {condition : Prop} [Decidable condition] {a b : Rule α}
    (ha : Certifies told eof calls P a) (hb : Certifies told eof calls P b) :
    Certifies told eof calls P (if condition then a else b) := by
  split
  · exact ha
  · exact hb

theorem certifies_eat {k : Kind} : Certifies told eof calls P (eat k) :=
  certifies_sees (certifies_bind certifies_take fun _ => certifies_pure) certifies_pure

theorem certifies_expect {k : Kind} : Certifies told eof calls P (expect k) :=
  certifies_sees certifies_take certifies_report

theorem certifies_whenSees {k : Kind} {rule : Rule Unit} (h : Certifies told eof calls P rule) :
    Certifies told eof calls P (whenSees k rule) :=
  certifies_sees h certifies_pure

theorem certifies_loop {body : Rule Bool} (h : Certifies told eof calls P body) :
    Certifies told eof calls P (loop body) := by
  intro tokens s given among
  have rounds : Step.Repeats (body.Gives eof calls) tokens s := given
  clear given
  induction rounds with
  | last round _ =>
      have one := h _ _ round among
      exact ⟨one.parts, one.rest⟩
  | again round _ _ ih =>
      obtain ⟨early, late⟩ := Step.Among.andThen among
      exact (h _ _ round early).followed (ih late)

-- The node is judged as the run of the rule that makes it.
theorem certifies_node {k : Kind} {body : Rule Unit} (h : Certifies told eof calls P body)
    (judged : ∀ tokens s inner, (node k body).Gives eof calls tokens s → s.Among told →
      s.parts = .node k inner .nil → P tokens k inner) :
    Certifies told eof calls P (node k body) := by
  intro tokens s given among
  obtain ⟨r, inside, rfl⟩ := gives_node.mp given
  exact (h _ _ inside among).within (judged tokens _ _ given among rfl) ()

end Certified

section Grammar

variable (judged : Judged told eof P)
include judged

theorem certifies_other {k : Kind} {body : Rule Unit} (free : k.isUnjudged = true)
    (h : Certifies told eof calls P body) : Certifies told eof calls P (node k body) :=
  certifies_node h fun _ _ _ _ _ _ => judged.other free _ _

theorem certifies_skipToken {problem : Problem} :
    Certifies told eof calls P (skipToken problem) := by
  refine certifies_node (certifies_bind certifies_report fun _ => certifies_take) ?_
  intro tokens s inner given among parts
  obtain ⟨_, ⟨_, rfl, r, took, rfl⟩, rfl⟩ := gives_node.mp given
  cases parts
  have taken : r.parts = .taken tokens := by cases tokens <;> cases took <;> rfl
  have blamed : Blames told eof tokens := ⟨_, among List.mem_cons_self, rfl⟩
  simpa [Step.andThen, taken] using judged.skipped tokens blamed

theorem certifies_skipUnless {problem : Problem} {kept : KindSet} :
    Certifies told eof calls P (skipUnless problem kept) :=
  certifies_seesAny certifies_report (certifies_skipToken judged)

theorem certifies_bracketed {opening closing separator : Kind} {missing : Problem}
    {first : KindSet} {element : Rule Bool} (h : Certifies told eof calls P element) :
    Certifies told eof calls P (bracketed opening closing separator missing first element) := by
  have apart : Certifies told eof calls P (separation separator first) :=
    certifies_bind certifies_eat fun _ => certifies_ite certifies_pure <|
      certifies_seesAny (certifies_map certifies_report) certifies_pure
  refine certifies_bind certifies_takeKind fun _ =>
    certifies_bind (certifies_loop ?_) fun _ => certifies_expect
  refine certifies_seesAny certifies_pure <|
    certifies_sees (certifies_map (certifies_skipToken judged)) ?_
  exact certifies_bind h fun _ => certifies_ite apart certifies_pure

theorem certifies_name {kept : KindSet} : Certifies told eof calls P (name kept) :=
  certifies_sees (certifies_other judged rfl certifies_take) (certifies_skipUnless judged)

theorem certifies_path : Certifies told eof calls P path := by
  have reference : Certifies told eof calls P nameRef :=
    certifies_other judged rfl certifies_takeKind
  refine certifies_other judged rfl (certifies_bind reference fun _ => certifies_loop ?_)
  refine certifies_bind certifies_eat fun _ => certifies_ite ?_ certifies_pure
  exact certifies_sees (certifies_map reference) (certifies_map certifies_report)

theorem certifies_literal : Certifies told eof calls P literal :=
  certifies_other judged rfl certifies_takeOf

theorem certifies_attr : Certifies told eof calls P attr := by
  have body : Certifies told eof calls P attrBody := by
    refine certifies_bind certifies_eat fun _ => certifies_ite ?_ certifies_report
    exact certifies_bind (certifies_sees (certifies_path judged) certifies_report)
      fun _ => certifies_expect
  have inside : Certifies told eof calls P (do
      takeKind .hash
      let inner ← eat .bang
      attrBody
      return (some Kind.attr, inner)) :=
    certifies_bind certifies_takeKind fun _ => certifies_bind certifies_eat fun _ =>
      certifies_map body
  rintro tokens _ ⟨r, given, rfl⟩ among
  have whole := inside tokens r given (by simpa [Step.Among] using among)
  exact whole.wrapped fun k named => by
    obtain ⟨_, _, _, ⟨_, _, _, ⟨_, _, _, rfl, rfl⟩, rfl⟩, rfl⟩ := given
    cases named
    exact judged.other rfl _ _

theorem certifies_prelude : Certifies told eof calls P prelude :=
  certifies_bind
    (certifies_loop <|
      certifies_sees (certifies_map (certifies_discard (certifies_attr judged))) certifies_pure)
    fun _ => certifies_whenSees (certifies_other judged rfl certifies_take)

variable (called : ∀ p tokens s, calls p tokens s →
  p.Gives eof tokens s ∧ (s.Among told → s.Each P tokens))
include called

omit judged in
theorem certifies_call {p : Production} : Certifies told eof calls P (call p) :=
  fun tokens s given => (called p tokens s given).2

omit judged in
-- What calls give they give as productions.
theorem gives_of_calls {rule : Rule α} {s : Step α} (h : rule.Gives eof calls tokens s) :
    rule.Gives eof (Production.Gives eof) tokens s :=
  h.imp fun p tokens s given => (called p tokens s given).1

omit judged in
theorem certifies_isSome {p : Production} :
    Certifies told eof calls P (do return (← call p).isSome) :=
  certifies_map (certifies_call called)

theorem certifies_type : Certifies told eof calls P type := by
  have inner : Certifies told eof calls P innerType := certifies_isSome called
  refine certifies_peekKind_bind fun k => ?_
  split
  · exact certifies_map (certifies_other judged rfl (certifies_path judged))
  · exact certifies_map (certifies_other judged rfl (certifies_bracketed judged inner))
  · refine certifies_map (certifies_other judged rfl ?_)
    refine certifies_bind certifies_take fun _ => certifies_bind (certifies_discard certifies_eat)
      fun _ => certifies_bind inner fun _ => certifies_ite certifies_pure certifies_report
  · exact certifies_pure

theorem certifies_expectType : Certifies told eof calls P expectType :=
  certifies_bind (certifies_type judged called) fun _ =>
    certifies_ite certifies_pure certifies_report

theorem certifies_ascription : Certifies told eof calls P ascription :=
  certifies_bind certifies_takeKind fun _ => certifies_expectType judged called

omit judged called in
-- A node of the maker is judged as its run, and the rest of it apart from that.
theorem each_made {k : Kind} {body : Rule Unit} {s : Step (Option Kind)}
    (h : Certifies told eof calls P body) (given : (made k body).Gives eof calls tokens s)
    (among : s.Among told) (judge : ∀ inner, s.parts = .node k inner .nil → P tokens k inner) :
    s.Each P tokens := by
  obtain ⟨_, noded, rfl⟩ := gives_map.mp given
  obtain ⟨r, inside, rfl⟩ := gives_node.mp noded
  exact (h _ _ inside among).within (judge _ rfl) (some k)

theorem certifies_pattern : Certifies told eof calls P pattern := by
  have inner : Certifies told eof calls P innerPattern := certifies_isSome called
  intro tokens s given among
  have judge {k : Kind} (isPat : Category.pat.members.contains k = true) (inner : Forest)
      (parts : s.parts = .node k inner .nil) : P tokens k inner := by
    refine judged.made .pattern (s := ⟨(), s.parts, s.reports, s.rest⟩) isPat ?_ among parts
    exact gives_map.mpr ⟨s, gives_of_calls called given, rfl⟩
  rw [pattern, gives_peekKind_bind] at given
  split at given
  case h_1 | h_2 | h_3 =>
    refine each_made ?_ given among (judge (by decide))
    exact certifies_bind (certifies_discard certifies_eat) fun _ =>
      certifies_bind (certifies_discard certifies_eat) fun _ => certifies_name judged
  · exact each_made certifies_take given among (judge (by decide))
  · exact each_made certifies_take given among (judge (by decide))
  · refine each_made ?_ given among (judge (by decide))
    exact certifies_bind certifies_take fun _ => certifies_bind (certifies_discard certifies_eat)
      fun _ => certifies_bind inner fun _ =>
        certifies_ite certifies_pure (certifies_skipUnless judged)
  · exact each_made (certifies_bracketed judged inner) given among (judge (by decide))
  · split at given
    · exact each_made (certifies_literal judged) given among (judge (by decide))
    · exact certifies_pure tokens s given among

theorem certifies_expectPattern : Certifies told eof calls P expectPattern :=
  certifies_bind (certifies_pattern judged called) fun _ =>
    certifies_ite certifies_pure (certifies_skipUnless judged)

theorem certifies_maker {k : Kind} {body : Rule Unit} (m : Maker) (made : m.rule = node k body)
    (isKind : m.kinds.contains k = true) (h : Certifies told eof calls P body) :
    Certifies told eof calls P (node k body) :=
  certifies_node h fun _ _ _ given among parts =>
    judged.made m isKind (made ▸ gives_of_calls called given) among parts

omit judged in
theorem certifies_initializer : Certifies told eof calls P initializer :=
  certifies_bind certifies_eat fun _ =>
    certifies_ite (certifies_discard (certifies_call called)) certifies_pure

theorem certifies_letStatement : Certifies told eof calls P letStatement :=
  certifies_maker judged called .letStatement rfl (by decide) <|
    certifies_bind certifies_takeKind fun _ =>
      certifies_bind (certifies_expectPattern judged called) fun _ =>
        certifies_bind (certifies_whenSees (certifies_ascription judged called)) fun _ =>
          certifies_bind (certifies_initializer called) fun _ => certifies_expect

omit called in
-- Nodes that grow are judged by their kinds alone.
theorem certifies_grow {first : Rule α} {more : α → Lookahead → Option β}
    {step : β → Rule (Kind × α)} (h : Certifies told eof calls P first)
    (hs : ∀ b, Certifies told eof calls P (step b))
    (free : ∀ b tokens r, (step b).Gives eof calls tokens r → r.value.1.isUnjudged = true) :
    Certifies told eof calls P (grow first more step) := by
  rintro tokens s ⟨r, begun, grows⟩ among
  have grown := grows.invariant (I := fun s => s.Among told → s.Each P tokens) (h _ _ begun)
    fun s b r inv _ round among => by
      obtain ⟨early, late⟩ := Step.Among.around among
      exact (inv early).surrounded (hs b _ _ round late)
        (judged.other (free b _ _ round) _ _)
  exact grown.1 among

theorem certifies_expressionStatement : Certifies told eof calls P expressionStatement := by
  refine certifies_discard (certifies_grow judged (certifies_call called) (fun kind => ?_) ?_)
  · exact certifies_map <| certifies_bind certifies_eat fun _ => certifies_ite certifies_pure <|
      certifies_ite certifies_pure certifies_report
  · intro kind tokens r given
    obtain ⟨_, _, rfl⟩ := gives_map.mp given
    exact (by decide : Kind.isUnjudged .exprStmt = true)

theorem certifies_block : Certifies told eof calls P block := by
  refine certifies_bind certifies_takeKind fun _ =>
    certifies_bind (certifies_loop ?_) fun _ => certifies_expect
  refine certifies_seesAny certifies_pure (certifies_map (certifies_peekKind_bind fun k => ?_))
  split
  · exact certifies_take
  · exact certifies_letStatement judged called
  · exact certifies_ite (certifies_discard (certifies_call called)) <|
      certifies_ite (certifies_expressionStatement judged called) (certifies_skipToken judged)

theorem certifies_blockExpr : Certifies told eof calls P (node .blockExpr block) :=
  certifies_maker judged called .block rfl (by decide) (certifies_block judged called)

omit judged called in
theorem parenthesized_value {s : Step (Option Kind)} (h : parenthesized.Gives eof calls tokens s) :
    ∃ k, s.value = some k ∧ Maker.parenthesized.kinds.contains k = true := by
  obtain ⟨_, ⟨_, _, _, ⟨⟨empty, _, _, _⟩, _, inside⟩, rfl⟩, rfl⟩ := gives_nodeIf.mp h
  obtain ⟨_, inside, rfl⟩ := inside
  cases empty with
  | true =>
      cases inside
      exact ⟨_, rfl, by decide⟩
  | false =>
      obtain ⟨_, _, _, inside, rfl⟩ := inside
      rw [parenthesizedRest, gives_sees_bind] at inside
      split at inside
      · obtain ⟨_, _, _, inside, rfl⟩ := inside
        obtain ⟨_, _, rfl⟩ := gives_map.mp inside
        exact ⟨_, rfl, by decide⟩
      · obtain ⟨_, _, rfl⟩ := gives_map.mp inside
        exact ⟨_, rfl, by decide⟩

theorem certifies_parenthesized : Certifies told eof calls P parenthesized := by
  have further : Certifies told eof calls P furtherField := by
    refine certifies_bind certifies_eat fun _ => certifies_ite ?_ certifies_pure
    exact certifies_seesAny certifies_pure (certifies_isSome called)
  have rest : Certifies told eof calls P parenthesizedRest := by
    refine certifies_sees ?_ (certifies_map certifies_expect)
    exact certifies_bind (certifies_loop further) fun _ => certifies_map certifies_expect
  have inside : Certifies told eof calls P (do
      takeKind .leftParen
      if ← eat .rightParen then
        return some Kind.tupleExpr
      else
        discard innerExpression
        parenthesizedRest) := by
    refine certifies_bind certifies_takeKind fun _ => certifies_bind certifies_eat fun _ =>
      certifies_ite certifies_pure ?_
    exact certifies_bind (certifies_discard (certifies_call called)) fun _ => rest
  intro tokens s given among
  have whole : (discard parenthesized).Gives eof calls tokens ⟨(), s.parts, s.reports, s.rest⟩ :=
    gives_map.mpr ⟨s, given, rfl⟩
  obtain ⟨r, body, rfl⟩ := gives_nodeIf.mp given
  obtain ⟨k, value, isKind⟩ := parenthesized_value given
  have value : r.value = some k := value
  refine (inside tokens r body among).named fun k' named => ?_
  obtain rfl := Option.some.inj (value.symm.trans named)
  refine judged.made .parenthesized isKind (gives_of_calls called whole) among ?_
  rw [value]
  rfl

theorem certifies_arguments : Certifies told eof calls P arguments := by
  refine certifies_maker judged called .arguments rfl (by decide) ?_
  exact certifies_bracketed judged (certifies_isSome called)

theorem certifies_postfixed : Certifies told eof calls P postfixed := by
  have first : Certifies told eof calls P primary := by
    refine certifies_peekKind_bind fun k => ?_
    split
    · exact certifies_map (certifies_other judged rfl (certifies_path judged))
    · exact certifies_parenthesized judged called
    · exact certifies_map (certifies_blockExpr judged called)
    · refine certifies_ite (certifies_map (certifies_other judged rfl certifies_takeOf)) ?_
      exact certifies_map (certifies_skipUnless judged)
  refine certifies_grow judged first (fun _ => certifies_map (certifies_arguments judged called)) ?_
  intro _ tokens r given
  obtain ⟨_, _, rfl⟩ := gives_map.mp given
  exact (by decide : Kind.isUnjudged .callExpr = true)

theorem certifies_unary : Certifies told eof calls P unary := by
  refine certifies_sees (certifies_map (certifies_other judged rfl ?_))
    (certifies_postfixed judged called)
  exact certifies_bind certifies_take fun _ => certifies_bind (certifies_discard certifies_eat)
    fun _ => certifies_discard (certifies_call called)

theorem certifies_expression {least : Nat} :
    Certifies told eof calls P (Rule.expression least) := by
  refine certifies_grow judged (certifies_unary judged called) (fun level => ?_) ?_
  · exact certifies_bind certifies_take fun _ =>
      certifies_map (certifies_discard (certifies_call called))
  · intro level tokens r given
    obtain ⟨_, _, _, given, rfl⟩ := given
    obtain ⟨_, _, rfl⟩ := gives_map.mp given
    exact (by decide : Kind.isUnjudged .binaryExpr = true)

theorem certifies_ascriptionOr {missing : Problem} :
    Certifies told eof calls P (ascriptionOr missing) :=
  certifies_sees (certifies_ascription judged called) certifies_report

theorem certifies_fnItem : Certifies told eof calls P fnItem := by
  have parameter : Certifies told eof calls P parameter := by
    refine certifies_seesAny (certifies_map (certifies_other judged rfl ?_)) certifies_pure
    exact certifies_bind (certifies_discard (certifies_pattern judged called)) fun _ =>
      certifies_ascriptionOr judged called
  have parameters : Certifies told eof calls P parameters :=
    certifies_sees (certifies_other judged rfl (certifies_bracketed judged parameter))
      certifies_report
  have returned : Certifies told eof calls P returnType := by
    refine certifies_whenSees (certifies_other judged rfl ?_)
    exact certifies_bind certifies_take fun _ => certifies_expectType judged called
  have body : Certifies told eof calls P fnBody := by
    refine certifies_bind certifies_eat fun _ => certifies_ite certifies_pure ?_
    exact certifies_sees (certifies_blockExpr judged called) certifies_report
  exact certifies_bind certifies_takeKind fun _ => certifies_bind (certifies_name judged) fun _ =>
    certifies_bind parameters fun _ => certifies_bind returned fun _ => body

theorem certifies_structItem : Certifies told eof calls P structItem := by
  have field : Certifies told eof calls P field := by
    refine certifies_seesAny (certifies_map (certifies_other judged rfl ?_)) certifies_pure
    exact certifies_bind (certifies_prelude judged) fun _ =>
      certifies_bind (certifies_name judged) fun _ => certifies_ascriptionOr judged called
  refine certifies_bind certifies_takeKind fun _ => certifies_bind (certifies_name judged) fun _ =>
    certifies_peekKind_bind fun k => ?_
  split
  · exact certifies_other judged rfl (certifies_bracketed judged field)
  · exact certifies_take
  · exact certifies_report

omit judged in
theorem certifies_itemRound {closing : Kind} : Certifies told eof calls P (itemRound closing) :=
  certifies_seesAny certifies_pure (certifies_map (certifies_discard (certifies_call called)))

theorem certifies_itemCore : Certifies told eof calls P itemCore := by
  refine certifies_peekKind_bind fun k => ?_
  split
  · exact certifies_map (certifies_fnItem judged called)
  · exact certifies_map (certifies_structItem judged called)
  · refine certifies_map ?_
    exact certifies_bind certifies_takeKind fun _ => certifies_bind (certifies_name judged) fun _ =>
      certifies_bind (certifies_ascriptionOr judged called) fun _ =>
        certifies_bind (certifies_initializer called) fun _ => certifies_expect
  · refine certifies_map (certifies_bind certifies_takeKind fun _ => ?_)
    exact certifies_bind (certifies_sees (certifies_path judged) certifies_report)
      fun _ => certifies_expect
  · refine certifies_map <| certifies_bind certifies_takeKind fun _ =>
      certifies_bind (certifies_name judged) fun _ => certifies_sees ?_ certifies_expect
    refine certifies_other judged rfl (certifies_bind certifies_take fun _ => ?_)
    exact certifies_bind (certifies_loop (certifies_itemRound called))
      fun _ => certifies_expect
  · exact certifies_pure

theorem certifies_itemRest {begun : Bool} : Certifies told eof calls P (itemRest begun) :=
  certifies_bind (certifies_peekKind_bind fun _ => certifies_pure) fun _ =>
    certifies_bind (certifies_prelude judged) fun _ =>
      certifies_bind (certifies_itemCore judged called) fun _ =>
        certifies_ite (certifies_map certifies_report) certifies_pure

omit called in
-- The node around an item, or around what should stand in front of one.
theorem judged_item {k : Kind} {inner : Forest}
    (named : Category.item.members.contains k ∨ k = .error ∧ (∀ k' ∈ inner.tops, k'.IsFront) ∧
      Blames told eof (tokens.drop inner.leaves.length)) : P tokens k inner := by
  rcases named with isItem | ⟨rfl, front, blamed⟩
  · refine judged.other ?_ _ _
    revert isItem
    cases k <;> decide
  · exact judged.unfinished _ _ front blamed

theorem certifies_item : Certifies told eof calls P item := by
  have stray : Certifies told eof calls P strayToken :=
    certifies_sees (certifies_skipToken judged) (certifies_skipToken judged)
  refine certifies_bind ?_ fun _ => certifies_ite (certifies_map stray) certifies_pure
  intro tokens s given among
  obtain ⟨r, rest, rfl⟩ := gives_nodeIf.mp given
  have each := certifies_itemRest judged called tokens r rest among
  refine each.named fun k named => judged_item judged ?_
  refine (itemRest_value rest named).imp_right fun ⟨error, front, blamed⟩ => ⟨error, front, ?_⟩
  exact each.rest ▸ blamed.among among

theorem certifies_headRound : Certifies told eof calls P headRound := by
  intro tokens s given among
  rcases headRound_cases given with ⟨-, rfl⟩ | ⟨-, r, first, ⟨-, rfl⟩ | ⟨-, r', k, rest, named, rfl⟩⟩
  · exact Step.each_nothing _ _
  · have whole := certifies_attr judged tokens r first among
    exact ⟨whole.parts, whole.rest⟩
  · have both : (r.andThen fun _ _ => r').Among told := among
    obtain ⟨early, late⟩ := Step.Among.andThen both
    have before := certifies_attr judged tokens r first early
    have behind := certifies_itemRest judged called _ r' rest late
    obtain ⟨inner, parts⟩ := attr_parts first
    have whole := before.followed behind
    refine whole.within (judged_item judged ?_) false
    refine (itemRest_value rest named).imp_right fun ⟨error, front, blamed⟩ => ⟨error, ?_, ?_⟩
    · simpa [Step.andThen, parts, Forest.tops, Kind.IsFront] using front
    · exact whole.rest ▸ blamed.among late

theorem certifies_file : Certifies told eof calls P file :=
  certifies_bind (certifies_loop (certifies_headRound judged called)) fun _ =>
    certifies_loop (certifies_itemRound called)

end Grammar

end Rule

variable {told : List Diagnostic} {eof : Token} {P : List Token → Kind → Forest → Prop}

theorem Production.Gives.certified (judged : Judged told eof P) {p : Production}
    {tokens : List Token} {s : Step (Option Kind)} (given : p.Gives eof tokens s)
    (among : s.Among told) : s.Each P tokens := by
  refine (given (fun p tokens s => p.Gives eof tokens s ∧ (s.Among told → s.Each P tokens))
    ?_).2 among
  intro p tokens s inside
  have called : ∀ (p : Production) tokens s,
      (p.Gives eof tokens s ∧ (s.Among told → s.Each P tokens)) →
        p.Gives eof tokens s ∧ (s.Among told → s.Each P tokens) := fun _ _ _ h => h
  refine ⟨.of_rule (Rule.gives_of_calls called inside), fun among => ?_⟩
  cases p with
  | item => exact Rule.certifies_item judged called _ _ inside among
  | pattern => exact Rule.certifies_pattern judged called _ _ inside among
  | type => exact Rule.certifies_type judged called _ _ inside among
  | unary => exact Rule.certifies_unary judged called _ _ inside among
  | expression least => exact Rule.certifies_expression judged called _ _ inside among

theorem TokenStream.run_certified {s : TokenStream} (judged : Judged told s.eof P)
    (atEof : s.eof.kind = .eof) (plain : ∀ t ∈ s.tokens, t.kind.isNode = false)
    (among : (s.run .file).Among told) : (s.run .file).Each P s.tokens :=
  Rule.certifies_file judged (fun _ _ _ given => ⟨given, given.certified judged⟩) _ _
    (gives_file atEof plain) among

end LosslessTree
