import LosslessTree.Proofs.Grammar.Passing

set_option autoImplicit false

namespace LosslessTree

def Forest.Each (P : List Token → Kind → Forest → Prop) : Forest → List Token → Prop
  | nil, _ => True
  | leaf _ rest, tokens => rest.Each P tokens.tail
  | node k inner rest, tokens =>
      P tokens k inner ∧ inner.Each P tokens ∧ rest.Each P (tokens.drop inner.leaves.length)

theorem Forest.each_append {P : List Token → Kind → Forest → Prop} {f g : Forest}
    {tokens : List Token} :
    (f ++ g).Each P tokens ↔ f.Each P tokens ∧ g.Each P (tokens.drop f.leaves.length) := by
  induction f generalizing tokens with
  | nil => simp [Each, leaves]
  | leaf l rest ih => simp [Each, leaves, ih]
  | node k inner rest _ ih => simp [Each, leaves, ih, and_assoc]

namespace Forest

variable {P Q : List Token → Kind → Forest → Prop} {f : Forest} {tokens all : List Token}

theorem Each.and (h : f.Each P tokens) (h' : f.Each Q tokens) :
    f.Each (fun behind k inner => P behind k inner ∧ Q behind k inner) tokens := by
  induction f generalizing tokens with
  | nil => trivial
  | leaf l rest ih => exact ih h h'
  | node k inner rest hi hr => exact ⟨⟨h.1, h'.1⟩, hi h.2.1 h'.2.1, hr h.2.2 h'.2.2⟩

theorem each_suffix (h : tokens <:+ all) : f.Each (fun behind _ _ => behind <:+ all) tokens := by
  induction f generalizing tokens with
  | nil => trivial
  | leaf l rest ih => exact ih ((List.tail_suffix tokens).trans h)
  | node k inner rest hi hr => exact ⟨h, hi h, hr ((List.drop_suffix _ _).trans h)⟩

theorem Shaped.each {broken : Bool} (h : f.Shaped broken) :
    f.Each (fun _ k inner => (k.shape broken).Matches inner.tops ∧ inner.Shaped broken ∧
      inner.leaves ≠ []) tokens := by
  induction f generalizing tokens with
  | nil => trivial
  | leaf l rest ih => exact ih h
  | node k inner rest hi hr =>
      obtain ⟨isNode, fits, within, behind⟩ := h
      exact ⟨⟨fits, within, within.leaves_ne_nil (fits.ne_nil (Kind.shape_full isNode))⟩, hi within, hr behind⟩

end Forest

namespace Step

variable {α β : Type} {P : List Token → Kind → Forest → Prop} {tokens : List Token}

structure Each (P : List Token → Kind → Forest → Prop) (s : Step α) (tokens : List Token) :
    Prop where
  parts : s.parts.Each P tokens
  rest : s.rest = tokens.drop s.parts.leaves.length

theorem each_nothing (a : α) (reports : List Diagnostic) :
    (Step.mk a .nil reports tokens).Each P tokens :=
  ⟨trivial, rfl⟩

theorem each_taken (a : α) (reports : List Diagnostic) :
    (Step.mk a (.taken tokens) reports tokens.tail).Each P tokens := by
  cases tokens with
  | nil => exact ⟨trivial, rfl⟩
  | cons t tokens => exact ⟨trivial, rfl⟩

theorem Each.followed {s : Step α} {s' : Step β} (h : s.Each P tokens) (h' : s'.Each P s.rest) :
    (s.andThen fun _ _ => s').Each P tokens := by
  constructor
  · exact Forest.each_append.mpr ⟨h.parts, h.rest ▸ h'.parts⟩
  · simp only [Step.andThen, Forest.leaves_append, List.length_append, h'.rest, h.rest,
      List.drop_drop]

theorem Each.within {s : Step α} (h : s.Each P tokens) {k : Kind} (made : P tokens k s.parts)
    (a : β) : (Step.mk a (.node k s.parts .nil) s.reports s.rest).Each P tokens :=
  ⟨⟨made, h.parts, trivial⟩, by simpa [Forest.leaves] using h.rest⟩

theorem Each.wrapped {s : Step (Option Kind × α)} (h : s.Each P tokens)
    (made : ∀ k ∈ s.value.1, P tokens k s.parts) : s.wrapped.Each P tokens := by
  obtain ⟨⟨none | k, a⟩, parts, reports, rest⟩ := s
  · exact ⟨h.parts, h.rest⟩
  · exact h.within (made k rfl) a

theorem Each.surrounded {s : Step α} {s' : Step (Kind × β)} (h : s.Each P tokens)
    (h' : s'.Each P s.rest) (made : P tokens s'.value.1 (s.parts ++ s'.parts)) :
    (s.around fun _ => s').Each P tokens :=
  (h.followed h').within made s'.value.2

theorem Repeats.each {body : List Token → Step Bool → Prop}
    (each : ∀ tokens s, body tokens s → s.Each P tokens) {s : Step Unit}
    (h : Repeats body tokens s) : s.Each P tokens := by
  induction h with
  | last round _ =>
      have one := each _ _ round
      exact ⟨one.parts, one.rest⟩
  | again round _ _ ih => exact (each _ _ round).followed ih

-- What every step keeps that is asked for holds where no more is asked for.
theorem Grows.invariant {more : α → List Token → Option β}
    {step : β → List Token → Step (Kind × α) → Prop} {s s' : Step α} {I : Step α → Prop}
    (h : Grows more step s s') (begun : I s)
    (kept : ∀ s b r, I s → more s.value s.rest = some b → step b s.rest r →
      I (s.around fun _ => r)) : I s' ∧ more s'.value s'.rest = none := by
  induction h with
  | done last => exact ⟨begun, last⟩
  | grown found round _ ih => exact ih (kept _ _ _ begun found round)

end Step

namespace Rule

-- Whatever the tokens are, the rule makes nodes as allowed, if the productions that it calls
-- answer and build as promised, and ends as the condition says.
def Confines (allowed : Kind → Forest → Prop) (promised : Production → Option Kind → Forest → Prop) :
    {α : Type} → Rule α → (α → Forest → Prop) → Prop
  | _, .pure a, V => V a .nil
  | _, .bind first next, V => first.Confines allowed promised fun a parts =>
      (next a).Confines allowed promised fun b more => V b (parts ++ more)
  | _, .peek, V => ∀ ahead, V ahead .nil
  | _, .ensure _, V => V () .nil
  | _, .take, V => ∀ tokens, V () (.taken tokens)
  | _, .report _, V => V () .nil
  | _, .wrap body, V => body.Confines allowed promised fun result parts =>
      (∀ k ∈ result.1, allowed k parts) ∧ V result.2 (parts.within result.1)
  | α, .grow first more step, V => ∃ I : α → Forest → Prop,
      first.Confines allowed promised I ∧
      (∀ a parts b, I a parts → (∃ ahead, more a ahead = some b) →
        (step b).Confines allowed promised fun result behind =>
          allowed result.1 (parts ++ behind) ∧
            I result.2 (.node result.1 (parts ++ behind) .nil)) ∧
      ∀ a parts, I a parts → V a parts
  | _, .loop body, V => body.Confines allowed promised (fun _ _ => True) ∧ ∀ parts, V () parts
  | _, .call production, V => ∀ kind parts, promised production kind parts → V kind parts

variable {α β : Type} {allowed : Kind → Forest → Prop}
  {promised : Production → Option Kind → Forest → Prop} {V W : α → Forest → Prop} {rule : Rule α}

theorem Confines.imp (h : rule.Confines allowed promised V) (weaker : ∀ a parts, V a parts → W a parts) :
    rule.Confines allowed promised W := by
  induction rule with
  | pure | ensure | report => exact weaker _ _ h
  | peek => exact fun _ => weaker _ _ (h _)
  | take => exact fun _ => weaker _ _ (h _)
  | bind first next ih ih' => exact ih h fun a parts => fun h => ih' a h fun b more => weaker _ _
  | wrap body ih => exact ih h fun _ _ => .imp_right (weaker _ _)
  | grow first more step =>
      obtain ⟨I, begun, kept, ends⟩ := h
      exact ⟨I, begun, kept, fun a parts i => weaker _ _ (ends a parts i)⟩
  | loop body => exact ⟨h.1, fun parts => weaker _ _ (h.2 parts)⟩
  | call => exact fun kind parts kept => weaker _ _ (h kind parts kept)

@[simp] theorem confines_pure {a : α} :
    (Pure.pure a : Rule α).Confines allowed promised V ↔ V a .nil := Iff.rfl

@[simp] theorem confines_bind {first : Rule β} {next : β → Rule α} :
    (first >>= next).Confines allowed promised V ↔ first.Confines allowed promised fun a parts =>
      (next a).Confines allowed promised fun b more => V b (parts ++ more) := Iff.rfl

@[simp] theorem confines_ite {condition : Prop} [Decidable condition] {a b : Rule α} :
    (if condition then a else b).Confines allowed promised V ↔
      if condition then a.Confines allowed promised V else b.Confines allowed promised V := by
  split <;> rfl

theorem confines_peekKind_bind {next : Kind → Rule α} (h : ∀ k, (next k).Confines allowed promised V) :
    (peekKind >>= next).Confines allowed promised V := fun ahead => h ahead.kind

section Soundness

variable {P : List Token → Kind → Forest → Prop} {eof : Token} {calls : Giving}
  {tokens : List Token} {s : Step α}

theorem Gives.confined (made : ∀ tokens k inner, allowed k inner → P tokens k inner)
    (called : ∀ p tokens s, calls p tokens s → s.Each P tokens ∧ promised p s.value s.parts)
    (h : rule.Confines allowed promised V) (given : rule.Gives eof calls tokens s) :
    s.Each P tokens ∧ V s.value s.parts := by
  induction rule generalizing tokens with
  | pure | ensure | report =>
      rw [given]
      exact ⟨Step.each_nothing _ _, h⟩
  | peek =>
      rw [given]
      exact ⟨Step.each_nothing _ _, h _⟩
  | take =>
      have same : s = ⟨(), .taken tokens, [], tokens.tail⟩ := by cases tokens <;> exact given
      rw [same]
      exact ⟨Step.each_taken _ _, h _⟩
  | bind first next ih ih' =>
      obtain ⟨r, begun, r', ended, rfl⟩ := given
      obtain ⟨each, further⟩ := ih h begun
      obtain ⟨each', ends⟩ := ih' _ further ended
      exact ⟨each.followed each', ends⟩
  | wrap body ih =>
      obtain ⟨r, inside, rfl⟩ := given
      obtain ⟨each, kinds, ends⟩ := ih h inside
      refine ⟨each.wrapped fun k named => made _ _ _ (kinds k named), ?_⟩
      simpa using ends
  | grow first more step ih ih' =>
      obtain ⟨r, begun, grows⟩ := given
      obtain ⟨I, first, kept, ends⟩ := h
      have grown := grows.invariant (I := fun r => r.Each P tokens ∧ I r.value r.parts)
        (ih first begun) fun s b q inv found round => by
          obtain ⟨each, kind, i⟩ := ih' b (kept _ _ b inv.2 ⟨_, found⟩) round
          exact ⟨inv.1.surrounded each (made _ _ _ kind), i⟩
      exact grown.1.imp_right (ends _ _)
  | loop body ih => exact ⟨Step.Repeats.each (fun _ _ round => (ih h.1 round).1) given, h.2 _⟩
  | call production =>
      obtain ⟨each, kept⟩ := called _ _ _ given
      exact ⟨each, h _ _ kept⟩

end Soundness

end Rule

end LosslessTree
