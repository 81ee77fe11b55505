import LosslessTree.Proofs.Grammar.Confinement

set_option autoImplicit false

namespace LosslessTree

/-- An operand is one node, of the kind that is answered. Where it is missing there may be an error
in its place. -/
def Operand (allowed : Kind → Prop) : Option Kind → Forest → Prop
  | none, parts => parts = .nil ∨ ∃ inner, parts = .node .error inner .nil
  | some k, parts => allowed k ∧ ∃ inner, parts = .node k inner .nil

theorem Operand.imp {allowed allowed' : Kind → Prop} {kind : Option Kind} {parts : Forest}
    (h : Operand allowed kind parts) (weaker : ∀ k, allowed k → allowed' k) :
    Operand allowed' kind parts := by
  cases kind with
  | none => exact h
  | some k => exact h.imp_left (weaker k)

def Forest.Outer (p : Kind → Prop) : Forest → Prop
  | nil => True
  | leaf _ rest => rest.Outer p
  | node k _ rest => p k ∧ rest.Outer p

@[simp] theorem Forest.outer_append {p : Kind → Prop} {f g : Forest} :
    (f ++ g).Outer p ↔ f.Outer p ∧ g.Outer p := by
  induction f with
  | nil => simp [Outer]
  | leaf l rest ih => simp [Outer, ih]
  | node k inner rest _ ih => simp [Outer, ih, and_assoc]

@[simp] theorem Forest.outer_taken {p : Kind → Prop} {tokens : List Token} :
    (taken tokens).Outer p := by
  cases tokens <;> trivial

theorem Operand.outer {allowed p : Kind → Prop} {kind : Option Kind} {parts : Forest}
    (h : Operand allowed kind parts) (error : p .error) (each : ∀ k, allowed k → p k) :
    parts.Outer p := by
  cases kind with
  | none =>
      rcases h with rfl | ⟨inner, rfl⟩
      · trivial
      · exact ⟨error, trivial⟩
  | some k =>
      obtain ⟨fits, inner, rfl⟩ := h
      exact ⟨each k fits, trivial⟩

def Kind.Ordinary (k : Kind) : Prop := k ≠ .binaryExpr ∧ k ≠ .refExpr ∧ k ≠ .callExpr

-- References and calls are around operands without an operator. Binary expressions have another
-- condition, on the tokens.
def Kind.Composed (k : Kind) (inner : Forest) : Prop :=
  match k with
  | .binaryExpr => False
  | .refExpr => inner.Outer (· ≠ .binaryExpr)
  | .callExpr => ∃ callee within rest,
      inner = .node callee within rest ∧ callee ≠ .binaryExpr ∧ callee ≠ .refExpr
  | _ => True

theorem Kind.composed_of_ne {k : Kind} {inner : Forest} (notBinary : k ≠ .binaryExpr)
    (notRef : k ≠ .refExpr) (notCall : k ≠ .callExpr) : k.Composed inner := by
  unfold Composed
  split <;> trivial

theorem Kind.Ordinary.composed {k : Kind} {inner : Forest} (h : k.Ordinary) : k.Composed inner :=
  composed_of_ne h.1 h.2.1 h.2.2

def Production.Answers : Production → Option Kind → Forest → Prop
  | unary, kind, parts => Operand (· ≠ .binaryExpr) kind parts
  | _, _, _ => True

namespace Rule

abbrev Composes {α : Type} (rule : Rule α) (V : α → Forest → Prop) : Prop :=
  rule.Confines Kind.Composed Production.Answers V

section

attribute [local simp] Kind.Ordinary Kind.composed_of_ne Production.Answers Confines peekKind sees seesAny atEnd whenSees
  takeOf takeKind eat expect discard node made nodeIf skipToken skipUnless separation bracketedRound
  bracketed

@[local simp] theorem composes_path : path.Composes fun _ _ => True := by
  simp [path, nameRef, segment]

@[local simp] theorem composes_name {kept : KindSet} : (name kept).Composes fun _ _ => True := by
  simp [name]

@[local simp] theorem composes_type : type.Composes fun _ _ => True := by
  refine confines_peekKind_bind fun k => ?_
  split <;> simp [tupleType, refType, innerType]

@[local simp] theorem composes_ascription : ascription.Composes fun _ _ => True := by
  simp [ascription, expectType]

@[local simp] theorem composes_pattern : pattern.Composes fun _ _ => True := by
  refine confines_peekKind_bind fun k => ?_
  split <;> simp [identPattern, refPattern, tuplePattern, innerPattern, literal]

theorem composes_expressionStatement : expressionStatement.Composes fun _ _ => True := by
  simp only [expressionStatement, discard, confines_bind, confines_pure]
  exact ⟨fun _ _ => True, fun _ _ _ => trivial, by simp [statementEnd], by simp⟩

@[local simp] theorem composes_statement : statement.Composes fun _ _ => True := by
  refine confines_peekKind_bind fun k => ?_
  split
  · simp
  · simp [letStatement, expectPattern, initializer, innerExpression]
  · simp [composes_expressionStatement]

@[local simp] theorem composes_block : block.Composes fun _ _ => True := by
  simp [block, blockRound]

@[local simp] theorem composes_attr : attr.Composes fun _ _ => True := by
  simp [attr, attrBody, expectPath]

@[local simp] theorem composes_prelude : prelude.Composes fun _ _ => True := by
  simp [prelude, attrRound]

@[local simp] theorem composes_fnItem : fnItem.Composes fun _ _ => True := by
  simp [fnItem, parameters, parameter, ascriptionOr, returnType, expectType, fnBody, expectBlock]

@[local simp] theorem composes_structBody : structBody.Composes fun _ _ => True := by
  refine confines_peekKind_bind fun k => ?_
  split <;> simp [fields, field, ascriptionOr]

theorem composes_itemCore :
    itemCore.Composes fun kind _ => ∀ k, kind = some k → k.Ordinary := by
  refine confines_peekKind_bind fun k => ?_
  split <;> simp [structItem, constItem, ascriptionOr, initializer, innerExpression, useItem,
    expectPath, modItem, modBody, itemList, itemRound]

theorem composes_itemRest {begun : Bool} :
    (itemRest begun).Composes fun kind _ => ∀ k, kind = some k → k.Ordinary := by
  cases begun <;> simp only [itemRest, confines_bind] <;> simp <;>
    exact fun _ => composes_prelude.imp fun _ _ _ => composes_itemCore.imp fun _ _ free _ => free

@[local simp] theorem composes_item : item.Composes fun _ _ => True := by
  simp [item, strayToken]
  exact composes_itemRest.imp fun _ _ free k named => Kind.Ordinary.composed (free k named)

theorem composes_headRound : headRound.Composes fun _ _ => True := by
  simp [headRound, headAttr]
  refine fun _ _ => ⟨fun _ _ => True, composes_attr, fun _ _ _ _ _ => composes_itemRest.imp ?_⟩
  intro kind _ free
  cases kind with
  | none => simp
  | some k => exact ⟨Kind.Ordinary.composed (free k rfl), trivial⟩

theorem composes_file : file.Composes fun _ _ => True := by
  simp [file, composes_headRound, itemRound]

theorem composes_made {k : Kind} {allowed : Kind → Prop} {body : Rule Unit} (named : allowed k)
    (inside : body.Composes fun _ inner => k.Composed inner) :
    (made k body).Composes (Operand allowed) := by
  simp only [made, node, confines_bind, confines_pure]
  exact inside.imp fun _ parts fits => ⟨by simpa using fits, named, parts, by simp⟩

theorem composes_primary : primary.Composes (Operand Kind.Ordinary) := by
  refine confines_peekKind_bind fun k => ?_
  split
  · exact composes_made (by simp) (composes_path.imp fun _ _ _ => by simp)
  · simp [parenthesized, parenthesizedRest, furtherField, innerExpression, Operand]
  · exact composes_made (by simp) (composes_block.imp fun _ _ _ => by simp)
  · simp [Operand]

theorem composes_postfixed :
    postfixed.Composes (Operand fun k => k ≠ .binaryExpr ∧ k ≠ .refExpr) := by
  refine ⟨_, composes_primary.imp fun _ _ operand => operand.imp fun k free => ⟨free.1, free.2.1⟩,
    ?_, fun _ _ h => h⟩
  rintro kind parts b operand ⟨ahead, found⟩
  cases kind with
  | none => simp at found
  | some k =>
      obtain ⟨allowed, inner, rfl⟩ := operand
      simp [arguments, innerArgument, innerExpression, Kind.Composed, Operand, allowed]

theorem composes_refExpression :
    refExpression.Composes fun _ inner => Kind.refExpr.Composed inner := by
  have operand (kind : Option Kind) (parts : Forest) (h : Operand (· ≠ .binaryExpr) kind parts) :
      parts.Outer (· ≠ .binaryExpr) := h.outer (by decide) fun _ h => h
  simpa [refExpression, Kind.Composed, Forest.Outer] using fun _ => operand

theorem composes_unary : unary.Composes (Operand (· ≠ .binaryExpr)) := by
  have either (here : Bool) : (if here then made .refExpr refExpression else postfixed).Composes
      (Operand (· ≠ .binaryExpr)) := by
    cases here with
    | true => exact composes_made (by simp) composes_refExpression
    | false => exact composes_postfixed.imp fun _ _ operand => operand.imp fun _ h => h.1
  exact fun ahead => either _

end

end Rule

-- The level of the operator behind the first element of a forest that stands on the tokens.
def Forest.levelAt (eof : Token) (tokens : List Token) : Forest → Option Nat
  | node _ left (leaf _ _) => (ahead eof (tokens.drop left.leaves.length)).level
  | _ => none

def Forest.Complete : Forest → Prop
  | node _ _ (leaf _ (node k _ _)) => k ≠ .error
  | _ => False

/-- Around an operator of the level stand an operand whose own operator, if it has one and is
complete, has no lower level, and one whose own operator has a higher level. -/
structure Graded (eof : Token) (tokens : List Token) (level : Nat) (kind : Kind)
    (left right : Forest) : Prop where
  before : kind = .binaryExpr → left.Complete →
    ∃ own, left.levelAt eof tokens = some own ∧ level ≤ own
  behind : ∀ inner, right = .node .binaryExpr inner .nil →
    ∃ own, inner.levelAt eof (tokens.drop (left.leaves.length + 1)) = some own ∧ level < own

def Ranked (eof : Token) (tokens : List Token) (k : Kind) (inner : Forest) : Prop :=
  k.Composed inner ∨ k = .binaryExpr ∧ ∃ kind left operator right level,
    inner = .node kind left (.leaf operator right) ∧ inner.levelAt eof tokens = some level ∧
      Graded eof tokens level kind left right

/-- An expression is an operand whose operator, if it has one, is of the least level at least. If it
is there the operator behind it is of a lower level. -/
structure Climbed (eof : Token) (least : Nat) (tokens : List Token) (s : Step (Option Kind)) :
    Prop where
  operand : Operand (fun _ => True) s.value s.parts
  level : ∀ inner, s.parts = .node .binaryExpr inner .nil →
    ∃ own, inner.levelAt eof tokens = some own ∧ least ≤ own
  behind : s.value.isSome → ∀ next, (ahead eof s.rest).level = some next → next < least

def Production.Settles (eof : Token) : Production → List Token → Step (Option Kind) → Prop
  | expression least, tokens, s => Climbed eof least tokens s
  | p, _, s => p.Answers s.value s.parts

/-- What holds while an expression grows: where nothing of it is missing, the operator behind it is
of no higher level than its own. -/
structure Climbing (eof : Token) (least : Nat) (tokens : List Token) (s : Step (Option Kind)) :
    Prop where
  each : s.Each (Ranked eof) tokens
  operand : Operand (fun _ => True) s.value s.parts
  level : ∀ inner, s.parts = .node .binaryExpr inner .nil →
    ∃ own, inner.levelAt eof tokens = some own ∧ least ≤ own ∧
      (inner.Complete → ∀ next, (ahead eof s.rest).level = some next → next ≤ own)

section Growth

variable {eof : Token} {least level : Nat} {tokens : List Token} {s q : Step (Option Kind)}

theorem Climbing.begin (each : s.Each (Ranked eof) tokens)
    (operand : Operand (· ≠ .binaryExpr) s.value s.parts) : Climbing eof least tokens s where
  each := each
  operand := operand.imp fun _ _ => trivial
  level := by
    intro inner single
    have outer : s.parts.Outer (· ≠ .binaryExpr) := operand.outer (by decide) fun _ h => h
    rw [single] at outer
    exact absurd rfl outer.1

-- The operator is put between what was built so far and the expression behind it.
theorem Climbing.around {r : Step (Kind × Option Kind)} (atEof : eof.kind = .eof)
    (h : Climbing eof least tokens s) (more : s.value.isSome)
    (next : (ahead eof s.rest).level = some level) (above : least ≤ level)
    (each : q.Each (Ranked eof) s.rest.tail) (right : Climbed eof (level + 1) s.rest.tail q)
    (value : r.value = (.binaryExpr, some .binaryExpr)) (parts : r.parts = .taken s.rest ++ q.parts)
    (rest : r.rest = q.rest) : Climbing eof least tokens (s.around fun _ => r) := by
  obtain ⟨k, found⟩ := Option.isSome_iff_exists.mp more
  obtain ⟨-, left, built⟩ : Operand (fun _ => True) (some k) s.parts := found ▸ h.operand
  obtain ⟨t, behind, split⟩ : ∃ t behind, s.rest = t :: behind := by
    cases tokens : s.rest with
    | nil =>
        have operator := seen_of_ahead_level next
        rw [tokens] at operator
        exact absurd (atEof.symm.trans operator) (by decide)
    | cons t behind => exact ⟨t, behind, rfl⟩
  have stands : tokens.drop left.leaves.length = s.rest := by
    simpa [built, Forest.leaves] using h.each.rest.symm
  have whole : s.parts ++ r.parts = .node k left (.leaf t.leaf q.parts) := by
    simp [built, parts, split]
  have own : (Forest.node k left (.leaf t.leaf q.parts)).levelAt eof tokens = some level := by
    rw [Forest.levelAt, stands, next]
  have graded : Graded eof tokens level k left q.parts := by
    constructor
    · rintro rfl complete
      obtain ⟨own, here, -, lower⟩ := h.level left built
      exact ⟨own, here, lower complete level next⟩
    · intro inner single
      obtain ⟨own, here, above⟩ := right.level inner single
      rw [← List.tail_drop, stands]
      exact ⟨own, here, above⟩
  have surrounded : (s.around fun _ => r).parts = .node .binaryExpr (s.parts ++ r.parts) .nil := by
    simp [Step.around, Step.andThen, value]
  constructor
  · have taken := (Step.each_taken () []).followed each
    have behind : r.Each (Ranked eof) s.rest := ⟨parts ▸ taken.parts, parts ▸ rest ▸ taken.rest⟩
    refine h.each.surrounded behind ?_
    rw [whole, value]
    exact .inr ⟨rfl, _, _, _, _, _, rfl, own, graded⟩
  · rw [surrounded]
    simp [Step.around, Step.andThen, value, Operand]
  · intro inner single
    rw [surrounded, whole] at single
    cases single
    refine ⟨level, own, above, fun complete following here => ?_⟩
    -- Nothing is missing, so there is an expression behind the operator.
    have present : q.value.isSome := by
      cases missing : q.value with
      | some => rfl
      | none =>
          rcases (missing ▸ right.operand : Operand _ none q.parts) with parts | ⟨inner, parts⟩
          · rw [parts] at complete
            exact complete.elim
          · rw [parts] at complete
            exact absurd rfl complete
    have lower := right.behind present following (by rw [← here, ← rest]; rfl)
    omega

end Growth

section Productions

variable {eof : Token} {calls : Giving} {least : Nat} {tokens : List Token}
  {s : Step (Option Kind)} (atEof : eof.kind = .eof)
  (called : ∀ p tokens s, calls p tokens s → s.Each (Ranked eof) tokens ∧ p.Settles eof tokens s)
include called

theorem Rule.Gives.ranked {α : Type} {rule : Rule α} {V : α → Forest → Prop} {s : Step α}
    (h : rule.Composes V) (given : rule.Gives eof calls tokens s) :
    s.Each (Ranked eof) tokens ∧ V s.value s.parts := by
  refine given.confined (fun _ _ _ => .inl) (fun p tokens s called' => ?_) h
  refine (called p tokens s called').imp_right fun settled => ?_
  cases p <;> trivial

include atEof in
theorem Rule.Gives.climbed (given : (Rule.expression least).Gives eof calls tokens s) :
    s.Each (Ranked eof) tokens ∧ Climbed eof least tokens s := by
  obtain ⟨r, begun, grows⟩ := given
  obtain ⟨each, operand⟩ := Rule.Gives.ranked called Rule.composes_unary begun
  have grown := grows.invariant (I := Climbing eof least tokens) (.begin each operand)
    fun s level r climbing found round => by
      obtain ⟨r', took, _, ⟨_, ⟨q, given, _, rfl, rfl⟩, _, rfl, rfl⟩, rfl⟩ := round
      obtain ⟨more, next⟩ : s.value.isSome ∧ (ahead eof s.rest).level.filter (least ≤ ·) = some level := by
        simpa using found
      obtain ⟨next, above⟩ := Option.filter_eq_some_iff.mp next
      have taken : r' = ⟨(), .taken s.rest, [], s.rest.tail⟩ := by
        cases tokens : s.rest <;> rw [tokens] at took <;> exact took
      subst taken
      obtain ⟨each, climbed⟩ := called _ _ _ given
      refine climbing.around atEof more next (by simpa using above) each climbed rfl ?_ rfl
      simp [Step.andThen]
  obtain ⟨climbing, last⟩ := grown
  refine ⟨climbing.each, climbing.operand, fun inner single => ?_, fun present next here => ?_⟩
  · obtain ⟨own, level, above, -⟩ := climbing.level inner single
    exact ⟨own, level, above⟩
  · simp [present, here] at last
    exact last

end Productions

variable {eof : Token} {tokens : List Token}

theorem Production.Gives.settled (atEof : eof.kind = .eof) {p : Production}
    {s : Step (Option Kind)} (given : p.Gives eof tokens s) :
    s.Each (Ranked eof) tokens ∧ p.Settles eof tokens s := by
  refine given (fun p tokens s => s.Each (Ranked eof) tokens ∧ p.Settles eof tokens s) ?_
  intro p tokens s inside
  have called : ∀ (p : Production) tokens s, (s.Each (Ranked eof) tokens ∧ p.Settles eof tokens s) →
      s.Each (Ranked eof) tokens ∧ p.Settles eof tokens s := fun _ _ _ h => h
  cases p with
  | item => exact Rule.Gives.ranked called Rule.composes_item inside
  | pattern => exact Rule.Gives.ranked called Rule.composes_pattern inside
  | type => exact Rule.Gives.ranked called Rule.composes_type inside
  | unary => exact Rule.Gives.ranked called Rule.composes_unary inside
  | expression least => exact Rule.Gives.climbed atEof called inside

theorem TokenStream.run_ranked {s : TokenStream} (atEof : s.eof.kind = .eof)
    (plain : ∀ t ∈ s.tokens, t.kind.isNode = false) :
    (s.run .file).Each (Ranked s.eof) s.tokens :=
  (Rule.Gives.ranked (fun _ _ _ => Production.Gives.settled atEof) Rule.composes_file
    (gives_file atEof plain)).1

end LosslessTree
