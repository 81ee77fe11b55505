import LosslessTree.Grammar.Parse
import LosslessTree.Proofs.Grammar.Building

set_option autoImplicit false

namespace LosslessTree

open Form

theorem KindSet.ne_of_contains {kinds : KindSet} {k other : Kind}
    (inside : kinds.contains k = true) (outside : kinds.contains other = false) : k ≠ other := by
  rintro rfl
  rw [inside] at outside
  cases outside

theorem KindSet.ne_of_not_contains {kinds : KindSet} {k other : Kind}
    (outside : kinds.contains k = false) (inside : kinds.contains other = true) : k ≠ other :=
  (ne_of_contains inside outside).symm

-- A rule chose an element of a category, which is all that it built, or it built what stands for a
-- missing one.
def Chosen (c : Category) (missing : Form Empty) (v : Option Kind) (tops : List Kind) : Prop :=
  match v with
  | some k => c.members.contains k = true ∧ tops = [k]
  | none => missing.Matches tops

theorem matches_category {c : Category} {w : List Kind} :
    (category c).Matches w ↔ ∃ k, c.members.contains k = true ∧ w = [k] := by
  simp [category, KindSet.mem_toList]

theorem derives_due_oneOf {broken : Bool} {k : Kind} {kinds : List Kind} {w : List Kind}
    (mem : k ∈ kinds) (h : (due broken (token k)).Matches w) :
    (due broken (oneOf kinds)).Matches w := by
  rcases derives_due.mp h with h | ⟨isBroken, rfl⟩
  · exact .left (derives_token.mp h ▸ .oneOf mem)
  · exact missing isBroken

theorem Chosen.isSome {c : Category} {missing : Form Empty} {v : Option Kind} {tops : List Kind}
    (h : Chosen c missing v tops) :
    if v.isSome = true then (category c).Matches tops else missing.Matches tops := by
  cases v with
  | some k => exact matches_category.mpr ⟨k, h⟩
  | none => exact h

-- What stands for an expression that should begin at the kind. At the kinds that one begins with
-- none is missing.
def absentExpression (broken : Bool) (first : Kind) : Form Empty :=
  if Rule.expressionFirst.contains first = true then oneOf []
  else spoilt broken (opt (token .error))

theorem derives_absentExpression {broken : Bool} {first : Kind} {w : List Kind} :
    (absentExpression broken first).Matches w ↔ Rule.expressionFirst.contains first = false ∧
      broken = true ∧ (w = [.error] ∨ w = []) := by
  cases inside : Rule.expressionFirst.contains first <;>
    simp [absentExpression, inside, derives_spoilt]

theorem Chosen.part {broken : Bool} {first : Kind} {v : Option Kind} {tops : List Kind}
    (h : Chosen .expr (absentExpression broken first) v tops) :
    (Form.part broken (category .expr)).Matches tops := by
  cases v with
  | some k => exact .left (matches_category.mpr ⟨k, h⟩)
  | none => exact derives_part.mpr (.inr (derives_absentExpression.mp h).2)

def Production.Yield (broken : Bool) (first : Kind) :
    Production → Option Kind → List Kind → Prop
  | item, _, tops => (itemShape broken).Matches tops
  | pattern, v, tops => Chosen .pat .empty v tops
  | type, v, tops => Chosen .type .empty v tops
  | unary, v, tops => Chosen .expr (absentExpression broken first) v tops
  | expression _, v, tops => Chosen .expr (absentExpression broken first) v tops

namespace Rule

variable {broken : Bool} {eof : Token} {depth : Nat} {α β : Type} {tokens : List Token}
variable (atEof : eof.kind = .eof)
  (calls : ∀ p tokens, tokens.length < depth → (p = .item → seen eof tokens ≠ .eof) →
    Builds broken eof depth (call p) tokens fun v tops _ => p.Yield broken (seen eof tokens) v tops)

section Tokens

omit atEof

-- A rule that answers whether another one chose an element.
theorem builds_inner {rule : Rule (Option Kind)} {c : Category} {missing : Form Empty}
    (h : Builds broken eof depth rule tokens fun v tops _ => Chosen c missing v tops) :
    Builds broken eof depth (do return (← rule).isSome) tokens fun found tops _ =>
      if found = true then (category c).Matches tops else missing.Matches tops :=
  builds_bind h fun _ _ _ chosen => builds_pure (by simpa using chosen.isSome)

theorem builds_made {k : Kind} {c : Category} {missing : Form Empty} {body : Rule Unit}
    (isNode : k.isNode = true) (member : c.members.contains k = true)
    (h : Yields broken eof depth body tokens (k.shape broken)) :
    Builds broken eof depth (made k body) tokens fun v tops _ => Chosen c missing v tops := by
  refine builds_bind (yields_node isNode h) fun _ tops _ fits => builds_pure ?_
  rw [List.append_nil]
  exact ⟨member, derives_token.mp fits⟩

theorem yields_whenSees {k : Kind} {rule : Rule Unit} {f : Form Empty}
    (h : seen eof tokens = k → Yields broken eof depth rule tokens f) :
    Yields broken eof depth (whenSees k rule) tokens (opt f) := by
  apply builds_ifSees
  · intro here
    exact (h here).weaken fun _ fits => .left fits
  · intro _
    exact builds_pure (.right .empty)

include atEof

-- An error node around the one token.
theorem builds_skipToken {problem : Problem} (inside : seen eof tokens ≠ .eof) :
    Builds broken eof depth (skipToken problem) tokens fun _ tops _ =>
      broken = true ∧ tops = [.error] := by
  apply builds_node rfl
  apply builds_report_bind
  intro isBroken
  refine (yields_take atEof rfl inside).imp fun _ _ _ fits => ⟨?_, isBroken, rfl⟩
  rw [derives_token.mp fits]
  exact derives_spoilt.mpr ⟨isBroken, .right (.oneOf (Kind.mem_all _))⟩

theorem builds_skipUnless {problem : Problem} {kept : KindSet} :
    Builds broken eof depth (skipUnless problem kept) tokens fun _ tops _ =>
      broken = true ∧ (tops = [.error] ∨ tops = []) := by
  apply builds_ifSeesAny
  · intro _
    exact builds_report fun isBroken => ⟨isBroken, .inr rfl⟩
  · intro skipped
    have inside : seen eof tokens ≠ .eof := by
      apply KindSet.ne_of_not_contains skipped
      rw [KindSet.contains_union, Bool.or_eq_true]
      exact .inr rfl
    exact (builds_skipToken atEof inside).imp fun _ _ _ fits => ⟨fits.1, .inl fits.2⟩

theorem builds_eat {k : Kind} (inside : k ≠ .eof) :
    Builds broken eof depth (eat k) tokens fun here tops rest =>
      if here = true then seen eof tokens = k ∧ tops = [k]
      else seen eof tokens ≠ k ∧ tops = [] ∧ rest = tokens := by
  apply builds_ifSees
  · intro here
    exact builds_take_bind atEof here inside fun rest _ => builds_pure (by simpa using here)
  · intro other
    exact builds_pure (by simpa using other)

theorem builds_ifEat {k : Kind} {a b : Rule β} {R : β → List Kind → List Token → Prop}
    (inside : k ≠ .eof)
    (yes : seen eof tokens = k → ∀ rest, rest.length < depth →
      Builds broken eof depth a rest fun v more rest' => R v (k :: more) rest')
    (no : seen eof tokens ≠ k → Builds broken eof depth b tokens R) :
    Builds broken eof depth (eat k >>= fun here => if here = true then a else b) tokens R := by
  refine builds_bind_within (builds_eat atEof inside) fun here tops rest fits within => ?_
  cases here with
  | true =>
      obtain ⟨here, rfl⟩ : seen eof tokens = k ∧ tops = [k] := by simpa using fits
      exact yes here rest (within (.inr (by simp)))
  | false =>
      obtain ⟨other, rfl, rfl⟩ : seen eof tokens ≠ k ∧ tops = [] ∧ rest = tokens := by
        simpa using fits
      exact no other

theorem builds_eat_bind {k : Kind} {next : Unit → Rule β} {R : β → List Kind → List Token → Prop}
    (inside : k ≠ .eof)
    (yes : seen eof tokens = k → ∀ rest, rest.length < depth →
      Builds broken eof depth (next ()) rest fun v more rest' => R v (k :: more) rest')
    (no : seen eof tokens ≠ k → Builds broken eof depth (next ()) tokens R) :
    Builds broken eof depth (discard (eat k) >>= next) tokens R := by
  have eaten : Builds broken eof depth (discard (eat k)) tokens fun _ tops rest =>
      seen eof tokens = k ∧ tops = [k] ∨ seen eof tokens ≠ k ∧ tops = [] ∧ rest = tokens := by
    refine builds_bind (builds_eat atEof inside) fun here tops rest fits => builds_pure ?_
    rw [List.append_nil]
    split at fits
    · exact .inl fits
    · exact .inr fits
  refine builds_bind_within eaten fun _ tops rest fits within => ?_
  rcases fits with ⟨here, rfl⟩ | ⟨other, rfl, rfl⟩
  · exact yes here rest (within (.inr (by simp)))
  · exact no other

theorem yields_expect {k : Kind} (inside : k ≠ .eof) :
    Yields broken eof depth (expect k) tokens (due broken (token k)) := by
  apply builds_ifSees
  · intro here
    exact (yields_take atEof here inside).weaken fun _ fits => fits.due
  · intro _
    exact builds_report missing

theorem yields_eat {k : Kind} (inside : k ≠ .eof) :
    Yields broken eof depth (eat k) tokens (opt (token k)) := by
  apply builds_ifSees
  · intro here
    exact builds_take_bind atEof here inside fun rest _ => builds_pure (.left .token)
  · intro _
    exact builds_pure (.right .empty)

theorem yields_expect_here {k : Kind} (here : seen eof tokens = k) (inside : k ≠ .eof) :
    Yields broken eof depth (expect k) tokens (token k) := by
  apply builds_ifSees
  · intro _
    exact yields_take atEof here inside
  · intro other
    exact absurd here other

theorem yields_bracketed {opening closing : Kind} {problem : Problem} {first : KindSet}
    {element : Rule Bool} {f : Form Empty} (full : f.nullable = false)
    (here : seen eof tokens = opening) (opens : opening ≠ .eof) (closes : closing ≠ .eof)
    (h : ∀ rest, rest.length < depth → Builds broken eof depth element rest fun found tops _ =>
      if found = true then f.Matches tops
      else tops = [] ∨ broken = true ∧ tops = [.error]) :
    Yields broken eof depth (bracketed opening closing .comma problem first element) tokens
      (brackets broken opening closing f) := by
  apply yields_takeKind_bind atEof here opens
  intro rest less
  have loop : Builds broken eof depth (loop (bracketedRound closing .comma problem first element))
      rest fun _ tops _ => (row [separated broken f, opt f]).Matches tops := by
    apply builds_loop (I := fun tops _ => (separated broken f).Matches tops) .none
    intro tops rest before within
    have ended : (row [separated broken f, opt f]).Matches tops := by
      rw [← tops.append_nil]
      exact .seq before (.right .empty)
    apply builds_ifSeesAny
    · intro _
      refine builds_pure ?_
      rw [List.append_nil]
      exact ended
    intro _
    apply builds_ifSees
    · intro comma
      have inside : seen eof rest ≠ .eof := by
        rw [comma]
        decide
      refine builds_bind (builds_skipToken atEof inside) ?_
      rintro _ _ _ ⟨isBroken, rfl⟩
      refine builds_pure ⟨by simp, ?_⟩
      exact before.snoc (.right (derives_spoilt.mpr ⟨isBroken, .right .token⟩))
    intro _
    refine builds_bind (h rest (within less)) fun found new rest' fits => ?_
    cases found with
    | false =>
        refine builds_pure ?_
        rw [List.append_nil]
        simp only [Bool.false_eq_true, if_false] at fits ⊢
        rcases fits with rfl | ⟨isBroken, rfl⟩
        · rw [List.append_nil]
          exact ended
        · rw [← (tops ++ _).append_nil]
          exact .seq (before.snoc (.right (derives_spoilt.mpr ⟨isBroken, .right .token⟩)))
            (.right .empty)
    | true =>
        have element : f.Matches new := by simpa using fits
        have some : new ≠ [] := element.ne_nil full
        apply builds_ifEat atEof (by decide)
        · intro _ _ _
          exact builds_pure ⟨by simp [some], before.snoc (.left (.seq element .token))⟩
        intro _
        apply builds_ifSeesAny
        · intro _
          refine builds_report_bind fun isBroken => builds_pure ⟨by simp [some], ?_⟩
          rw [List.append_nil]
          exact before.snoc (.right (derives_spoilt.mpr ⟨isBroken, .left element⟩))
        · intro _
          refine builds_pure ?_
          rw [List.append_nil]
          exact .seq before (.left element)
  refine builds_bind loop fun _ tops _ fits => (yields_expect atEof closes).imp fun _ _ _ closing => ?_
  obtain ⟨_, _, rfl, elements, last⟩ := derives_seq.mp fits
  rw [List.append_assoc]
  exact .seq elements (.seq last closing)

end Tokens

section Names

include atEof

theorem builds_name {kept : KindSet} : Builds broken eof depth (name kept) tokens fun _ tops _ =>
    (part broken (token .name)).Matches tops ∧ (seen eof tokens = .ident → tops = [.name]) := by
  apply builds_ifSees
  · intro here
    refine (yields_node rfl (yields_take atEof here (by decide))).imp fun _ _ _ fits => ?_
    exact ⟨fits.part, fun _ => derives_token.mp fits⟩
  · intro other
    refine (builds_skipUnless atEof).imp fun _ _ _ fits => ?_
    exact ⟨derives_part.mpr (.inr fits), fun here => absurd here other⟩

theorem yields_name {kept : KindSet} :
    Yields broken eof depth (name kept) tokens (part broken (token .name)) :=
  (builds_name atEof).imp fun _ _ _ fits => fits.1

theorem yields_nameRef (here : seen eof tokens = .ident) :
    Yields broken eof depth nameRef tokens (token .nameRef) :=
  yields_node rfl (yields_takeKind atEof here (by decide))

theorem yields_path (here : seen eof tokens = .ident) :
    Yields broken eof depth path tokens (token .path) := by
  apply yields_node rfl
  refine yields_bind (yields_nameRef atEof here) fun _ rest => ?_
  -- The last double colon may have no identifier behind it, and then it ends the loop.
  apply builds_loop (I := fun tops _ =>
    (many (row [token .doubleColon, token .nameRef])).Matches tops) .none
  intro tops rest segments _
  apply builds_ifEat atEof (by decide)
  · intro _ rest _
    apply builds_ifSees
    · intro here
      refine builds_bind (yields_nameRef atEof here) fun _ more _ fits => builds_pure ?_
      rw [List.append_nil]
      exact ⟨by simp, segments.snoc (.seq .token fits)⟩
    · intro _
      refine builds_report_bind fun isBroken => builds_pure ?_
      exact .seq segments (.left (derives_spoilt.mpr ⟨isBroken, .token⟩))
  · intro _
    exact builds_pure (.seq segments (.right .empty))

end Names

section Types

include calls

omit atEof in
theorem builds_innerType (inside : tokens.length < depth) :
    Builds broken eof depth innerType tokens fun found tops _ =>
      if found = true then (category .type).Matches tops else tops = [] :=
  (builds_inner (calls .type _ inside nofun)).imp fun found _ _ fits => by
    cases found <;> simpa using fits

include atEof

theorem yields_refType (here : seen eof tokens = .ampersand) :
    Yields broken eof depth refType tokens (Kind.refType.shape broken) := by
  apply yields_take_bind atEof here (by decide)
  intro rest inside
  refine yields_bind_inside inside (yields_discard (yields_eat atEof (by decide)))
    fun _ rest inside => ?_
  refine builds_bind (builds_innerType calls inside) fun found tops rest fits => ?_
  cases found with
  | true => exact builds_pure (.left (by simpa using fits))
  | false =>
      obtain rfl : tops = [] := by simpa using fits
      exact builds_report missing

theorem builds_type :
    Builds broken eof depth type tokens fun v tops _ => Chosen .type .empty v tops := by
  apply builds_peekKind_bind
  split
  · next here => exact builds_made rfl rfl (yields_path atEof here)
  · next here =>
      refine builds_made rfl rfl (yields_bracketed atEof rfl here (by decide) (by decide) ?_)
      intro rest inside
      exact (builds_innerType calls inside).imp fun found _ _ fits => by
        cases found <;> simp_all
  · next here => exact builds_made rfl rfl (yields_refType atEof calls here)
  · exact builds_pure .empty

theorem yields_expectType :
    Yields broken eof depth expectType tokens (due broken (category .type)) := by
  refine builds_bind (builds_type atEof calls) fun v tops rest chosen => ?_
  cases v with
  | some k =>
      refine builds_pure ?_
      rw [List.append_nil]
      exact .left (matches_category.mpr ⟨k, chosen⟩)
  | none =>
      obtain rfl : tops = [] := derives_empty.mp chosen
      exact builds_report missing

theorem yields_ascription (here : seen eof tokens = .colon) :
    Yields broken eof depth ascription tokens (typeBehind broken .colon) :=
  yields_takeKind_bind atEof here (by decide) fun _ _ => yields_expectType atEof calls

theorem yields_ascriptionOr {problem : Problem} :
    Yields broken eof depth (ascriptionOr problem) tokens
      (due broken (typeBehind broken .colon)) := by
  apply builds_ifSees
  · intro here
    exact (yields_ascription atEof calls here).weaken fun _ fits => fits.due
  · intro _
    exact builds_report missing

end Types

section Patterns

include atEof

theorem yields_identPattern (first : seen eof tokens ∈ [.ident, .refKw, .mutKw]) :
    Yields broken eof depth identPattern tokens (Kind.identPat.shape broken) := by
  apply builds_eat_bind atEof (by decide)
  · intro _ _ _
    refine builds_bind (yields_discard (yields_eat atEof (by decide))) fun _ _ _ mutFits => ?_
    exact (yields_name atEof).imp fun _ _ _ nameFits => .left (.seq .token (.seq mutFits nameFits))
  intro notRef
  apply builds_eat_bind atEof (by decide)
  · intro _ _ _
    exact (yields_name atEof).imp fun _ _ _ fits => .right (.left (.seq .token fits))
  intro notMut
  have here : seen eof tokens = .ident := by simp_all
  exact (builds_name atEof).imp fun _ _ _ fits => .right (.right (fits.2 here ▸ .token))

theorem yields_literal (here : literalFirst.contains (seen eof tokens) = true) :
    Yields broken eof depth (takeOf literalFirst) tokens (Kind.literal.shape broken) := by
  have inside : seen eof tokens ≠ .eof := KindSet.ne_of_contains here (by decide)
  refine (builds_takeOf atEof rfl inside here).imp fun _ tops _ taken => ?_
  rw [taken.1]
  rw [literalFirst, KindSet.contains_ofList, List.contains_iff_mem] at here
  exact .oneOf here

include calls

omit atEof in
theorem builds_innerPattern (inside : tokens.length < depth) :
    Builds broken eof depth innerPattern tokens fun found tops _ =>
      if found = true then (category .pat).Matches tops else tops = [] :=
  (builds_inner (calls .pattern _ inside nofun)).imp fun found _ _ fits => by
    cases found <;> simpa using fits

theorem yields_refPattern (here : seen eof tokens = .ampersand) :
    Yields broken eof depth refPattern tokens (Kind.refPat.shape broken) := by
  apply yields_take_bind atEof here (by decide)
  intro rest inside
  refine yields_bind_inside inside (yields_discard (yields_eat atEof (by decide)))
    fun _ rest inside => ?_
  refine builds_bind (builds_innerPattern calls inside) fun found tops rest fits => ?_
  cases found with
  | true => exact builds_pure (.left (by simpa using fits))
  | false =>
      obtain rfl : tops = [] := by simpa using fits
      exact (builds_skipUnless atEof).imp fun _ _ _ fits => derives_part.mpr (.inr fits)

theorem builds_pattern {missing : Form Empty}
    (absent : patternFirst.contains (seen eof tokens) = false → missing.Matches []) :
    Builds broken eof depth pattern tokens fun v tops _ => Chosen .pat missing v tops := by
  apply builds_peekKind_bind
  split
  · next here => exact builds_made rfl rfl (yields_identPattern atEof (by simp [here]))
  · next here => exact builds_made rfl rfl (yields_identPattern atEof (by simp [here]))
  · next here => exact builds_made rfl rfl (yields_identPattern atEof (by simp [here]))
  · next here => exact builds_made rfl rfl (yields_take atEof here (by decide))
  · next here => exact builds_made rfl rfl (yields_take atEof here (by decide))
  · next here => exact builds_made rfl rfl (yields_refPattern atEof calls here)
  · next here =>
      refine builds_made rfl rfl (yields_bracketed atEof rfl here (by decide) (by decide) ?_)
      intro rest inside
      exact (builds_innerPattern calls inside).imp fun found _ _ fits => by
        cases found <;> simp_all
  · split
    · next here => exact builds_made rfl rfl (yields_node rfl (yields_literal atEof here))
    · refine builds_pure (absent ?_)
      simp_all [patternFirst, literalFirst, KindSet.contains_ofList]

theorem yields_pattern (here : patternFirst.contains (seen eof tokens) = true) :
    Yields broken eof depth (discard pattern) tokens (category .pat) := by
  have never (absent : patternFirst.contains (seen eof tokens) = false) :
      (oneOf [] : Form Empty).Matches [] := by
    rw [here] at absent
    cases absent
  refine builds_bind (builds_pattern atEof calls never) fun v tops _ chosen => builds_pure ?_
  rw [List.append_nil]
  cases v with
  | some k => exact matches_category.mpr ⟨k, chosen⟩
  | none => cases chosen with | oneOf mem => cases mem

theorem yields_expectPattern :
    Yields broken eof depth expectPattern tokens (part broken (category .pat)) := by
  refine builds_bind (builds_pattern atEof calls fun _ => .empty) fun v tops rest chosen => ?_
  cases v with
  | some k =>
      refine builds_pure ?_
      rw [List.append_nil]
      exact .left (matches_category.mpr ⟨k, chosen⟩)
  | none =>
      obtain rfl : tops = [] := derives_empty.mp chosen
      exact (builds_skipUnless atEof).imp fun _ _ _ fits => derives_part.mpr (.inr fits)

end Patterns

end Rule

end LosslessTree
