import LosslessTree.Proofs.Grammar.Certifying

set_option autoImplicit false

namespace LosslessTree

namespace Rule

variable {eof eof' : Token} {tokens : List Token}

abbrev Real (k : Kind) : Prop := k ≠ .eof

section Seals

variable (atEof : eof.kind = .eof)
include atEof

theorem seals_name {kept : KindSet} {P : Unit → Prop} : Seals eof eof' Real (name kept) tokens P := by
  refine seals_sees_bind ?_
  split
  · next here => exact seals_node (seals_take (k := .ident) (by decide) (by simp) atEof (beq_iff_eq.mp here))
  · exact seals_of_loud fun Q => by simp [skipUnless, skipToken]

theorem seals_identPattern {P : Unit → Prop} : Seals eof eof' Real identPattern tokens P :=
  seals_bind fun _ _ _ => seals_bind fun _ _ _ => seals_name atEof

theorem seals_literal {P : Unit → Prop} (here : literalFirst.contains (seen eof tokens) = true) :
    Seals eof eof' Real literal tokens P := by
  refine seals_node (seals_bind ?_)
  rintro _ rfl -
  refine seals_take ?_ (by simp) atEof rfl
  intro ended
  rw [ended] at here
  cases here

omit atEof in
-- The pattern inside has fewer tokens.
theorem seals_refPattern {P : Unit → Prop} (some_ : tokens ≠ [])
    (inside : ∀ rest : List Token, rest.length < tokens.length →
      Seals eof eof' Real pattern rest fun kind => kind.isSome = true) :
    Seals eof eof' Real refPattern tokens P := by
  obtain ⟨t, tokens, rfl⟩ := List.exists_cons_of_ne_nil some_
  refine seals_bind ?_
  rintro _ rfl -
  refine seals_bind fun r eaten _ => seals_bind_or fun found _ _ => ?_
  have fewer := eaten.keeps.rest_le
  cases value : found.value with
  | false => exact .inl (seals_of_loud fun Q => by simp [skipUnless, skipToken])
  | true =>
      refine .inr ⟨(), rfl, fun _ => ?_⟩
      exact seals_map (seals_call (inside r.rest (by simp only [List.length_cons] at fewer ⊢; omega)))

theorem seals_pattern : Seals eof eof' Real pattern tokens fun kind => kind.isSome = true := by
  induction size : tokens.length using Nat.strongRecOn generalizing tokens with
  | ind n ih =>
      refine seals_peekKind_bind ?_
      generalize here : seen eof tokens = k
      split
      case h_1 | h_2 | h_3 => exact seals_map (seals_node (seals_identPattern atEof))
      · exact seals_map (seals_node (seals_take (by decide) (by simp) atEof here))
      · exact seals_map (seals_node (seals_take (by decide) (by simp) atEof here))
      · refine seals_map (seals_node (seals_refPattern ?_ fun rest fewer => ih _ (size ▸ fewer) rfl))
        rintro rfl
        exact absurd (atEof.symm.trans here) (by decide)
      · exact seals_map (seals_node (seals_bracketed (by decide) (by simp) atEof))
      · split
        · next first => exact seals_map (seals_node (seals_literal atEof (here ▸ first)))
        · exact seals_pure (by simp)

theorem seals_letStatement {P : Unit → Prop} : Seals eof eof' Real letStatement tokens P :=
  seals_node <| seals_bind fun _ _ _ => seals_bind fun _ _ _ => seals_bind fun _ _ _ =>
    seals_bind fun _ _ _ => seals_expect (by decide) (by simp) atEof

theorem seals_block {P : Unit → Prop} : Seals eof eof' Real block tokens P :=
  seals_bind fun _ _ _ => seals_bind fun _ _ _ => seals_expect (by decide) (by simp) atEof

theorem seals_parenthesized {P : Option Kind → Prop} : Seals eof eof' Real parenthesized tokens P := by
  have closes {Q : Unit → Prop} {rest : List Token} : Seals eof eof' Real (expect .rightParen) rest Q :=
    seals_expect (by decide) (by simp) atEof
  refine seals_wrap <| seals_map <| seals_bind fun _ _ _ =>
    seals_eat_or (k := .rightParen) (by decide) (by simp) atEof fun _ => seals_bind fun _ _ _ => ?_
  refine seals_sees_bind ?_
  split
  · exact seals_bind fun _ _ _ => seals_map closes
  · exact seals_map closes

theorem seals_arguments {P : Unit → Prop} : Seals eof eof' Real arguments tokens P :=
  seals_node (seals_bracketed (by decide) (by simp) atEof)

end Seals

theorem pattern_isSome {calls : Giving} {s : Step (Option Kind)}
    (h : pattern.Gives eof calls tokens s) (built : s.parts ≠ .nil) : s.value.isSome = true := by
  rw [pattern, gives_peekKind_bind] at h
  split at h
  case h_8 =>
    split at h
    · obtain ⟨r, -, rfl⟩ := gives_map.mp h
      rfl
    · cases h
      exact absurd rfl built
  all_goals
    obtain ⟨r, -, rfl⟩ := gives_map.mp h
    rfl

end Rule

open Rule

def Maker.Encloses (m : Maker) (own : List Token) (k : Kind) (inner : Forest) : Prop :=
  ∀ eof later, Passes eof m.rule (own ++ later) fun _ parts rest =>
    parts = .node k inner .nil ∧ rest = later

def Enclosed (tokens : List Token) (k : Kind) (inner : Forest) : Prop :=
  ∀ m : Maker, m.kinds.contains k = true → m.Encloses (tokens.take inner.leaves.length) k inner

-- Kinds tell makers apart.
theorem Maker.eq_of_contains {m m' : Maker} {k : Kind} (h : m.kinds.contains k = true)
    (h' : m'.kinds.contains k = true) : m = m' := by
  cases m <;> cases m' <;> first | rfl | (exfalso; revert h h'; cases k <;> decide)

namespace Maker

variable {m : Maker} {eof : Token} {tokens own later : List Token} {k : Kind} {inner : Forest}
  {s : Step Unit}

theorem seals (atEof : eof.kind = .eof) (given : m.rule.Gives eof (Production.Gives eof) tokens s)
    (quiet : s.reports = []) (built : s.parts = .node k inner .nil) (eof' : Token) :
    ∃ front last, tokens = front ++ last :: s.rest ∧ Real last.kind ∧
      ∀ later, m.rule.Gives eof' (Production.Gives eof') (front ++ last :: later) (s.leaving later) := by
  cases m with
  | pattern =>
      obtain ⟨r, inside, rfl⟩ := gives_map.mp given
      have present : r.value.isSome = true := pattern_isSome inside fun none => by
        rw [show r.parts = _ from built] at none
        cases none
      obtain ⟨front, last, split, real, further⟩ := seals_pattern atEof r inside quiet present
      exact ⟨front, last, split, real, fun later => gives_map.mpr ⟨_, further later, rfl⟩⟩
  | letStatement => exact seals_letStatement (P := fun _ => True) atEof s given quiet trivial
  | block => exact seals_node (P := fun _ => True) (seals_block atEof) s given quiet trivial
  | parenthesized =>
      exact seals_discard (P := fun _ => True) (seals_parenthesized atEof) s given quiet trivial
  | arguments => exact seals_arguments (P := fun _ => True) atEof s given quiet trivial

theorem encloses (atEof : eof.kind = .eof) (given : m.rule.Gives eof (Production.Gives eof) tokens s)
    (quiet : s.reports = []) (built : s.parts = .node k inner .nil) :
    m.Encloses (tokens.take inner.leaves.length) k inner := by
  intro eof' later
  obtain ⟨front, last, split, -, further⟩ := seals atEof given quiet built eof'
  have kept : tokens.map Token.leaf = inner.leaves ++ s.rest.map Token.leaf := by
    simpa [Step.Keeps, built, Forest.leaves] using given.keeps
  have length : inner.leaves.length = (front ++ [last]).length := by
    have all := congrArg List.length kept
    simp only [split, List.length_map, List.length_append, List.length_cons, List.length_nil] at all ⊢
    omega
  rw [split, List.append_cons, length, List.take_left, List.append_assoc]
  exact ⟨_, further later, quiet, built, rfl⟩

end Maker

theorem judged_enclosed {eof : Token} (atEof : eof.kind = .eof) : Judged [] eof Enclosed where
  other free tokens inner m isKind := by
    simp only [Kind.isUnjudged, Maker.all, Bool.and_eq_true, Bool.not_eq_true', List.any_cons,
      List.any_nil, Bool.or_false, Bool.or_eq_false_iff] at free
    cases m <;> simp_all
  made m tokens s k inner isKind given quiet built m' isKind' := by
    obtain rfl := Maker.eq_of_contains isKind isKind'
    exact m.encloses atEof given (List.subset_nil.mp quiet) built
  skipped tokens _ m isKind := by
    cases m <;> exact absurd isKind (by decide)
  unfinished tokens inner _ _ m isKind := by
    cases m <;> exact absurd isKind (by decide)

theorem TokenStream.run_enclosed {s : TokenStream} (atEof : s.eof.kind = .eof)
    (plain : ∀ t ∈ s.tokens, t.kind.isNode = false) (quiet : (s.run .file).reports = []) :
    (s.run .file).Each Enclosed s.tokens :=
  run_certified (judged_enclosed atEof) atEof plain (List.subset_nil.mpr quiet)

namespace Maker.Encloses

variable {eof : Token} {own later : List Token} {k : Kind} {inner : Forest}

theorem passes_pattern (h : pattern.Encloses own k inner) :
    Passes eof Rule.pattern (own ++ later) fun kind parts rest =>
      kind.isSome = true ∧ parts = .node k inner .nil ∧ rest = later := by
  obtain ⟨s, given, quiet, built, rest⟩ := passes_discard.mp (h eof later)
  refine ⟨s, given, quiet, pattern_isSome given fun none => ?_, built, rest⟩
  rw [built] at none
  cases none

theorem passes_parenthesized (h : parenthesized.Encloses own k inner) :
    Passes eof Rule.parenthesized (own ++ later) fun kind parts rest =>
      kind = some k ∧ parts = .node k inner .nil ∧ rest = later := by
  obtain ⟨s, given, quiet, built, rest⟩ := passes_discard.mp (h eof later)
  obtain ⟨k', value, -⟩ := parenthesized_value given
  refine ⟨s, given, quiet, ?_, built, rest⟩
  obtain ⟨r, -, rfl⟩ := gives_nodeIf.mp given
  have value : r.value = some k' := value
  simp only [value, Forest.within_some, Forest.node.injEq] at built ⊢
  rw [built.1]

end Maker.Encloses

end LosslessTree
