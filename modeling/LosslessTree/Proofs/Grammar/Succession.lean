import LosslessTree.Proofs.Grammar.Sealing

set_option autoImplicit false

namespace LosslessTree.Rule

variable {α : Type} {eof : Token} {calls : Giving} {tokens : List Token} {s : Step α}

theorem gives_seesAny_bind {kinds : KindSet} {next : Bool → Rule α} :
    (seesAny kinds >>= next).Gives eof calls tokens s ↔
      (next (kinds.contains (seen eof tokens))).Gives eof calls tokens s := by
  constructor
  · rintro ⟨_, ⟨_, ⟨_, rfl, _, rfl, rfl⟩, _, rfl, rfl⟩, r, given, rfl⟩
    exact given
  · intro given
    exact ⟨_, ⟨_, ⟨_, rfl, _, rfl, rfl⟩, _, rfl, rfl⟩, s, given, rfl⟩

theorem gives_sees_bind {k : Kind} {next : Bool → Rule α} :
    (sees k >>= next).Gives eof calls tokens s ↔
      (next (seen eof tokens == k)).Gives eof calls tokens s := by
  constructor
  · rintro ⟨_, ⟨_, ⟨_, rfl, _, rfl, rfl⟩, _, rfl, rfl⟩, r, given, rfl⟩
    exact given
  · intro given
    exact ⟨_, ⟨_, ⟨_, rfl, _, rfl, rfl⟩, _, rfl, rfl⟩, s, given, rfl⟩

theorem eat_value {k : Kind} {s : Step Bool} (h : (eat k).Gives eof calls tokens s) :
    s.value = (seen eof tokens == k) := by
  rw [eat, gives_sees_bind] at h
  split at h
  · next here =>
      obtain ⟨_, _, _, rfl, rfl⟩ := h
      exact here.symm
  · next away =>
      cases h
      exact (Bool.eq_false_iff.mpr away).symm

def OpensInner (tokens : List Token) : Prop := [.hash, .bang] <+: tokens.map Token.kind

instance (tokens : List Token) : Decidable (OpensInner tokens) :=
  inferInstanceAs (Decidable ([.hash, .bang] <+: tokens.map Token.kind))

theorem attr_value {s : Step Bool} (h : attr.Gives eof calls tokens s) :
    s.value = (seen eof tokens.tail == .bang) := by
  obtain ⟨_, ⟨_, ⟨_, rfl, _, taken, rfl⟩, _, ⟨r, eaten, _, ⟨_, _, _, rfl, rfl⟩, rfl⟩, rfl⟩, rfl⟩ := h
  rw [Step.wrapped_value]
  cases tokens <;> cases taken <;> exact eat_value eaten

theorem attrRound_of_attr {r : Step Bool} (here : seen eof tokens = .hash)
    (h : attr.Gives eof calls tokens r) :
    attrRound.Gives eof calls tokens ⟨true, r.parts, r.reports, r.rest⟩ := by
  rw [attrRound, gives_sees_bind, if_pos (beq_iff_eq.mpr here)]
  exact ⟨_, ⟨r, h, _, rfl, rfl⟩, _, rfl, by simp [Step.andThen]⟩

theorem itemRest_isSome {s : Step (Option Kind)} (h : (itemRest true).Gives eof calls tokens s) :
    s.value.isSome = true := by
  rw [itemRest, gives_seesAny_bind] at h
  obtain ⟨_, _, _, ⟨⟨kind, _, _, _⟩, _, _, ended, rfl⟩, rfl⟩ := h
  cases kind with
  | none =>
      obtain ⟨_, _, _, rfl, rfl⟩ := ended
      rfl
  | some kind =>
      cases ended
      rfl

theorem itemRest_of_attr {r : Step Bool} {s : Step (Option Kind)} (here : seen eof tokens = .hash)
    (h : attr.Gives eof calls tokens r) (further : (itemRest true).Gives eof calls r.rest s) :
    (itemRest false).Gives eof calls tokens
      ⟨s.value, r.parts ++ s.parts, r.reports ++ s.reports, s.rest⟩ := by
  rw [itemRest, gives_seesAny_bind] at further ⊢
  have begun : (KindSet.ofList [.hash, .pubKw]).contains (seen eof tokens) = true := by
    rw [here]
    decide
  rw [begun]
  obtain ⟨_, ⟨l, attrs, v, visible, rfl⟩, c, core, rfl⟩ := further
  refine ⟨_, ⟨_, .again (attrRound_of_attr here h) rfl attrs, v, visible, rfl⟩, c, core, ?_⟩
  simp [Step.andThen, Forest.append_assoc]

theorem item_of_itemRest {s : Step (Option Kind)} {k : Kind}
    (h : (itemRest false).Gives eof calls tokens s) (named : s.value = some k) :
    item.Gives eof calls tokens ⟨some k, .node k s.parts .nil, s.reports, s.rest⟩ := by
  refine ⟨⟨some k, .node k s.parts .nil, s.reports, s.rest⟩, ⟨_, ⟨s, h, _, rfl, rfl⟩, ?_⟩, ?_⟩
  · simp [Step.wrapped, Step.andThen, named]
  · exact ⟨_, rfl, by simp [Step.andThen]⟩

theorem headRound_cases {s : Step Bool} (h : headRound.Gives eof calls tokens s) :
    seen eof tokens ≠ .hash ∧ s = ⟨false, .nil, [], tokens⟩ ∨
      seen eof tokens = .hash ∧ ∃ r, attr.Gives eof calls tokens r ∧
        (r.value = true ∧ s = ⟨true, r.parts, r.reports, r.rest⟩ ∨
          r.value = false ∧ ∃ r' k, (itemRest true).Gives eof calls r.rest r' ∧ r'.value = some k ∧
            s = ⟨false, .node k (r.parts ++ r'.parts) .nil, r.reports ++ r'.reports, r'.rest⟩) := by
  rw [headRound, gives_sees_bind] at h
  split at h
  · next here =>
      obtain ⟨_, ⟨_, ⟨r, first, _, rfl, rfl⟩, grows⟩, _, rfl, rfl⟩ := h
      refine .inr ⟨beq_iff_eq.mp here, r, first, ?_⟩
      cases grows with
      | done last =>
          refine .inl ⟨?_, by simp [Step.andThen]⟩
          simpa [Step.andThen] using last
      | grown found round rest =>
          obtain ⟨r', further, _, rfl, rfl⟩ := round
          obtain ⟨k, named⟩ := Option.isSome_iff_exists.mp (itemRest_isSome further)
          have outer : r.value = false := by simpa [Step.andThen] using found
          cases rest with
          | done =>
              refine .inr ⟨outer, r', k, by simpa [Step.andThen] using further, named, ?_⟩
              simp [Step.around, Step.andThen, named]
          | grown again => simp [Step.around, Step.andThen] at again
  · next away =>
      cases h
      exact .inl ⟨fun here => away (beq_iff_eq.mpr here), rfl⟩

section Heads

variable (atEof : eof.kind = .eof)
include atEof

theorem opensInner_iff :
    OpensInner tokens ↔ seen eof tokens = .hash ∧ seen eof tokens.tail = .bang := by
  have ended : seen eof [] = .eof := atEof
  rcases tokens with _ | ⟨t, _ | ⟨u, tokens⟩⟩
  · simp [OpensInner, ended]
  · simp [OpensInner, ended]
  · simp only [OpensInner, List.map_cons, List.cons_prefix_cons, List.nil_prefix, and_true,
      List.tail_cons, seen_cons]
    exact and_congr eq_comm eq_comm

omit atEof in
theorem itemRound_of_item {s : Step (Option Kind)} {k : Kind} (more : seen eof tokens ≠ k)
    (more' : seen eof tokens ≠ .eof)
    (h : item.Gives eof (Production.Gives eof) tokens s) :
    (itemRound k).Gives eof (Production.Gives eof) tokens ⟨true, s.parts, s.reports, s.rest⟩ := by
  have going : (KindSet.ofList [k, .eof]).contains (seen eof tokens) = false := by
    simp [KindSet.contains_ofList, more, more']
  rw [itemRound, atEnd, gives_seesAny_bind, going]
  exact ⟨_, ⟨s, Production.gives_iff.mpr h, _, rfl, rfl⟩, _, rfl, by simp [Step.andThen]⟩

theorem file_cases {s : Step Unit} (h : file.Gives eof (Production.Gives eof) tokens s) :
    OpensInner tokens ∧ (∃ r s', attr.Gives eof (Production.Gives eof) tokens r ∧
        file.Gives eof (Production.Gives eof) r.rest s' ∧
          s = ⟨(), r.parts ++ s'.parts, r.reports ++ s'.reports, s'.rest⟩) ∨
      ¬OpensInner tokens ∧ (loop (itemRound .eof)).Gives eof (Production.Gives eof) tokens s := by
  rw [opensInner_iff atEof]
  obtain ⟨_, heads, i, items, rfl⟩ := h
  cases heads with
  | last round ended =>
      right
      rcases headRound_cases round with ⟨away, rfl⟩ | ⟨here, r, first, inner | outer⟩
      · exact ⟨fun h => away h.1, items⟩
      · obtain ⟨-, rfl⟩ := inner
        cases ended
      · obtain ⟨value, r', k, further, named, rfl⟩ := outer
        have notEof : seen eof tokens ≠ .eof := by simp [here]
        have whole := itemRound_of_item notEof notEof
          (item_of_itemRest (itemRest_of_attr here first further) named)
        refine ⟨fun h => ?_, .again whole rfl items⟩
        rw [attr_value first, h.2] at value
        cases value
  | again round more rest =>
      left
      rcases headRound_cases round with ⟨away, rfl⟩ | ⟨here, r, first, inner | outer⟩
      · cases more
      · obtain ⟨value, rfl⟩ := inner
        refine ⟨⟨here, ?_⟩, r, _, first, ⟨_, rest, i, items, rfl⟩, ?_⟩
        · rw [attr_value first] at value
          exact beq_iff_eq.mp value
        · simp [Step.andThen, Forest.append_assoc]
      · obtain ⟨-, _, _, -, -, rfl⟩ := outer
        cases more

end Heads

theorem itemRound_ended {k : Kind} {s : Step Bool} (h : (itemRound k).Gives eof calls tokens s)
    (ended : s.value = false) : s = ⟨false, .nil, [], tokens⟩ := by
  rw [itemRound, atEnd, gives_seesAny_bind] at h
  split at h
  · exact h
  · obtain ⟨_, _, _, rfl, rfl⟩ := h
    cases ended

variable {s : Step Unit}

section Ends

variable (atEof : eof.kind = .eof)
include atEof

theorem items_end (h : (loop (itemRound .eof)).Gives eof (Production.Gives eof) tokens s)
    (quiet : s.reports = []) (none : s.rest = []) : tokens = [] ∨ Sealed Kind.Closes tokens [] := by
  have rounds : Step.Repeats ((itemRound .eof).Gives eof (Production.Gives eof)) tokens s := h
  clear h
  induction rounds with
  | last round ended =>
      rw [itemRound_ended round ended] at none
      exact .inl none
  | again round more _ ih =>
      obtain ⟨silent, silent'⟩ := List.append_eq_nil_iff.mp quiet
      have closed := ((seals_itemRound eof atEof .eof).behind [] round silent more).1
      exact .inr (closed.through (ih silent' none))

theorem file_end (h : file.Gives eof (Production.Gives eof) tokens s)
    (quiet : s.reports = []) (none : s.rest = []) : tokens = [] ∨ Sealed Kind.Closes tokens [] := by
  induction size : tokens.length using Nat.strongRecOn generalizing tokens s with
  | ind n ih =>
      rcases file_cases atEof h with ⟨-, r, t, first, further, rfl⟩ | ⟨-, items⟩
      · obtain ⟨silent, silent'⟩ := List.append_eq_nil_iff.mp quiet
        have closed := ((seals_attr eof (P := fun _ => True) atEof).behind [] first silent trivial).1
        exact .inr (closed.through (ih _ (size ▸ closed.rest_lt) further silent' none rfl))
      · exact items_end atEof items quiet none

end Ends

variable {eof' : Token} {later : List Token} {s' whole : Step Unit}

theorem items_succeed (atEof : eof.kind = .eof)
    (h : (loop (itemRound .eof)).Gives eof (Production.Gives eof) tokens s)
    (quiet : s.reports = []) (none : s.rest = [])
    (next : (loop (itemRound .eof)).Gives eof' (Production.Gives eof') later s') :
    (loop (itemRound .eof)).Gives eof' (Production.Gives eof') (tokens ++ later)
      ⟨(), s.parts ++ s'.parts, s'.reports, s'.rest⟩ := by
  have rounds : Step.Repeats ((itemRound .eof).Gives eof (Production.Gives eof)) tokens s := h
  clear h
  induction rounds with
  | last round ended =>
      rw [itemRound_ended round ended] at none ⊢
      subst none
      exact next
  | again round more _ ih =>
      obtain ⟨silent, silent'⟩ := List.append_eq_nil_iff.mp quiet
      obtain ⟨closed, round'⟩ := (seals_itemRound eof' atEof .eof).behind later round silent more
      have all := Step.Repeats.again round' more (ih silent' none)
      simp only [Step.andThen, Step.leaving, silent, List.nil_append, ← Forest.append_assoc] at all
      exact all

theorem not_opensInner_append (ends : tokens = [] ∨ Sealed Kind.Closes tokens []) (plain : ¬OpensInner tokens)
    (outer : ¬OpensInner later) : ¬OpensInner (tokens ++ later) := by
  rcases ends with rfl | ⟨front, last, rfl, closing⟩
  · exact outer
  · intro inner
    rcases front with _ | ⟨a, _ | ⟨b, front⟩⟩
    · obtain ⟨hash, -⟩ := List.cons_prefix_cons.mp inner
      rw [← hash] at closing
      exact absurd closing (by decide)
    · exact plain (by simpa [OpensInner, List.cons_prefix_cons] using inner)
    · exact plain (by simpa [OpensInner, List.cons_prefix_cons] using inner)

theorem file_succeeds (atEof : eof.kind = .eof) (atEof' : eof'.kind = .eof)
    (h : file.Gives eof (Production.Gives eof) tokens s)
    (quiet : s.reports = []) (none : s.rest = [])
    (next : file.Gives eof' (Production.Gives eof') later s') (outer : ¬OpensInner later)
    (both : file.Gives eof' (Production.Gives eof') (tokens ++ later) whole) :
    whole = ⟨(), s.parts ++ s'.parts, s'.reports, s'.rest⟩ := by
  induction size : tokens.length using Nat.strongRecOn generalizing tokens s whole with
  | ind n ih =>
      rcases file_cases atEof h with ⟨inner, r, t, first, further, rfl⟩ | ⟨plain, items⟩
      · obtain ⟨silent, silent'⟩ := List.append_eq_nil_iff.mp quiet
        obtain ⟨closed, first'⟩ :=
          (seals_attr eof' (P := fun _ => True) atEof).behind later first silent trivial
        rcases file_cases atEof' both with ⟨-, r', t', first'', further', rfl⟩ | ⟨plain, -⟩
        · obtain rfl := first''.unique first'
          obtain rfl := ih _ (size ▸ closed.rest_lt) further silent' none further' rfl
          simp [Step.leaving, Forest.append_assoc, silent]
        · rw [OpensInner, List.map_append] at plain
          exact absurd (inner.trans (List.prefix_append _ _)) plain
      · have rounds := (file_cases atEof' next).resolve_left fun opens => outer opens.1
        have all := items_succeed atEof items quiet none rounds.2
        have behind := (file_cases atEof' both).resolve_left fun opens =>
          not_opensInner_append (file_end atEof h quiet none) plain outer opens.1
        exact behind.2.unique all

end LosslessTree.Rule

namespace LosslessTree.TokenStream

open Rule

theorem run_items {s : TokenStream} (atEof : s.eof.kind = .eof)
    (plain : ∀ t ∈ s.tokens, t.kind.isNode = false) (outer : ¬OpensInner s.tokens) :
    s.run .file = s.run (.loop (.itemRound .eof)) := by
  have quiet : (s.run (.loop (.itemRound .eof))).Quiet true := Step.quiet_broken
  have admits : Admits (s.tokens.length + 1) s.tokens := by
    refine ⟨by omega, fun l mem => ?_⟩
    obtain ⟨t, inside, rfl⟩ := List.mem_map.mp mem
    exact plain t inside
  have fits : (s.run (.loop (.itemRound .eof))).Fits true _ _ _ :=
    builds_items (builds_upTo atEof _) (by omega) admits quiet
  obtain ⟨new, completed, ran, -⟩ := fits.marked rfl id ⟨[], none, [], s.tokens⟩ rfl fun _ _ => rfl
  have given := (Rule.mark_agrees (Marking.upTo_agrees id s.eof _) _ _ _ _ ran).1
  have rounds := (file_cases atEof (gives_file atEof plain)).resolve_left fun opens => outer opens.1
  exact rounds.2.unique given

end LosslessTree.TokenStream
