import LosslessTree.Proofs.Grammar.Termination

set_option autoImplicit false

namespace LosslessTree

namespace Step

variable {α β : Type}

theorem repeats_of_shorter {body : List Token → Step Bool} {given : List Token → Step Bool → Prop}
    {P : List Token → Prop} (each : ∀ tokens, P tokens → given tokens (body tokens))
    (kept : ∀ tokens, P tokens → (body tokens).value = true →
      P (body tokens).rest ∧ (body tokens).rest.length < tokens.length) {n : Nat} {tokens : List Token}
    (begun : P tokens) (enough : tokens.length < n) : Repeats given tokens (repeating body n tokens) := by
  -- The induction is on the bound; `P` is kept from round to round.
  induction n generalizing tokens with
  | zero => cases enough
  | succ n ih =>
      rw [repeating]
      cases more : (body tokens).value with
      | false =>
          have ended : (body tokens).andThen (fun again rest =>
              if again = true then repeating body n rest else ⟨(), .nil, [], rest⟩) =
                ⟨(), (body tokens).parts, (body tokens).reports, (body tokens).rest⟩ := by
            simp [andThen, more]
          rw [ended]
          exact .last (each tokens begun) more
      | true =>
          obtain ⟨later, less⟩ := kept tokens begun more
          have again : (body tokens).andThen (fun again rest =>
              if again = true then repeating body n rest else ⟨(), .nil, [], rest⟩) =
                (body tokens).andThen fun _ _ => repeating body n (body tokens).rest := by
            simp [andThen, more]
          rw [again]
          exact .again (each tokens begun) more (ih later (by omega))

theorem grows_of_shorter {more : α → List Token → Option β} {step : β → List Token → Step (Kind × α)}
    {given : β → List Token → Step (Kind × α) → Prop} {P : Step α → Prop}
    (each : ∀ built b, P built → more built.value built.rest = some b →
      given b built.rest (step b built.rest) ∧ P (built.around (step b)) ∧
        ((step b built.rest).rest.length < built.rest.length ∨
          more (step b built.rest).value.2 (step b built.rest).rest = none)) {n : Nat} {built : Step α}
    (begun : P built) (enough : built.rest.length < n) : Grows more given built (growing more step n built) := by
  induction n generalizing built with
  | zero => cases enough
  | succ n ih =>
      rw [growing]
      split
      · next last => exact .done last
      · next b found =>
          obtain ⟨round, later, less | last⟩ := each built b begun found
          · exact .grown found round (ih later (Nat.lt_of_lt_of_le less (Nat.le_of_lt_succ enough)))
          · -- The bound may be reached here, where there is no more.
            have ended : more (built.around (step b)).value (built.around (step b)).rest = none := last
            have same : growing more step n (built.around (step b)) = built.around (step b) := by
              cases n with
              | zero => rfl
              | succ n => rw [growing, ended]
            rw [same]
            exact .grown found round (.done ended)

end Step

theorem Rule.Descends.run_gives {α : Type} {eof : Token} {productions : Productions} {rule : Rule α}
    {bound statements : Nat} {tokens : List Token}
    (called : ∀ (p : Production) (tokens : List Token), tokens.length < bound →
      p.Gives eof tokens (productions p tokens)) (h : rule.Descends eof bound statements tokens) :
    rule.Gives eof (Production.Gives eof) tokens (rule.run eof productions tokens) := by
  induction rule generalizing tokens with
  | pure | peek | ensure | report => rfl
  | take => cases tokens <;> rfl
  | bind first next ih ih' => exact ⟨_, ih h.1, _, ih' _ (h.2 _ (ih h.1)), rfl⟩
  | wrap body ih => exact ⟨_, ih h, rfl⟩
  | grow first more step ih ih' =>
      -- From whatever was built on the way the further steps get on.
      have given := ih h.1
      refine ⟨_, given, Step.grows_of_shorter (P := fun built => ∀ built', Step.Built
          (fun a rest => more a (ahead eof rest)) (fun b => (step b).Gives eof (Production.Gives eof))
            built built' → ∀ b, more built'.value (ahead eof built'.rest) = some b →
          (step b).Descends eof bound statements built'.rest ∧
            ∀ r, (step b).Gives eof (Production.Gives eof) built'.rest r →
              r.rest.length < built'.rest.length ∨ more r.value.2 (ahead eof r.rest) = none)
        (fun built b behind found => ?_) (h.2 _ given) (Nat.lt_succ_of_le given.keeps.rest_le)⟩
      obtain ⟨round, shorter⟩ := behind built .here b found
      have stepped := ih' b round
      exact ⟨stepped, fun built' later => behind built' (.grown found stepped later), shorter _ stepped⟩
  | loop body ih =>
      refine Step.repeats_of_shorter (P := fun tokens => (loop body).Descends eof bound statements tokens)
        (fun tokens behind => ih (behind tokens .here).2.1) (fun tokens behind more => ?_) h
        (Nat.lt_succ_self _)
      obtain ⟨-, round, shorter⟩ := behind tokens .here
      have given := ih round
      exact ⟨fun rest later => behind rest (.round given more later), shorter _ given more⟩
  | call p => exact called p tokens h

theorem Productions.upTo_gives {eof : Token} (atEof : eof.kind = .eof) {depth : Nat} (p : Production)
    {tokens : List Token} (enough : tokens.length < depth) :
    p.Gives eof tokens (upTo Production.rule eof depth p tokens) := by
  induction depth generalizing p tokens with
  | zero => cases enough
  | succ depth ih =>
      refine .of_rule ((p.descends atEof tokens).run_gives fun p' tokens' fewer => ih p' ?_)
      exact Nat.lt_of_lt_of_le fewer (Nat.le_of_lt_succ enough)

namespace Rule

variable {α β : Type} {eof : Token} {tokens : List Token} {first : KindSet}

/-- If the rule is there it begins with one of the kinds; if not it took nothing, or reported it. -/
def Tells (eof : Token) (first : KindSet) (rule : Rule α) (tokens : List Token) (there : α → Bool) :
    Prop :=
  ∀ s, rule.Gives eof (Production.Gives eof) tokens s →
    (there s.value = true → first.contains (seen eof tokens) = true) ∧
      (there s.value = false → s.rest = tokens ∨ s.reports ≠ [])

section Telling

variable {rule : Rule α} {there : α → Bool}

theorem tells_there (begins : first.contains (seen eof tokens) = true)
    (always : ∀ s, rule.Gives eof (Production.Gives eof) tokens s → there s.value = true) :
    Tells eof first rule tokens there := by
  intro s given
  refine ⟨fun _ => begins, fun none => ?_⟩
  rw [always s given] at none
  cases none

theorem tells_absent (h : ∀ s, rule.Gives eof (Production.Gives eof) tokens s →
      there s.value = false ∧ (s.rest = tokens ∨ s.reports ≠ [])) : Tells eof first rule tokens there := by
  intro s given
  obtain ⟨none, absent⟩ := h s given
  refine ⟨fun found => ?_, fun _ => absent⟩
  rw [none] at found
  cases found

theorem tells_pure {a : α} (none : there a = false) : Tells eof first (Pure.pure a) tokens there := by
  refine tells_absent ?_
  rintro _ rfl
  exact ⟨none, .inl rfl⟩

theorem tells_loud {missing : Rule Unit} {a : α} (none : there a = false)
    (loud : ∀ Q, ¬Passes eof missing tokens Q) :
    Tells eof first (missing >>= fun _ => Pure.pure a) tokens there := by
  refine tells_absent ?_
  rintro _ ⟨s, given, _, rfl, rfl⟩
  refine ⟨none, .inr fun quiet => ?_⟩
  exact loud (fun _ _ _ => True) ⟨s, given, (List.append_eq_nil_iff.mp quiet).1, trivial⟩

theorem tells_map {f : α → β} {there' : β → Bool} (h : Tells eof first rule tokens fun a => there' (f a)) :
    Tells eof first (rule >>= fun a => Pure.pure (f a)) tokens there' := by
  rintro _ ⟨s, given, _, rfl, rfl⟩
  exact (h s given).imp id fun absent none => by simpa [Step.andThen] using absent none

theorem tells_peekKind {next : Kind → Rule α} (h : Tells eof first (next (seen eof tokens)) tokens there) :
    Tells eof first (peekKind >>= next) tokens there :=
  fun s given => h s (gives_peekKind_bind.mp given)

theorem tells_call {p : Production} {there : Option Kind → Bool} (h : Tells eof first p.rule tokens there) :
    Tells eof first (call p) tokens there :=
  fun s given => h s (Production.gives_iff.mp given)

theorem tells_made {k : Kind} {body : Rule Unit} (begins : first.contains (seen eof tokens) = true) :
    Tells eof first (made k body) tokens Option.isSome := by
  refine tells_there begins ?_
  rintro _ ⟨_, _, _, rfl, rfl⟩
  rfl

theorem tells_grow {more : α → Lookahead → Option β} {step : β → Rule (Kind × α)}
    (h : Tells eof first rule tokens there) (asks : ∀ a ahead b, more a ahead = some b → there a = true)
    (stays : ∀ b tokens r, (step b).Gives eof (Production.Gives eof) tokens r → there r.value.2 = true) :
    Tells eof first (grow rule more step) tokens there := by
  rintro s' ⟨s, given, grows⟩
  have grown : s' = s ∨ there s.value = true ∧ there s'.value = true := by
    clear given
    induction grows with
    | done => exact .inl rfl
    | grown found round _ ih =>
        have around := stays _ _ _ round
        refine .inr ⟨asks _ _ _ found, ?_⟩
        rcases ih with rfl | ⟨-, last⟩
        · exact around
        · exact last
  rcases grown with rfl | ⟨begun, last⟩
  · exact h _ given
  · refine ⟨fun _ => (h s given).1 begun, fun none => ?_⟩
    rw [last] at none
    cases none

end Telling

theorem tells_listed {k : Kind} {body : Rule Unit} :
    Tells eof first (seesAny first >>= fun here =>
      if here = true then node k body >>= fun _ => Pure.pure true else Pure.pure false) tokens id := by
  intro s given
  rw [gives_seesAny_bind] at given
  split at given
  · next here =>
      refine tells_there here ?_ s given
      rintro _ ⟨_, _, _, rfl, rfl⟩
      rfl
  · exact tells_pure rfl s given

theorem tells_pattern : Tells eof patternFirst pattern tokens Option.isSome := by
  refine tells_peekKind ?_
  split
  case h_1 here | h_2 here | h_3 here | h_4 here | h_5 here | h_6 here | h_7 here =>
    exact tells_made (here ▸ by decide)
  · split
    · next isLiteral =>
        refine tells_made ?_
        simp_all [patternFirst, literalFirst, KindSet.contains_ofList]
    · exact tells_pure rfl

theorem tells_type : Tells eof typeFirst type tokens Option.isSome := by
  refine tells_peekKind ?_
  split
  case h_1 here | h_2 here | h_3 here => exact tells_made (here ▸ by decide)
  · exact tells_pure rfl

theorem parenthesized_isSome {s : Step (Option Kind)}
    (h : parenthesized.Gives eof (Production.Gives eof) tokens s) : s.value.isSome = true := by
  obtain ⟨_, ⟨_, ⟨_, _, _, ⟨⟨eaten, _, _, _⟩, _, _, behind, rfl⟩, rfl⟩, _, rfl, rfl⟩, rfl⟩ := h
  rw [Step.wrapped_value]
  cases eaten with
  | true =>
      cases behind
      rfl
  | false =>
      obtain ⟨_, _, _, ended, rfl⟩ := behind
      rw [parenthesizedRest, gives_sees_bind] at ended
      split at ended
      · obtain ⟨_, _, _, ⟨_, _, _, rfl, rfl⟩, rfl⟩ := ended
        rfl
      · obtain ⟨_, _, _, rfl, rfl⟩ := ended
        rfl

theorem tells_primary : Tells eof expressionFirst primary tokens Option.isSome := by
  refine tells_peekKind ?_
  split
  case h_1 here | h_3 here => exact tells_made (here ▸ by decide)
  · next here => exact tells_there (here ▸ by decide) fun _ => parenthesized_isSome
  · split
    · next isLiteral =>
        exact tells_made (by simp [expressionFirst, isLiteral])
    · exact tells_loud rfl fun Q => by simp [skipUnless, skipToken]

theorem tells_unary : Tells eof expressionFirst unary tokens Option.isSome := by
  intro s given
  rw [unary, gives_sees_bind] at given
  split at given
  · next here => exact tells_made (beq_iff_eq.mp here ▸ by decide) s given
  · refine tells_grow tells_primary (fun _ _ _ found => (called_of_more found).1) ?_ s given
    rintro _ _ _ ⟨_, _, _, rfl, rfl⟩
    rfl

theorem tells_expression {level : Nat} :
    Tells eof expressionFirst (expression level) tokens Option.isSome := by
  refine tells_grow tells_unary (fun _ _ _ found => (operator_of_more found).1) ?_
  rintro _ _ _ ⟨_, _, _, ⟨_, _, _, rfl, rfl⟩, rfl⟩
  rfl

-- What a list relies on of its elements, at the tokens that are left in it.
structure Elements (eof : Token) (productions : Productions) (outside : List Kind) (element : Rule Bool)
    (all : List Token) : Prop where
  left : ∀ tokens, tokens <:+ all → (element.run eof productions tokens).rest <:+ tokens
  takes : ∀ tokens, tokens <:+ all → (element.run eof productions tokens).value = true →
    (element.run eof productions tokens).rest.length < tokens.length
  fails : ∀ tokens, tokens <:+ all → (element.run eof productions tokens).value = false →
    (element.run eof productions tokens).rest = tokens ∨ (element.run eof productions tokens).reports ≠ []
  begins : ∀ tokens, tokens <:+ all → (element.run eof productions tokens).value = true →
    seen eof tokens ∉ outside

section Elements

variable (atEof : eof.kind = .eof) {depth : Nat} {all : List Token} (enough : all.length < depth)
include atEof enough

theorem elements_of {outside : List Kind} {element : Rule Bool} (free : Free eof depth depth depth element)
    (moves : ∀ tokens, Moves eof element tokens (· = true))
    (tells : ∀ tokens, Tells eof first element tokens id)
    (apart : ∀ k ∈ outside, first.contains k = false) :
    Elements eof (.upTo Production.rule eof depth) outside element all := by
  have given (tokens : List Token) (inside : tokens <:+ all) :
      element.Gives eof (Production.Gives eof) tokens
        (element.run eof (.upTo Production.rule eof depth) tokens) :=
    (free tokens (Nat.lt_of_le_of_lt inside.length_le enough)).run_gives
      fun p _ fewer => Productions.upTo_gives atEof p fewer
  constructor
  case left =>
    intro tokens inside
    have framed : Frames (element.Gives eof (Production.Gives eof))
        (element.Gives eof (Production.Gives eof)) := Gives.framed Production.Gives.framed element
    exact (framed tokens _ (given tokens inside)).1
  case takes => exact fun tokens inside => moves tokens _ (given tokens inside)
  case fails => exact fun tokens inside => (tells tokens _ (given tokens inside)).2
  case begins =>
    intro tokens inside found mem
    have begins := (tells tokens _ (given tokens inside)).1 found
    rw [apart _ mem] at begins
    cases begins

theorem elements_of_lists :
    let productions := Productions.upTo Production.rule eof depth
    Elements eof productions [.comma, .rightParen, .eof] parameter all ∧
      Elements eof productions [.comma, .rightBrace, .eof] field all ∧
      Elements eof productions [.comma, .rightParen, .eof] innerArgument all ∧
      Elements eof productions [.comma, .rightParen, .eof] innerPattern all ∧
      Elements eof productions [.comma, .rightParen, .eof] innerType all := by
  have within : depth ≤ depth := Nat.le_refl depth
  refine ⟨?_, ?_, ?_, ?_, ?_⟩
  · exact elements_of atEof enough (free_parameter atEof within within) (fun _ => moves_parameter atEof)
      (fun _ => tells_listed) (by decide)
  · exact elements_of atEof enough (free_field atEof within within) (fun _ => moves_field atEof)
      (fun _ => tells_listed) (by decide)
  · exact elements_of atEof enough (free_innerArgument within)
      (fun _ => moves_isSome (moves_call ((moves_expression atEof).imp fun _ => .inl)))
      (fun _ => tells_map (tells_call tells_expression)) (by decide)
  · exact elements_of atEof enough (free_innerPattern within)
      (fun _ => moves_isSome (moves_call ((moves_pattern atEof).imp fun _ => .inl)))
      (fun _ => tells_map (tells_call tells_pattern)) (by decide)
  · exact elements_of atEof enough (free_innerType within)
      (fun _ => moves_isSome (moves_call (moves_type atEof)))
      (fun _ => tells_map (tells_call tells_type)) (by decide)

end Elements

end Rule

end LosslessTree
