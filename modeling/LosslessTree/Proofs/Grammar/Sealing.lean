import LosslessTree.Proofs.Grammar.Passing

/-!
# What stands behind does not matter

A step that leaves a token never looks past it, so it stays the same with more tokens behind. A step
without reports that ends with a closing bracket or a semicolon stays the same even if it leaves none.
-/

set_option autoImplicit false

namespace LosslessTree

def Step.leaving {α : Type} (s : Step α) (rest : List Token) : Step α := { s with rest := rest }

def Kind.Closes (k : Kind) : Prop := k ∈ [semicolon, rightBrace, rightBracket]

instance (k : Kind) : Decidable k.Closes :=
  inferInstanceAs (Decidable (k ∈ [.semicolon, .rightBrace, .rightBracket]))

-- The tokens up to the rest end with one of a kind as the condition says.
def Sealed (V : Kind → Prop) (tokens rest : List Token) : Prop :=
  ∃ front last, tokens = front ++ last :: rest ∧ V last.kind

section

variable {V : Kind → Prop} {tokens middle rest : List Token}

theorem Sealed.of_suffix (h : Sealed V middle rest) (suffix : middle <:+ tokens) :
    Sealed V tokens rest := by
  obtain ⟨front, last, rfl, closing⟩ := h
  obtain ⟨before, rfl⟩ := suffix
  exact ⟨before ++ front, last, by simp, closing⟩

theorem Sealed.suffix (h : Sealed V tokens rest) : rest <:+ tokens := by
  obtain ⟨front, last, rfl, -⟩ := h
  exact ⟨front ++ [last], by simp⟩

-- Between two that are sealed there may be nothing.
theorem Sealed.through (h : Sealed V tokens middle) (h' : middle = rest ∨ Sealed V middle rest) :
    Sealed V tokens rest := by
  rcases h' with rfl | h'
  · exact h
  · exact h'.of_suffix h.suffix

theorem Sealed.rest_lt (h : Sealed V tokens rest) : rest.length < tokens.length := by
  obtain ⟨front, last, rfl, -⟩ := h
  simp only [List.length_append, List.length_cons]
  omega

end

-- What is given leaves tokens at the end of those it had. Whatever stands behind a token that it
-- leaves can be replaced.
def Frames {α : Type} (given given' : List Token → Step α → Prop) : Prop :=
  ∀ tokens s, given tokens s → s.rest <:+ tokens ∧
    ∀ {front left behind : List Token}, tokens = front ++ behind → s.rest = left ++ behind →
      left ≠ [] → ∀ later, given' (front ++ later) (s.leaving (left ++ later))

section Framing

variable {α β : Type}

-- What stands in front of the rest stands in front of what is behind.
theorem split_of_suffix {tokens rest left behind : List Token} (suffix : rest <:+ tokens)
    (split : rest = left ++ behind) (some_ : left ≠ []) :
    ∃ middle, tokens = middle ++ behind ∧ middle ≠ [] := by
  obtain ⟨before, rfl⟩ := suffix
  exact ⟨before ++ left, by rw [split, List.append_assoc], List.append_ne_nil_of_right_ne_nil _ some_⟩

theorem Step.Repeats.framed {body body' : List Token → Step Bool → Prop}
    (each : Frames body body') : Frames (Repeats body) (Repeats body') := by
  intro tokens s h
  induction h with
  | last round ended =>
      obtain ⟨suffix, further⟩ := each _ _ round
      exact ⟨suffix, fun split left more later => .last (further split left more later) ended⟩
  | again round more _ ih =>
      obtain ⟨suffix, further⟩ := each _ _ round
      obtain ⟨suffix', further'⟩ := ih
      refine ⟨suffix'.trans suffix, fun split left some_ later => ?_⟩
      obtain ⟨middle, between, some_'⟩ := split_of_suffix suffix' left some_
      exact .again (further split between some_' later) more (further' between left some_ later)

variable {eof eof' : Token}

theorem ahead_append {tokens behind later : List Token} (more : tokens ≠ []) :
    ahead eof' (tokens ++ later) = ahead eof (tokens ++ behind) := by
  cases tokens with
  | nil => exact absurd rfl more
  | cons t tokens => rfl

theorem Step.Grows.framed {more : α → Lookahead → Option β}
    {step step' : β → List Token → Step (Kind × α) → Prop}
    (each : ∀ b, Frames (step b) (step' b)) {s s' : Step α}
    (h : Grows (fun a rest => more a (ahead eof rest)) step s s') :
    s'.rest <:+ s.rest ∧ ∀ {front left behind : List Token}, s.rest = front ++ behind →
      s'.rest = left ++ behind → left ≠ [] → ∀ later,
        Grows (fun a rest => more a (ahead eof' rest)) step' (s.leaving (front ++ later))
          (s'.leaving (left ++ later)) := by
  induction h with
  | @done s last =>
      refine ⟨List.suffix_rfl, fun {front left behind} split split' some_ later => ?_⟩
      obtain rfl := List.append_cancel_right (split.symm.trans split')
      refine .done ?_
      rw [split] at last
      rw [← last]
      exact congrArg (more _) (ahead_append some_)
  | @grown s s' b r found round _ ih =>
      obtain ⟨suffix, further⟩ := each _ _ _ round
      obtain ⟨suffix', further'⟩ := ih
      refine ⟨suffix'.trans suffix, fun {front left behind} split split' some_ later => ?_⟩
      obtain ⟨middle, between, someMiddle⟩ := split_of_suffix suffix' split' some_
      obtain ⟨whole, split'', someFront⟩ := split_of_suffix suffix between someMiddle
      obtain rfl := List.append_cancel_right (split.symm.trans split'')
      refine .grown ?_ (further split between someMiddle later) (further' between split' some_ later)
      rw [split] at found
      rw [← found]
      exact congrArg (more _) (ahead_append someFront)

theorem Rule.Gives.framed {calls calls' : Giving} (called : ∀ p, Frames (calls p) (calls' p))
    (rule : Rule α) : Frames (rule.Gives eof calls) (rule.Gives eof' calls') := by
  induction rule with
  | pure | ensure =>
      rintro tokens _ rfl
      refine ⟨List.suffix_rfl, fun split split' _ later => ?_⟩
      obtain rfl := List.append_cancel_right (split.symm.trans split')
      rfl
  | peek =>
      rintro tokens _ rfl
      refine ⟨List.suffix_rfl, fun {front left behind} split split' some_ later => ?_⟩
      obtain rfl := List.append_cancel_right (split.symm.trans split')
      have same : ahead eof' (front ++ later) = ahead eof tokens := split ▸ ahead_append some_
      simp only [Gives, same, Step.leaving]
  | take =>
      rintro (_ | ⟨t, tokens⟩) _ rfl
      · refine ⟨List.suffix_rfl, fun _ split some_ => ?_⟩
        exact absurd (List.append_eq_nil_iff.mp split.symm).1 some_
      · refine ⟨List.suffix_cons t tokens, fun {front left behind} split split' _ later => ?_⟩
        have same : front ++ behind = (t :: left) ++ behind := by
          rw [← split, List.cons_append, ← split']
        obtain rfl := List.append_cancel_right same
        rfl
  | report problem =>
      rintro tokens _ rfl
      refine ⟨List.suffix_rfl, fun {front left behind} split split' some_ later => ?_⟩
      obtain rfl := List.append_cancel_right (split.symm.trans split')
      obtain ⟨t, front, rfl⟩ := List.exists_cons_of_ne_nil some_
      rw [split]
      rfl
  | bind first next ih ih' =>
      rintro tokens _ ⟨r, begun, r', ended, rfl⟩
      obtain ⟨suffix, further⟩ := ih _ _ begun
      obtain ⟨suffix', further'⟩ := ih' _ _ _ ended
      refine ⟨suffix'.trans suffix, fun split left some_ later => ?_⟩
      obtain ⟨middle, between, some_'⟩ := split_of_suffix suffix' left some_
      exact ⟨_, further split between some_' later, _, further' between left some_ later, rfl⟩
  | wrap body ih =>
      rintro tokens _ ⟨r, inside, rfl⟩
      obtain ⟨suffix, further⟩ := ih _ _ inside
      rw [Step.wrapped_rest]
      refine ⟨suffix, fun split left some_ later => ⟨_, further split left some_ later, ?_⟩⟩
      obtain ⟨⟨_ | _, _⟩, _, _, _⟩ := r <;> rfl
  | grow first more step ih ih' =>
      rintro tokens s ⟨r, begun, grows⟩
      obtain ⟨suffix, further⟩ := ih _ _ begun
      obtain ⟨suffix', further'⟩ := grows.framed ih'
      refine ⟨suffix'.trans suffix, fun split left some_ later => ?_⟩
      obtain ⟨middle, between, some_'⟩ := split_of_suffix suffix' left some_
      exact ⟨_, further split between some_' later, further' between left some_ later⟩
  | loop body ih => exact Step.Repeats.framed ih
  | call production => exact called production

theorem Production.Gives.framed (p : Production) : Frames (p.Gives eof) (p.Gives eof') := by
  intro tokens s h
  refine h (fun p tokens s => s.rest <:+ tokens ∧ ∀ {front left behind : List Token},
    tokens = front ++ behind → s.rest = left ++ behind → left ≠ [] → ∀ later,
      p.Gives eof' (front ++ later) (s.leaving (left ++ later))) ?_
  intro p tokens s inside
  obtain ⟨suffix, further⟩ := Rule.Gives.framed (fun _ _ _ called => called) p.rule _ _ inside
  exact ⟨suffix, fun split left some_ later => .of_rule (further split left some_ later)⟩

end Framing

namespace Rule

variable {α β : Type} {eof eof' : Token} {V : Kind → Prop} {tokens : List Token}
  {P R : α → Prop} {rule : Rule α}

/-- If the rule reports nothing and its result is as the condition says, it takes a token of such a
kind last, and gives the same whatever stands behind that. -/
def Seals (eof eof' : Token) (V : Kind → Prop) (rule : Rule α) (tokens : List Token)
    (P : α → Prop) : Prop :=
  ∀ s, rule.Gives eof (Production.Gives eof) tokens s → s.reports = [] → P s.value →
    ∃ front last, tokens = front ++ last :: s.rest ∧ V last.kind ∧
      ∀ later, rule.Gives eof' (Production.Gives eof') (front ++ last :: later) (s.leaving later)

theorem Seals.behind (h : Seals eof eof' V rule tokens P) (later : List Token) {s : Step α}
    (given : rule.Gives eof (Production.Gives eof) tokens s) (quiet : s.reports = [])
    (holds : P s.value) : Sealed V tokens s.rest ∧
      rule.Gives eof' (Production.Gives eof') (tokens ++ later) (s.leaving (s.rest ++ later)) := by
  obtain ⟨front, last, split, closing, further⟩ := h s given quiet holds
  refine ⟨⟨front, last, split, closing⟩, ?_⟩
  have all := further (s.rest ++ later)
  rwa [← List.cons_append, ← List.append_assoc, ← split] at all

theorem Seals.imp (h : Seals eof eof' V rule tokens P) (weaker : ∀ a, R a → P a) :
    Seals eof eof' V rule tokens R :=
  fun s given quiet holds => h s given quiet (weaker _ holds)

theorem seals_pure {a : α} (out : ¬P a) : Seals eof eof' V (Pure.pure a) tokens P := by
  rintro _ rfl - holds
  exact absurd holds out

theorem seals_of_loud (loud : ∀ Q, ¬Passes eof rule tokens Q) :
    Seals eof eof' V rule tokens P :=
  fun s given quiet _ => absurd ⟨s, given, quiet, trivial⟩ (loud fun _ _ _ => True)

-- The second rule takes the last token, unless nothing is left to do for it.
theorem seals_bind_or {first : Rule β} {next : β → Rule α}
    (h : ∀ r, first.Gives eof (Production.Gives eof) tokens r → r.reports = [] →
      Seals eof eof' V (next r.value) r.rest P ∨
        ∃ a, next r.value = Pure.pure a ∧
          (P a → Seals eof eof' V first tokens (· = r.value))) :
    Seals eof eof' V (first >>= next) tokens P := by
  rintro _ ⟨r, begun, r', ended, rfl⟩ quiet holds
  obtain ⟨silent, silent'⟩ := List.append_eq_nil_iff.mp quiet
  rcases h r begun silent with seals | ⟨a, nothing, seals⟩
  · obtain ⟨front, last, between, closing, further⟩ := seals r' ended silent' holds
    obtain ⟨⟨before, split⟩, begun'⟩ := Gives.framed Production.Gives.framed first _ _ begun
    rw [List.append_cons] at between
    rw [between, ← List.append_assoc] at split
    refine ⟨before ++ front, last, by simp [← split, Step.andThen], closing, fun later => ?_⟩
    have whole := begun' split.symm between (by simp) later
    rw [List.append_assoc, List.append_assoc, List.singleton_append] at whole
    rw [List.append_assoc]
    refine ⟨_, whole, _, further later, rfl⟩
  · rw [nothing] at ended
    cases ended
    obtain ⟨front, last, split, closing, begun'⟩ := seals holds r begun silent rfl
    refine ⟨front, last, split, closing, fun later => ?_⟩
    refine ⟨_, begun' later, ⟨a, .nil, [], later⟩, ?_, rfl⟩
    change (next r.value).Gives _ _ _ _
    rw [nothing]
    rfl

theorem seals_bind {first : Rule β} {next : β → Rule α}
    (h : ∀ r, first.Gives eof (Production.Gives eof) tokens r → r.reports = [] →
      Seals eof eof' V (next r.value) r.rest P) :
    Seals eof eof' V (first >>= next) tokens P :=
  seals_bind_or fun r begun quiet => .inl (h r begun quiet)

theorem seals_map {first : Rule β} {f : β → α}
    (h : Seals eof eof' V first tokens fun b => P (f b)) :
    Seals eof eof' V (first >>= fun b => Pure.pure (f b)) tokens P := by
  refine seals_bind_or fun r _ _ => .inr ⟨f r.value, rfl, fun holds => h.imp ?_⟩
  rintro _ rfl
  exact holds

theorem seals_wrap {body : Rule (Option Kind × α)}
    (h : Seals eof eof' V body tokens fun result => P result.2) :
    Seals eof eof' V (wrap body) tokens P := by
  rintro _ ⟨r, inside, rfl⟩ quiet holds
  rw [Step.wrapped_reports] at quiet
  rw [Step.wrapped_value] at holds
  obtain ⟨front, last, split, closing, further⟩ := h r inside quiet holds
  rw [Step.wrapped_rest]
  refine ⟨front, last, split, closing, fun later => ⟨_, further later, ?_⟩⟩
  obtain ⟨⟨_ | _, _⟩, _, _, _⟩ := r <;> rfl

theorem seals_peekKind_bind {next : Kind → Rule α}
    (h : Seals eof eof' V (next (seen eof tokens)) tokens P) :
    Seals eof eof' V (peekKind >>= next) tokens P := by
  refine seals_bind ?_
  rintro _ ⟨_, rfl, _, rfl, rfl⟩ -
  exact h

theorem seals_sees_bind {k : Kind} {next : Bool → Rule α}
    (h : Seals eof eof' V (next (seen eof tokens == k)) tokens P) :
    Seals eof eof' V (sees k >>= next) tokens P := by
  refine seals_bind ?_
  rintro _ ⟨_, ⟨_, rfl, _, rfl, rfl⟩, _, rfl, rfl⟩ -
  exact h

theorem seals_call {p : Production} {P : Option Kind → Prop}
    (h : Seals eof eof' V p.rule tokens P) : Seals eof eof' V (call p) tokens P := by
  intro s given quiet holds
  obtain ⟨front, last, split, closing, further⟩ := h s (Production.gives_iff.mp given) quiet holds
  exact ⟨front, last, split, closing, fun later => Production.gives_iff.mpr (further later)⟩

theorem seals_discard {first : Rule β} {P : Unit → Prop}
    (h : Seals eof eof' V first tokens fun _ => P ()) :
    Seals eof eof' V (discard first) tokens P :=
  seals_map h

theorem seals_node {k : Kind} {body : Rule Unit} {P : Unit → Prop}
    (h : Seals eof eof' V body tokens P) : Seals eof eof' V (node k body) tokens P :=
  seals_wrap (seals_map h)

section Closing

variable {k : Kind} (closing : V k) (other : ¬V .eof) (atEof : eof.kind = .eof)
include closing other atEof

theorem seals_take {P : Unit → Prop} (here : seen eof tokens = k) :
    Seals eof eof' V take tokens P := by
  cases tokens with
  | nil =>
      have last : eof.kind = k := here
      rw [← last, atEof] at closing
      exact absurd closing other
  | cons t tokens =>
      obtain rfl : t.kind = k := here
      rintro _ rfl - -
      exact ⟨[], t, rfl, closing, fun later => rfl⟩

theorem seals_expect {P : Unit → Prop} : Seals eof eof' V (expect k) tokens P := by
  refine seals_sees_bind ?_
  split
  · next here => exact seals_take closing other atEof (beq_iff_eq.mp here)
  · exact seals_of_loud fun Q => by simp

theorem seals_eat_or {a : α} (h : seen eof tokens ≠ k → Seals eof eof' V rule tokens P) :
    Seals eof eof' V (eat k >>= fun found => if found then Pure.pure a else rule) tokens P := by
  refine seals_bind_or ?_
  rintro _ ⟨_, ⟨_, ⟨_, rfl, _, rfl, rfl⟩, _, rfl, rfl⟩, r, eaten, rfl⟩ -
  change Rule.Gives _ _ (if (seen eof tokens == k) = true then _ else _) tokens r at eaten
  split at eaten
  · next here =>
      obtain ⟨_, _, _, rfl, rfl⟩ := eaten
      refine .inr ⟨a, rfl, fun _ => ?_⟩
      refine seals_sees_bind ?_
      rw [if_pos here]
      exact seals_map (seals_take closing other atEof (beq_iff_eq.mp here))
  · next away =>
      obtain rfl := eaten
      exact .inl (h fun here => away (beq_iff_eq.mpr here))

theorem seals_bracketed {opening separator : Kind} {missing : Problem} {first : KindSet}
    {element : Rule Bool} {P : Unit → Prop} :
    Seals eof eof' V (bracketed opening k separator missing first element) tokens P :=
  seals_bind fun _ _ _ => seals_bind fun _ _ _ => seals_expect closing other atEof

end Closing

section Items

variable (atEof : eof.kind = .eof)
include atEof

theorem seals_expectBlock {P : Unit → Prop} : Seals eof eof' Kind.Closes expectBlock tokens P := by
  refine seals_sees_bind ?_
  split
  · exact seals_node <| seals_bind fun _ _ _ => seals_bind fun _ _ _ =>
      seals_expect (k := .rightBrace) (by decide) (by decide) atEof
  · exact seals_of_loud fun Q => by simp

theorem seals_fnItem {P : Unit → Prop} : Seals eof eof' Kind.Closes fnItem tokens P :=
  seals_bind fun _ _ _ => seals_bind fun _ _ _ => seals_bind fun _ _ _ => seals_bind fun _ _ _ =>
    seals_eat_or (k := .semicolon) (by decide) (by decide) atEof fun _ => seals_expectBlock atEof

theorem seals_structItem {P : Unit → Prop} : Seals eof eof' Kind.Closes structItem tokens P := by
  refine seals_bind fun _ _ _ => seals_bind fun _ _ _ => seals_peekKind_bind ?_
  split
  · exact seals_node (seals_bracketed (by decide) (by decide) atEof)
  · next here => exact seals_take (by decide) (by decide) atEof here
  · exact seals_of_loud fun Q => by simp

theorem seals_constItem {P : Unit → Prop} : Seals eof eof' Kind.Closes constItem tokens P :=
  seals_bind fun _ _ _ => seals_bind fun _ _ _ => seals_bind fun _ _ _ => seals_bind fun _ _ _ =>
    seals_expect (k := .semicolon) (by decide) (by decide) atEof

theorem seals_useItem {P : Unit → Prop} : Seals eof eof' Kind.Closes useItem tokens P :=
  seals_bind fun _ _ _ => seals_bind fun _ _ _ =>
    seals_expect (k := .semicolon) (by decide) (by decide) atEof

theorem seals_modItem {P : Unit → Prop} : Seals eof eof' Kind.Closes modItem tokens P := by
  refine seals_bind fun _ _ _ => seals_bind fun _ _ _ => seals_sees_bind ?_
  split
  · exact seals_node <| seals_bind fun _ _ _ => seals_bind fun _ _ _ =>
      seals_expect (k := .rightBrace) (by decide) (by decide) atEof
  · exact seals_expect (k := .semicolon) (by decide) (by decide) atEof

theorem seals_itemCore :
    Seals eof eof' Kind.Closes itemCore tokens fun kind => kind.isSome = true := by
  refine seals_peekKind_bind ?_
  split
  · exact seals_map (seals_fnItem atEof)
  · exact seals_map (seals_structItem atEof)
  · exact seals_map (seals_constItem atEof)
  · exact seals_map (seals_useItem atEof)
  · exact seals_map (seals_modItem atEof)
  · exact seals_pure (by simp)

theorem seals_itemRest (begun : Bool) :
    Seals eof eof' Kind.Closes (itemRest begun) tokens fun kind => kind.isSome = true := by
  refine seals_bind fun _ _ _ => seals_bind fun _ _ _ => seals_bind_or fun r _ _ => ?_
  obtain ⟨_ | kind, _, _, _⟩ := r
  · left
    simp only [Option.isNone_none, Bool.and_true]
    split
    · exact seals_of_loud fun Q => by simp
    · exact seals_pure (by simp)
  · right
    refine ⟨some kind, by simp, fun _ => (seals_itemCore atEof).imp ?_⟩
    rintro _ rfl
    rfl

theorem seals_item {P : Option Kind → Prop} : Seals eof eof' Kind.Closes item tokens P := by
  refine seals_bind_or fun r _ _ => ?_
  obtain ⟨_ | kind, _, _, _⟩ := r
  · exact .inl (seals_of_loud fun Q => by simp [strayToken, skipToken])
  · right
    refine ⟨some kind, rfl, fun _ => ?_⟩
    refine seals_wrap (seals_map ((seals_itemRest atEof false).imp ?_))
    rintro _ rfl
    rfl

variable (eof')

theorem seals_itemRound (closing : Kind) :
    Seals eof eof' Kind.Closes (itemRound closing) tokens (· = true) := by
  refine seals_bind fun r _ _ => ?_
  obtain ⟨_ | _, _, _, _⟩ := r
  · exact seals_map (seals_discard (seals_call (seals_item atEof)))
  · exact seals_pure (by simp)

theorem seals_attr {P : Bool → Prop} : Seals eof eof' Kind.Closes attr tokens P := by
  refine seals_wrap <| seals_bind fun _ _ _ => seals_bind fun _ _ _ => seals_map ?_
  refine seals_bind fun r _ _ => ?_
  obtain ⟨_ | _, _, _, _⟩ := r
  · exact seals_of_loud fun Q => by simp
  · exact seals_bind fun _ _ _ => seals_expect (k := .rightBracket) (by decide) (by decide) atEof

end Items

end Rule

end LosslessTree
