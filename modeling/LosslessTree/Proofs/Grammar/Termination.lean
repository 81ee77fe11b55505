import LosslessTree.Proofs.Grammar.Descent
import LosslessTree.Proofs.Grammar.Wholeness

set_option autoImplicit false

namespace LosslessTree

namespace Rule

variable {eof : Token} {tokens : List Token} (atEof : eof.kind = .eof)
include atEof

theorem moves_segment : Moves eof segment tokens (· = true) :=
  moves_ifEat atEof (by decide) fun _ => moves_pure (by decide)

theorem moves_path {V : Unit → Prop} (here : seen eof tokens = .ident) : Moves eof path tokens V :=
  moves_node (moves_first (moves_node (moves_takeKind atEof here (by decide))))

theorem moves_name {kept : KindSet} {V : Unit → Prop} (here : seen eof tokens = .ident) :
    Moves eof (name kept) tokens V :=
  moves_sees (fun _ => moves_node (moves_take atEof (by simp [here]))) fun away => absurd here away

theorem moves_skipToken {problem : Problem} {V : Unit → Prop} (inside : seen eof tokens ≠ .eof) :
    Moves eof (skipToken problem) tokens V := by
  refine moves_node (moves_bind fun s given => ?_)
  obtain rfl := given
  exact .inr (moves_take atEof inside)

theorem moves_bracketed {opening closing separator : Kind} {missing : Problem} {first : KindSet}
    {element : Rule Bool} {V : Unit → Prop} (here : seen eof tokens = opening)
    (inside : opening ≠ .eof) :
    Moves eof (bracketed opening closing separator missing first element) tokens V :=
  moves_first (moves_takeKind atEof here inside)

theorem moves_bracketedRound {closing separator : Kind} {missing : Problem} {first : KindSet}
    {element : Rule Bool} (moves : Moves eof element tokens (· = true)) :
    Moves eof (bracketedRound closing separator missing first element) tokens (· = true) := by
  refine moves_seesAny (fun _ => moves_pure (by decide)) fun open_ => ?_
  have inside : seen eof tokens ≠ .eof :=
    KindSet.ne_of_not_contains open_ (by simp [KindSet.contains_ofList])
  refine moves_sees (fun _ => moves_first (moves_skipToken atEof inside)) fun _ => ?_
  refine moves_bind fun s given => ?_
  cases found : s.value with
  | true => exact .inl (moves s given found)
  | false => exact .inr (moves_pure (by decide))

theorem moves_attr {V : Bool → Prop} (here : seen eof tokens = .hash) : Moves eof attr tokens V :=
  moves_wrap (moves_first (moves_takeKind atEof here (by decide)))

theorem moves_attrRound : Moves eof attrRound tokens (· = true) :=
  moves_sees (fun here => moves_first (moves_first (moves_attr atEof here)))
    fun _ => moves_pure (by decide)

theorem moves_type : Moves eof type tokens (·.isSome = true) := by
  refine moves_peekKind_bind ?_
  split
  · next here => exact moves_made (moves_path atEof here)
  · next here => exact moves_made (moves_bracketed atEof here (by decide))
  · next here => exact moves_made (moves_first (moves_take atEof (by simp [here])))
  · exact moves_pure (by simp)

theorem moves_literal {V : Unit → Prop} (here : literalFirst.contains (seen eof tokens) = true) :
    Moves eof (node .literal (takeOf literalFirst)) tokens V :=
  moves_node (moves_takeOf atEof (KindSet.ne_of_contains here (by decide)))

theorem moves_identPattern {V : Unit → Prop}
    (here : seen eof tokens = .ident ∨ seen eof tokens = .refKw ∨ seen eof tokens = .mutKw) :
    Moves eof identPattern tokens V := by
  refine moves_discardEat_bind atEof (by decide) fun notRef => ?_
  refine moves_discardEat_bind atEof (by decide) fun notMut => ?_
  exact moves_name atEof (by simpa [notRef, notMut] using here)

theorem moves_pattern : Moves eof pattern tokens
    fun v => v.isSome = true ∨ patternFirst.contains (seen eof tokens) = true := by
  refine moves_peekKind_bind ?_
  split
  · next here => exact moves_made (moves_identPattern atEof (.inl here))
  · next here => exact moves_made (moves_identPattern atEof (.inr (.inl here)))
  · next here => exact moves_made (moves_identPattern atEof (.inr (.inr here)))
  · next here => exact moves_made (moves_take atEof (by simp [here]))
  · next here => exact moves_made (moves_take atEof (by simp [here]))
  · next here => exact moves_made (moves_first (moves_take atEof (by simp [here])))
  · next here => exact moves_made (moves_bracketed atEof here (by decide))
  · split
    · next isLiteral => exact moves_made (moves_literal atEof isLiteral)
    · next notLiteral =>
        refine moves_pure ?_
        simp_all [patternFirst, literalFirst, KindSet.contains_ofList]

theorem moves_parenthesized {V : Option Kind → Prop} (here : seen eof tokens = .leftParen) :
    Moves eof parenthesized tokens V :=
  moves_wrap (moves_first (moves_first (moves_takeKind atEof here (by decide))))

theorem moves_block {V : Unit → Prop} (here : seen eof tokens = .leftBrace) :
    Moves eof block tokens V :=
  moves_first (moves_takeKind atEof here (by decide))

theorem moves_primary (away : seen eof tokens ≠ .ampersand) : Moves eof primary tokens
    fun v => v.isSome = true ∨ expressionFirst.contains (seen eof tokens) = true := by
  refine moves_peekKind_bind ?_
  split
  · next here => exact moves_made (moves_path atEof here)
  · next here => exact moves_parenthesized atEof here
  · next here => exact moves_made (moves_block atEof here)
  · split
    · next isLiteral => exact moves_first (moves_literal atEof isLiteral)
    · next notLiteral =>
        refine moves_bind fun s given => .inr (moves_pure ?_)
        simp_all [expressionFirst, KindSet.contains_ofList]

theorem moves_arguments {V : Unit → Prop} (here : seen eof tokens = .leftParen) :
    Moves eof arguments tokens V :=
  moves_node (moves_bracketed atEof here (by decide))

omit atEof in
theorem called_of_more {kind : Option Kind} {ahead : Lookahead} {b : Unit}
    (found : (if kind.isSome && ahead.kind == .leftParen then some () else none) = some b) :
    kind.isSome = true ∧ ahead.kind = .leftParen := by
  split at found
  · next here => simpa using here
  · cases found

omit atEof in
theorem operator_of_more {kind : Option Kind} {ahead : Lookahead} {least level : Nat}
    (found : (if kind.isSome then ahead.level.filter (least ≤ ·) else none) = some level) :
    kind.isSome = true ∧ ahead.level = some level := by
  split at found
  · next here => exact ⟨here, (Option.filter_eq_some_iff.mp found).1⟩
  · cases found

theorem moves_unary : Moves eof unary tokens
    fun v => v.isSome = true ∨ expressionFirst.contains (seen eof tokens) = true := by
  refine moves_sees (fun here => moves_made (moves_first (moves_take atEof (by simp [here]))))
    fun away => moves_grow ((moves_primary atEof away).imp ?_)
  rintro v (holds | ⟨ahead, b, found⟩)
  · exact holds
  · exact .inl (called_of_more found).1

theorem moves_expression {level : Nat} : Moves eof (expression level) tokens
    fun v => v.isSome = true ∨ expressionFirst.contains (seen eof tokens) = true := by
  refine moves_grow ((moves_unary atEof).imp ?_)
  rintro v (holds | ⟨ahead, b, found⟩)
  · exact holds
  · exact .inl (operator_of_more found).1

theorem moves_furtherField : Moves eof furtherField tokens (· = true) :=
  moves_ifEat atEof (by decide) fun _ => moves_pure (by decide)

theorem attrs_rest {s : Step Unit}
    (h : (loop attrRound).Gives eof (Production.Gives eof) tokens s) :
    s.rest.length < tokens.length ∨ s.rest = tokens ∧ seen eof tokens ≠ .hash := by
  cases h with
  | last round ended =>
      rw [attrRound, gives_sees_bind] at round
      split at round
      · obtain ⟨_, _, _, rfl, rfl⟩ := round
        cases ended
      · next away =>
          cases round
          exact .inr ⟨rfl, by simpa using away⟩
  | again round more later =>
      have shorter := moves_attrRound atEof _ round more
      have kept : Step.Keeps _ _ := Step.Repeats.keeps (fun _ _ => Gives.keeps) later
      exact .inl (Nat.lt_of_le_of_lt kept.rest_le shorter)

theorem prelude_rest {s : Step Unit} (h : prelude.Gives eof (Production.Gives eof) tokens s) :
    s.rest.length < tokens.length ∨
      s.rest = tokens ∧ seen eof tokens ≠ .hash ∧ seen eof tokens ≠ .pubKw := by
  obtain ⟨r, attrs, r', visible, rfl⟩ := h
  have later : r'.rest.length ≤ r.rest.length := visible.keeps.rest_le
  rcases attrs_rest atEof attrs with less | ⟨same, noHash⟩
  · exact .inl (Nat.lt_of_le_of_lt later less)
  rw [same, whenSees, gives_sees_bind] at visible
  split at visible
  · next here =>
      have isPub : seen eof tokens = .pubKw := beq_iff_eq.mp here
      have taken : Moves eof (node .visibility take) tokens fun _ => True :=
        moves_node (moves_take atEof (by simp [isPub]))
      exact .inl (taken r' visible trivial)
  · next away =>
      cases visible
      exact .inr ⟨rfl, noHash, by simpa using away⟩

theorem itemCore_rest {s : Step (Option Kind)}
    (h : itemCore.Gives eof (Production.Gives eof) tokens s) :
    s.rest.length < tokens.length ∨ s.rest = tokens ∧ s.value = none := by
  rw [itemCore, gives_peekKind_bind] at h
  split at h
  case h_6 =>
    cases h
    exact .inr ⟨rfl, rfl⟩
  all_goals
    next here =>
      obtain ⟨r, taken, rfl⟩ := gives_map.mp h
      exact .inl (moves_first (W := fun _ => True) (moves_takeKind atEof here (by decide)) r taken
        trivial)

theorem itemRest_rest {s : Step (Option Kind)}
    (h : (itemRest false).Gives eof (Production.Gives eof) tokens s) :
    s.rest.length < tokens.length ∨ s.rest = tokens ∧ s.value = none := by
  rw [itemRest, gives_seesAny_bind] at h
  obtain ⟨r, front, r', ⟨core, found, r'', ended, rfl⟩, rfl⟩ := h
  have begun : core.rest.length ≤ r.rest.length := found.keeps.rest_le
  have later : r''.rest.length ≤ core.rest.length := ended.keeps.rest_le
  simp only [Step.andThen]
  rcases prelude_rest atEof front with less | ⟨same, noHash, noPub⟩
  · omega
  rw [same] at begun found
  rcases itemCore_rest atEof found with less | ⟨same', none⟩
  · omega
  have away : (KindSet.ofList [.hash, .pubKw]).contains (seen eof tokens) = false := by
    simp [KindSet.contains_ofList, noHash, noPub]
  rw [away, none] at ended
  cases ended
  exact .inr ⟨same', rfl⟩

theorem moves_item {V : Option Kind → Prop} (inside : seen eof tokens ≠ .eof) :
    Moves eof item tokens V := by
  refine moves_bind fun s given => ?_
  obtain ⟨r, rest, rfl⟩ := gives_nodeIf.mp given
  rcases itemRest_rest atEof rest with less | ⟨same, none⟩
  · exact .inl less
  · right
    simp only [none, same, Option.isNone_none, if_true]
    exact moves_first (moves_sees (fun _ => moves_skipToken atEof inside)
      fun _ => moves_skipToken atEof inside)

theorem moves_itemRound {closing : Kind} : Moves eof (itemRound closing) tokens (· = true) := by
  refine moves_seesAny (fun _ => moves_pure (by decide)) fun open_ => ?_
  have inside : seen eof tokens ≠ .eof :=
    KindSet.ne_of_not_contains open_ (by simp [KindSet.contains_ofList])
  exact moves_first (moves_first (moves_call (moves_item atEof inside)))

theorem moves_headAttr {V : Option Bool → Prop} (here : seen eof tokens = .hash) :
    Moves eof headAttr tokens V :=
  moves_grow (moves_first (moves_attr atEof here))

theorem moves_headRound : Moves eof headRound tokens (· = true) :=
  moves_sees (fun here => moves_first (moves_headAttr atEof here)) fun _ => moves_pure (by decide)

theorem moves_parameter : Moves eof parameter tokens (· = true) := by
  refine moves_seesAny (fun here => ?_) fun _ => moves_pure (by decide)
  have taken : Moves eof pattern tokens fun _ => True := (moves_pattern atEof).imp fun _ _ => .inr here
  exact moves_first (moves_node (moves_first (moves_first taken)))

theorem moves_field : Moves eof field tokens (· = true) := by
  refine moves_seesAny (fun here => moves_first (moves_node (moves_bind fun s front => ?_)))
    fun _ => moves_pure (by decide)
  rcases prelude_rest atEof front with less | ⟨same, noHash, noPub⟩
  · exact .inl less
  · -- Without a prelude the field begins with its name.
    have named : seen eof tokens = .ident := by
      simpa [fieldFirst, KindSet.contains_ofList, noHash, noPub] using here
    exact .inr (same ▸ moves_first (moves_name atEof named))

theorem moves_statement (inside : seen eof tokens ≠ .eof) {V : Unit → Prop} :
    Moves eof statement tokens V := by
  refine moves_peekKind_bind ?_
  split
  · exact moves_take atEof inside
  · next here => exact moves_node (moves_first (moves_takeKind atEof here (by decide)))
  · split
    · exact moves_first (moves_call (moves_item atEof inside))
    · split
      · next begins =>
          have taken : Moves eof innerExpression tokens fun _ => True :=
            moves_call ((moves_expression atEof).imp fun _ _ => .inr begins)
          exact moves_first (moves_grow (taken.imp fun _ _ => trivial))
      · exact moves_skipToken atEof inside

theorem moves_blockRound : Moves eof blockRound tokens (· = true) := by
  refine moves_seesAny (fun _ => moves_pure (by decide)) fun open_ => ?_
  have inside : seen eof tokens ≠ .eof :=
    KindSet.ne_of_not_contains open_ (by simp [KindSet.contains_ofList])
  exact moves_first (moves_statement atEof inside)

section Anywhere

variable {calls statements limit : Nat}

omit atEof

-- Rounds of a block go on at a semicolon.
theorem ne_blockRound {body : Rule Bool} (stops : let t : Token := ⟨[], .semicolon, 0, [';'], []⟩
    (body.run t (fun _ rest => ⟨none, .nil, [], rest⟩) [t]).value = false) : body ≠ .blockRound := by
  rintro rfl
  cases stops

theorem free_name {kept : KindSet} : Free eof calls statements limit (name kept) :=
  free_sees (free_node free_take) free_skipUnless

theorem free_nameRef : Free eof calls statements limit nameRef := free_node free_takeOf

include atEof in
theorem free_path : Free eof calls statements limit path := by
  refine free_node (free_bind free_nameRef fun _ => free_loop ?_ (fun _ => moves_segment atEof) (.inr ?_))
  · exact free_ifEat (free_sees (free_bind free_nameRef fun _ => free_pure)
      (free_bind free_report fun _ => free_pure)) free_pure
  · exact ne_blockRound rfl

include atEof in
theorem free_attr : Free eof calls statements limit attr := by
  refine free_wrap (free_bind free_takeOf fun _ => free_bind free_eat fun _ =>
    free_bind (free_ifEat (free_bind ?_ fun _ => free_expect) free_report) fun _ => free_pure)
  exact free_sees (free_path atEof) free_report

include atEof in
theorem free_prelude : Free eof calls statements limit prelude := by
  refine free_bind (free_loop ?_ (fun _ => moves_attrRound atEof) (.inr (ne_blockRound rfl)))
    fun _ => free_whenSees (free_node free_take)
  exact free_sees (free_bind (free_discard (free_attr atEof)) fun _ => free_pure) free_pure

theorem free_separation {separator : Kind} {first : KindSet} :
    Free eof calls statements limit (separation separator first) :=
  free_ifEat free_pure (free_seesAny (free_bind free_report fun _ => free_pure) free_pure)

theorem free_identPattern : Free eof calls statements limit identPattern :=
  free_bind (free_discard free_eat) fun _ => free_bind (free_discard free_eat) fun _ => free_name

omit atEof

theorem free_innerType (within : limit ≤ calls) : Free eof calls statements limit innerType :=
  free_bind (free_call within) fun _ => free_pure

theorem free_innerPattern (within : limit ≤ calls) : Free eof calls statements limit innerPattern :=
  free_bind (free_call within) fun _ => free_pure

theorem free_innerArgument (within : limit ≤ calls) : Free eof calls statements limit innerArgument :=
  free_bind (free_call within) fun _ => free_pure

include atEof

theorem free_elements {closing separator : Kind} {missing : Problem} {first : KindSet}
    {element : Rule Bool} (within : limit ≤ statements) (h : Free eof calls statements limit element)
    (moves : ∀ tokens, Moves eof element tokens (· = true)) :
    Free eof calls statements limit (loop (bracketedRound closing separator missing first element)) := by
  refine free_loop ?_ (fun tokens => moves_bracketedRound atEof (moves tokens)) (.inl within)
  refine free_seesAny free_pure (free_sees (free_bind free_skipToken fun _ => free_pure) ?_)
  exact free_bind h fun _ => free_ite free_separation free_pure

theorem free_bracketed {opening closing separator : Kind} {missing : Problem} {first : KindSet}
    {element : Rule Bool} (within : limit ≤ statements) (h : Free eof calls statements limit element)
    (moves : ∀ tokens, Moves eof element tokens (· = true)) :
    Free eof calls statements limit (bracketed opening closing separator missing first element) :=
  free_bind free_takeOf fun _ => free_bind (free_elements atEof within h moves) fun _ => free_expect

end Anywhere

section Entry

variable {calls statements : Nat} (within : tokens.length ≤ calls) (within' : tokens.length ≤ statements)
include within within'

omit within in
theorem descends_bracketed {opening closing separator : Kind} {missing : Problem} {first : KindSet}
    {element : Rule Bool} (here : seen eof tokens = opening) (inside : opening ≠ .eof)
    (h : Free eof calls statements tokens.length element)
    (moves : ∀ tokens, Moves eof element tokens (· = true)) :
    (bracketed opening closing separator missing first element).Descends eof calls statements tokens :=
  descends_behind (Free.descends fun _ => free_takeOf) (moves_takeKind atEof here inside) fun _ =>
    free_bind (free_elements atEof within' h moves) fun _ => free_expect

theorem descends_type : type.Descends eof calls statements tokens := by
  refine descends_peekKind_bind ?_
  split
  · exact descends_made (Free.descends fun _ => free_path atEof)
  · next here =>
      exact descends_made (descends_bracketed atEof within' here (by decide)
        (free_innerType within) fun _ => moves_isSome (moves_call (moves_type atEof)))
  · next here =>
      refine descends_made (descends_behind trivial (moves_take atEof (by simp [here])) fun _ => ?_)
      exact free_bind (free_discard free_eat) fun _ =>
        free_bind (free_innerType within) fun _ => free_ite free_pure free_report
  · trivial

theorem descends_pattern : pattern.Descends eof calls statements tokens := by
  refine descends_peekKind_bind ?_
  split
  · exact descends_made (Free.descends fun _ => free_identPattern)
  · exact descends_made (Free.descends fun _ => free_identPattern)
  · exact descends_made (Free.descends fun _ => free_identPattern)
  · exact descends_made trivial
  · exact descends_made trivial
  · next here =>
      refine descends_made (descends_behind trivial (moves_take atEof (by simp [here])) fun _ => ?_)
      exact free_bind (free_discard free_eat) fun _ =>
        free_bind (free_innerPattern within) fun _ => free_ite free_pure free_skipUnless
  · next here =>
      exact descends_made (descends_bracketed atEof within' here (by decide)
        (free_innerPattern within) fun _ => moves_isSome (moves_call ((moves_pattern atEof).imp
          fun _ => .inl)))
  · refine Free.descends fun _ => free_ite ?_ free_pure
    exact free_made (free_node free_takeOf)

end Entry

section Statements

variable {calls statements limit : Nat} (within : limit ≤ calls) (within' : limit ≤ statements)
include within within'

theorem free_type : Free eof calls statements limit type :=
  free_of_descends within within' fun _ => descends_type atEof

theorem free_pattern : Free eof calls statements limit pattern :=
  free_of_descends within within' fun _ => descends_pattern atEof

theorem free_expectType : Free eof calls statements limit expectType :=
  free_bind (free_type atEof within within') fun _ => free_ite free_pure free_report

theorem free_ascription : Free eof calls statements limit ascription :=
  free_bind free_takeOf fun _ => free_expectType atEof within within'

theorem free_expectPattern : Free eof calls statements limit expectPattern :=
  free_bind (free_pattern atEof within within') fun _ => free_ite free_pure free_skipUnless

omit atEof within' in
theorem free_innerExpression : Free eof calls statements limit innerExpression := free_call within

omit atEof within' in
theorem free_initializer : Free eof calls statements limit initializer :=
  free_ifEat (free_discard (free_call within)) free_pure

omit atEof within within' in
theorem free_statementEnd {kind : Kind} : Free eof calls statements limit (statementEnd kind) :=
  free_ifEat free_pure (free_ite free_pure free_report)

end Statements

section Blocks

variable {calls statements limit : Nat}

theorem descends_statement (within : tokens.length < calls) (within' : tokens.length ≤ statements) :
    statement.Descends eof calls statements tokens := by
  have less : tokens.length ≤ calls := Nat.le_of_lt within
  refine descends_peekKind_bind ?_
  split
  · trivial
  · next here =>
      refine ⟨descends_behind (Free.descends fun _ => free_takeOf)
        (moves_takeKind atEof here (by decide)) fun _ => ?_, fun _ _ => trivial⟩
      exact free_bind (free_expectPattern atEof less within') fun _ =>
        free_bind (free_whenSees (free_ascription atEof less within')) fun _ =>
          free_bind (free_initializer less) fun _ => free_expect
  · split
    · exact descends_bind within fun _ _ => free_pure
    · split
      · refine descends_bind ⟨within, ?_⟩ fun _ _ => free_pure
        intro s given built later b found
        refine ⟨Free.descends fun _ => free_bind free_statementEnd fun _ => free_pure, ?_⟩
        rintro _ ⟨r, -, _, rfl, rfl⟩
        right
        simp [Step.andThen]
      · exact Free.descends fun _ => free_skipToken

theorem free_blockRound (within : limit ≤ calls) (within' : limit ≤ statements) :
    Free eof calls statements limit blockRound := by
  have statements_ : Free eof calls statements limit statement := fun tokens less =>
    descends_statement atEof (by omega) (by omega)
  exact free_seesAny free_pure (free_bind statements_ fun _ => free_pure)

theorem free_statements (within : limit ≤ calls) (within' : limit ≤ statements) :
    Free eof calls statements limit (loop blockRound) :=
  free_loop (free_blockRound atEof within within') (fun _ => moves_blockRound atEof) (.inl within')

variable (within : tokens.length ≤ calls) (within' : tokens.length ≤ statements)
include within within'

theorem descends_block (here : seen eof tokens = .leftBrace) :
    block.Descends eof calls statements tokens :=
  descends_behind (Free.descends fun _ => free_takeOf) (moves_takeKind atEof here (by decide)) fun _ =>
    free_bind (free_statements atEof within within') fun _ => free_expect

theorem descends_parenthesized (here : seen eof tokens = .leftParen) :
    parenthesized.Descends eof calls statements tokens := by
  refine ⟨descends_behind (Free.descends fun _ => free_takeOf)
    (moves_takeKind atEof here (by decide)) fun _ => ?_, fun _ _ => trivial⟩
  have further : Free eof calls statements tokens.length furtherField :=
    free_ifEat (free_seesAny free_pure (free_bind (free_innerExpression within) fun _ => free_pure))
      free_pure
  refine free_ifEat free_pure (free_bind (free_discard (free_innerExpression within)) fun _ => ?_)
  refine free_sees ?_ (free_bind free_expect fun _ => free_pure)
  exact free_bind (free_loop further (fun _ => moves_furtherField atEof) (.inl within')) fun _ =>
    free_bind free_expect fun _ => free_pure

theorem descends_primary : primary.Descends eof calls statements tokens := by
  refine descends_peekKind_bind ?_
  split
  · exact descends_made (Free.descends fun _ => free_path atEof)
  · next here => exact descends_parenthesized atEof within within' here
  · next here => exact descends_made (descends_block atEof within within' here)
  · refine Free.descends fun _ => free_ite (free_made free_takeOf) ?_
    exact free_bind free_skipUnless fun _ => free_pure

theorem descends_postfixed (away : seen eof tokens ≠ .ampersand) :
    postfixed.Descends eof calls statements tokens := by
  refine descends_grow (descends_primary atEof within within') ?_ ?_ ?_
  · refine (moves_primary atEof away).imp ?_
    rintro v ⟨ahead, b, found⟩
    exact .inl (called_of_more found).1
  · intro _
    refine free_bind (free_node ?_) fun _ => free_pure
    exact free_bracketed atEof within' (free_innerArgument within) fun _ =>
      moves_isSome (moves_call ((moves_expression atEof).imp fun _ => .inl))
  · rintro a b rest _ found ⟨r, called, _, rfl, rfl⟩
    exact .inl (moves_arguments (V := fun _ => True) atEof (called_of_more found).2 r called trivial)

theorem descends_unary : unary.Descends eof calls statements tokens := by
  refine descends_sees (fun here => ?_) fun away => descends_postfixed atEof within within' away
  refine descends_made (descends_behind trivial (moves_take atEof (by simp [here])) fun _ => ?_)
  exact free_bind (free_discard free_eat) fun _ => free_discard (free_call within)

theorem descends_expression {level : Nat} : (expression level).Descends eof calls statements tokens := by
  refine descends_grow (descends_unary atEof within within') ?_ ?_ ?_
  · refine (moves_unary atEof).imp ?_
    rintro v ⟨ahead, b, found⟩
    exact .inl (operator_of_more found).1
  · exact fun _ => free_bind free_take fun _ =>
      free_bind (free_discard (free_call within)) fun _ => free_pure
  · intro a b rest r found given
    left
    have operator := seen_of_ahead_level (operator_of_more found).2
    have taken : Moves eof take rest fun _ => True := moves_take atEof (by simp [operator])
    exact moves_first (W := fun _ => True) taken r given trivial

end Blocks

section Items

variable {calls statements limit : Nat}

section Parts

variable (within : limit ≤ calls) (within' : limit ≤ statements)
include within within'

theorem free_ascriptionOr {missing : Problem} :
    Free eof calls statements limit (ascriptionOr missing) :=
  free_sees (free_ascription atEof within within') free_report

theorem free_parameter : Free eof calls statements limit parameter := by
  refine free_seesAny (free_bind (free_node ?_) fun _ => free_pure) free_pure
  exact free_bind (free_discard (free_pattern atEof within within')) fun _ =>
    free_ascriptionOr atEof within within'

theorem free_parameters : Free eof calls statements limit parameters :=
  free_sees (free_node (free_bracketed atEof within' (free_parameter atEof within within')
    fun _ => moves_parameter atEof)) free_report

theorem free_returnType : Free eof calls statements limit returnType :=
  free_whenSees (free_node (free_bind free_take fun _ => free_expectType atEof within within'))

theorem free_fnBody : Free eof calls statements limit fnBody := by
  refine free_ifEat free_pure (free_sees (free_node ?_) free_report)
  exact free_bind free_takeOf fun _ => free_bind (free_statements atEof within within') fun _ => free_expect

theorem free_field : Free eof calls statements limit field := by
  refine free_seesAny (free_bind (free_node ?_) fun _ => free_pure) free_pure
  exact free_bind (free_prelude atEof) fun _ => free_bind free_name fun _ =>
    free_ascriptionOr atEof within within'

theorem free_structBody : Free eof calls statements limit structBody := by
  refine free_peekKind_bind fun _ => ?_
  split
  · exact free_node (free_bracketed atEof within' (free_field atEof within within')
      fun _ => moves_field atEof)
  · exact free_take
  · exact free_report

theorem free_items {closing : Kind} : Free eof calls statements limit (loop (itemRound closing)) := by
  refine free_loop ?_ (fun _ => moves_itemRound atEof) (.inl within')
  exact free_seesAny free_pure (free_bind (free_discard (free_call within)) fun _ => free_pure)

theorem free_modBody : Free eof calls statements limit modBody :=
  free_sees (free_node (free_bind free_take fun _ =>
    free_bind (free_items atEof within within') fun _ => free_expect)) free_expect

end Parts

section Entry

variable (within : tokens.length ≤ calls) (within' : tokens.length ≤ statements)
include within within'

omit within within' in
theorem descends_keyword {k : Kind} {body : Unit → Rule Unit} {kind : Option Kind}
    (here : seen eof tokens = k) (inside : k ≠ .eof)
    (free : Free eof calls statements tokens.length (body ())) :
    Descends eof calls statements ((takeKind k >>= body) >>= fun _ => Pure.pure kind) tokens :=
  ⟨descends_behind (Free.descends fun _ => free_takeOf) (moves_takeKind atEof here inside) fun _ => free,
    fun _ _ => trivial⟩

theorem descends_itemCore : itemCore.Descends eof calls statements tokens := by
  refine descends_peekKind_bind ?_
  split
  · next here =>
      refine descends_keyword atEof here (by decide) (free_bind free_name fun _ => ?_)
      exact free_bind (free_parameters atEof within within') fun _ =>
        free_bind (free_returnType atEof within within') fun _ => free_fnBody atEof within within'
  · next here =>
      refine descends_keyword atEof here (by decide) (free_bind free_name fun _ => ?_)
      exact free_structBody atEof within within'
  · next here =>
      refine descends_keyword atEof here (by decide) (free_bind free_name fun _ => ?_)
      exact free_bind (free_ascriptionOr atEof within within') fun _ =>
        free_bind (free_initializer within) fun _ => free_expect
  · next here =>
      refine descends_keyword atEof here (by decide) ?_
      exact free_bind (free_sees (free_path atEof) free_report) fun _ => free_expect
  · next here =>
      refine descends_keyword atEof here (by decide) (free_bind free_name fun _ => ?_)
      exact free_modBody atEof within within'
  · trivial

theorem descends_itemRest {begun : Bool} :
    (itemRest begun).Descends eof calls statements tokens := by
  refine ⟨descends_peekKind_bind trivial, ?_⟩
  rintro _ ⟨_, ⟨_, rfl, _, rfl, rfl⟩, _, rfl, rfl⟩
  refine ⟨Free.descends fun _ => free_prelude atEof, fun s front => ?_⟩
  have later : s.rest.length ≤ tokens.length := front.keeps.rest_le
  refine descends_bind (descends_itemCore atEof (by omega) (by omega)) fun kind limit => ?_
  exact free_ite (free_bind free_report fun _ => free_pure) free_pure

theorem descends_item : item.Descends eof calls statements tokens := by
  refine descends_bind ⟨descends_itemRest atEof within within', fun _ _ => trivial⟩ fun kind limit => ?_
  exact free_ite (free_bind (free_sees free_skipToken free_skipToken) fun _ => free_pure) free_pure

end Entry

theorem free_file (within : limit ≤ calls) (within' : limit ≤ statements) :
    Free eof calls statements limit file := by
  have itemRest_ {begun : Bool} : Free eof calls statements limit (itemRest begun) :=
    free_of_descends within within' fun _ less less' => descends_itemRest atEof less less'
  have headAttr_ : Free eof calls statements limit headAttr := by
    refine free_grow (free_bind (free_attr atEof) fun _ => free_pure)
      (fun _ => free_bind itemRest_ fun _ => free_pure) ?_
    rintro a b rest _ - ⟨r, -, _, rfl, rfl⟩
    exact .inr rfl
  refine free_bind (free_loop ?_ (fun _ => moves_headRound atEof) (.inl within')) fun _ =>
    free_items atEof within within'
  exact free_sees (free_bind headAttr_ fun _ => free_pure) free_pure

end Items

end Rule

section Runs

variable {eof : Token} (atEof : eof.kind = .eof)
include atEof

theorem Production.descends (p : Production) (tokens : List Token) :
    p.rule.Descends eof tokens.length tokens.length tokens := by
  have all : tokens.length ≤ tokens.length := Nat.le_refl _
  cases p with
  | item => exact Rule.descends_item atEof all all
  | pattern => exact Rule.descends_pattern atEof all all
  | type => exact Rule.descends_type atEof all all
  | unary => exact Rule.descends_unary atEof all all
  | expression level => exact Rule.descends_expression atEof all all

theorem Production.exists_descend (p : Production) (tokens : List Token) :
    ∃ s, p.descend eof tokens = some s ∧ p.Gives eof tokens s := by
  induction size : tokens.length using Nat.strongRecOn generalizing p tokens with
  | ind n ih =>
      rw [descend]
      have called (p' : Production) (tokens' : List Token) (less : tokens'.length < tokens.length) :
          ∃ s, p'.descend eof tokens' = some s ∧ p'.Gives eof tokens' s :=
        ih _ (size ▸ less) p' tokens' rfl
      obtain ⟨s, ran, given⟩ := (p.descends atEof tokens).exists_step called
      exact ⟨s, ran, .of_rule given⟩

end Runs

theorem TokenStream.descend_file {s : TokenStream} (atEof : s.eof.kind = .eof)
    (plain : ∀ t ∈ s.tokens, t.kind.isNode = false) : s.descend .file = some (s.run .file) := by
  have free := Rule.free_file atEof (Nat.le_refl (s.tokens.length + 1)) (Nat.le_refl _)
  have called (p : Production) (tokens : List Token) (_ : tokens.length < s.tokens.length + 1) :
      ∃ r, p.descend s.eof tokens = some r ∧ p.Gives s.eof tokens r := p.exists_descend atEof tokens
  obtain ⟨r, ran, given⟩ := (free s.tokens (Nat.lt_succ_self _)).exists_step called
  rw [descend, ran, given.unique (gives_file atEof plain)]

open TokenStream in
/-- A parse needs no bound but the tokens that are left: rounds that go on take a token, productions
and statements begin behind the first token of those that they are in, and no token is left over. -/
theorem parse_terminates (text : Text) :
    let s := ofText text
    parseByDescent text = some (parse text) ∧
      Rule.file.Descends s.eof (s.tokens.length + 1) (s.tokens.length + 1) s.tokens ∧
      (∀ (p : Production) tokens, (p.descend s.eof tokens).isSome = true ∧
        p.rule.Descends s.eof tokens.length tokens.length tokens) ∧
      (∀ tokens, Rule.statement.Descends s.eof (tokens.length + 1) tokens.length tokens) ∧
      (s.run .file).rest = [] ∧ s.forest.leaves = s.all.map Token.leaf := by
  intro s
  have atEof : s.eof.kind = .eof := ofText_eof text
  refine ⟨?_, ?_, fun p tokens => ⟨?_, p.descends atEof tokens⟩, fun tokens => ?_,
    (run_file text).ends, forest_leaves text⟩
  · rw [parseByDescent, descend_file atEof (ofText_plain text)]
    rfl
  · exact Rule.free_file atEof (Nat.le_refl _) (Nat.le_refl _) _ (Nat.lt_succ_self _)
  · obtain ⟨r, ran, -⟩ := p.exists_descend atEof tokens
    rw [ran]
    rfl
  · exact Rule.descends_statement atEof (Nat.lt_succ_self _) (Nat.le_refl _)

end LosslessTree
