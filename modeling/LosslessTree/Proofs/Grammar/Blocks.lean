import LosslessTree.Proofs.Grammar.Parts

set_option autoImplicit false

namespace LosslessTree

open Form

namespace Rule

variable {broken : Bool} {eof : Token} {depth : Nat} {tokens : List Token}
variable (atEof : eof.kind = .eof)
  (calls : ∀ p tokens, tokens.length < depth → (p = .item → seen eof tokens ≠ .eof) →
    Builds broken eof depth (call p) tokens fun v tops _ => p.Yield broken (seen eof tokens) v tops)

theorem ne_eof_of_atEnd {k : Kind}
    (inside : (KindSet.ofList [k, .eof]).contains (seen eof tokens) = false) :
    seen eof tokens ≠ .eof := by
  apply KindSet.ne_of_not_contains inside
  simp [KindSet.contains_ofList]

include calls

theorem yields_operand {least : Nat} (inside : tokens.length < depth) :
    Yields broken eof depth (call (.expression least)) tokens (part broken (category .expr)) :=
  (calls (.expression least) tokens inside nofun).imp fun _ _ _ chosen => chosen.part

theorem yields_innerExpression (inside : tokens.length < depth) :
    Yields broken eof depth innerExpression tokens (part broken (category .expr)) :=
  yields_operand calls inside

include atEof

theorem yields_arguments (here : seen eof tokens = .leftParen) :
    Yields broken eof depth arguments tokens (token .argList) := by
  apply yields_node rfl
  refine yields_bracketed atEof rfl here (by decide) (by decide) fun rest inside => ?_
  refine (builds_inner (calls (.expression 1) rest inside nofun)).imp fun found tops _ fits => ?_
  cases found with
  | true => exact fits
  | false =>
      obtain ⟨_, isBroken, which⟩ := derives_absentExpression.mp fits
      exact which.elim (fun error => .inr ⟨isBroken, error⟩) .inl

theorem yields_initializer : Yields broken eof depth initializer tokens (initializerShape broken) := by
  apply builds_ifEat atEof (by decide)
  · intro _ rest inside
    refine (yields_discard (yields_innerExpression calls inside)).imp fun _ _ _ fits => ?_
    exact .left (.seq .token fits)
  · intro _
    exact builds_pure (.right .empty)

theorem yields_letStatement (here : seen eof tokens = .letKw) :
    Yields broken eof depth letStatement tokens (token .letStmt) := by
  apply yields_node rfl
  apply yields_takeKind_bind atEof here (by decide)
  intro rest _
  refine yields_bind (yields_expectPattern atEof calls) fun _ rest => ?_
  refine yields_bind (yields_whenSees (yields_ascription atEof calls)) fun _ rest => ?_
  refine yields_bind (yields_initializer atEof calls) fun _ rest => ?_
  exact yields_expect atEof (by decide)

def Last (eof : Token) (e : Kind) (rest : List Token) : Prop :=
  Category.expr.members.contains e = true ∧ seen eof rest = .rightBrace

def Begun (broken : Bool) (eof : Token) (v : Option Kind) (tops : List Kind) (rest : List Token) : Prop :=
  match v with
  | some e => Last eof e rest ∧ tops = [e]
  | none => (statementShape broken).Matches tops

def Stated (broken : Bool) (eof : Token) (tops : List Kind) (rest : List Token) : Prop :=
  (statementShape broken).Matches tops ∨ ∃ e, Last eof e rest ∧ tops = [e]

omit atEof calls in
theorem statementShape_token {k : Kind} (mem : k ∈ [Kind.semicolon, .letStmt, .exprStmt]) :
    (statementShape broken).Matches [k] :=
  .right (.oneOf mem)

omit atEof calls in
theorem Stated.ne_nil {tops : List Kind} {rest : List Token} (h : Stated broken eof tops rest) :
    tops ≠ [] := by
  rcases h with fits | ⟨e, _, rfl⟩
  · exact fits.ne_nil statementShape_full
  · simp

omit calls in
theorem builds_statementEnd {k : Kind} :
    Builds broken eof depth (statementEnd k) tokens fun _ tops _ =>
      tops = [.semicolon] ∨ tops = [] ∧ (k = .blockExpr ∨ broken = true) := by
  apply builds_ifEat atEof (by decide)
  · intro _ _ _
    exact builds_pure (.inl rfl)
  · intro _
    split
    · next block => exact builds_pure (.inr ⟨rfl, .inl (by simpa using block)⟩)
    · exact builds_report fun isBroken => .inr ⟨rfl, .inr isBroken⟩

theorem builds_expressionStatement (inside : tokens.length < depth)
    (here : expressionFirst.contains (seen eof tokens) = true) :
    Builds broken eof depth expressionStatement tokens fun _ tops rest =>
      Stated broken eof tops rest := by
  have first : Builds broken eof depth innerExpression tokens fun v tops _ =>
      ∃ k, v = some k ∧ Category.expr.members.contains k = true ∧ tops = [k] := by
    refine (calls (.expression 1) tokens inside nofun).imp fun v tops _ chosen => ?_
    cases v with
    | some k => exact ⟨k, rfl, chosen⟩
    | none =>
        obtain ⟨absent, _⟩ := derives_absentExpression.mp chosen
        rw [here] at absent
        cases absent
  refine builds_bind (Q := Begun broken eof) (builds_grow_from first ?_ ?_)
    fun v tops rest begun => builds_pure ?_
  · rintro _ tops rest ⟨k, rfl, member, only⟩ stays
    exact ⟨⟨member, by simpa using stays⟩, only⟩
  · intro v tops rest k before found
    obtain ⟨other, rfl⟩ : seen eof rest ≠ .rightBrace ∧ v = some k := by simpa using found
    obtain ⟨member, rfl⟩ : Category.expr.members.contains k = true ∧ tops = [k] := by
      rcases before with ⟨_, same, chosen⟩ | ⟨last, _⟩
      · cases same
        exact chosen
      · exact absurd last.2 other
    have expression : (category .expr).Matches [k] := matches_category.mpr ⟨k, member, rfl⟩
    refine ⟨k, rfl, Category.isNode_of_contains member, ?_⟩
    refine builds_bind (builds_statementEnd atEof) fun _ new rest' ended => builds_pure ?_
    rw [List.append_nil]
    refine ⟨rfl, ?_, statementShape_token (by decide), .inr fun _ => ?_⟩
    · rcases ended with rfl | ⟨rfl, rfl | isBroken⟩
      · exact .left (.seq expression .token)
      · exact .right (.left .token)
      · exact .right (.right (derives_spoilt.mpr ⟨isBroken, expression⟩))
    · simp
  · rw [List.append_nil]
    cases v with
    | some e => exact .inr ⟨e, begun⟩
    | none => exact .inl begun

theorem builds_statement (inside : tokens.length < depth) (notEnd : seen eof tokens ≠ .eof) :
    Builds broken eof depth statement tokens fun _ tops rest => Stated broken eof tops rest := by
  apply builds_peekKind_bind
  split
  · next here =>
      refine (yields_take atEof here (by decide)).imp fun _ tops _ fits => .inl ?_
      exact derives_token.mp fits ▸ statementShape_token (by decide)
  · next here =>
      refine (yields_letStatement atEof calls here).imp fun _ tops _ fits => .inl ?_
      exact derives_token.mp fits ▸ statementShape_token (by decide)
  · split
    · refine (yields_discard (calls .item tokens inside fun _ => notEnd)).imp
        fun _ tops _ fits => .inl (.left fits)
    · split
      · next here => exact builds_expressionStatement atEof calls inside here
      · refine (builds_skipToken atEof notEnd).imp fun _ tops _ fits => .inl ?_
        exact .left (.right (derives_spoilt.mpr ⟨fits.1, fits.2 ▸ .token⟩))

def Filled (broken : Bool) (eof : Token) (tops : List Kind) (rest : List Token) : Prop :=
  (many (statementShape broken)).Matches tops ∨
    ∃ before e, Last eof e rest ∧ (many (statementShape broken)).Matches before ∧ tops = before ++ [e]

theorem builds_statements (inside : tokens.length < depth) :
    Builds broken eof depth (loop blockRound) tokens fun _ tops rest => Filled broken eof tops rest := by
  apply builds_loop (I := Filled broken eof) (.inl .none)
  intro tops rest filled within
  apply builds_ifSeesAny
  · intro _
    refine builds_pure ?_
    simpa using filled
  · intro more
    -- In front of another statement no expression was left without a node of a statement.
    have statements : (many (statementShape broken)).Matches tops := by
      rcases filled with statements | ⟨before, e, last, _⟩
      · exact statements
      · rw [last.2] at more
        exact absurd more (by decide)
    refine builds_bind (builds_statement atEof calls (within inside) (ne_eof_of_atEnd more))
      fun _ new rest' stated => builds_pure ?_
    rw [List.append_nil]
    refine ⟨stated.ne_nil, ?_⟩
    rcases stated with fits | ⟨e, last, rfl⟩
    · exact .inl (statements.snoc fits)
    · exact .inr ⟨tops, e, last, statements, rfl⟩

theorem yields_block (here : seen eof tokens = .leftBrace) :
    Yields broken eof depth block tokens (Kind.blockExpr.shape broken) := by
  apply yields_takeKind_bind atEof here (by decide)
  intro rest inside
  refine builds_bind (builds_statements atEof calls inside) fun _ tops rest filled => ?_
  rcases filled with statements | ⟨before, e, last, statements, rfl⟩
  · refine (yields_expect atEof (by decide)).imp fun _ _ _ fits => .seq statements ?_
    rcases derives_due.mp fits with fits | ⟨isBroken, rfl⟩
    · exact .left (.seq (.right .empty) fits)
    · exact missing isBroken
  · refine (yields_expect_here atEof last.2 (by decide)).imp fun _ _ _ fits => ?_
    rw [List.append_assoc]
    exact .seq statements (.left (.seq (.left (matches_category.mpr ⟨e, last.1, rfl⟩)) fits))

theorem yields_expectBlock :
    Yields broken eof depth expectBlock tokens (due broken (token .blockExpr)) := by
  apply builds_ifSees
  · intro here
    exact (yields_node rfl (yields_block atEof calls here)).weaken fun _ fits => fits.due
  · intro _
    exact builds_report missing

-- The last comma may have nothing behind it.
theorem yields_furtherFields : Yields broken eof depth (loop furtherField) tokens
    (row [many (row [token .comma, part broken (category .expr)]), opt (token .comma)]) := by
  apply builds_loop (I := fun tops _ =>
    (many (row [token .comma, part broken (category .expr)])).Matches tops) .none
  intro tops rest before _
  apply builds_ifEat atEof (by decide)
  · intro _ rest inside
    apply builds_ifSeesAny
    · intro _
      exact builds_pure (.seq before (.left .token))
    · intro _
      refine builds_bind (yields_innerExpression calls inside) fun v new _ fits => builds_pure ?_
      have both := before.snoc (.seq .token fits)
      rw [List.append_nil]
      split
      · exact ⟨by simp, both⟩
      · rw [← (tops ++ _).append_nil]
        exact .seq both (.right .empty)
  · intro _
    exact builds_pure (.seq before (.right .empty))

theorem builds_parenthesizedRest {first : List Kind} (fits : (part broken (category .expr)).Matches first) :
    Builds broken eof depth parenthesizedRest tokens fun v tops _ => ∃ k, v = some k ∧
      Category.expr.members.contains k = true ∧ k.isNode = true ∧
        (k.shape broken).Matches (.leftParen :: (first ++ tops)) := by
  apply builds_ifSees
  · intro _
    refine builds_bind (yields_furtherFields atEof calls) fun _ more _ further => ?_
    refine builds_bind (yields_expect atEof (by decide)) fun _ closed _ closing => ?_
    refine builds_pure ⟨.tupleExpr, rfl, rfl, rfl, ?_⟩
    obtain ⟨_, _, rfl, fields, comma⟩ := derives_seq.mp further
    rw [List.append_nil, List.append_assoc]
    exact .right (.seq .token (.seq fits (.seq fields (.seq comma closing))))
  · intro _
    refine builds_bind (yields_expect atEof (by decide)) fun _ closed _ closing => ?_
    refine builds_pure ⟨.parenExpr, rfl, rfl, rfl, ?_⟩
    rw [List.append_nil]
    exact .seq .token (.seq fits closing)

theorem builds_parenthesized (here : seen eof tokens = .leftParen) {missing : Form Empty} :
    Builds broken eof depth parenthesized tokens fun v tops _ => Chosen .expr missing v tops := by
  apply builds_wrap
  refine builds_bind (Q := fun v tops _ => ∃ k, v = some k ∧
    Category.expr.members.contains k = true ∧ k.isNode = true ∧ (k.shape broken).Matches tops) ?_ ?_
  · apply builds_takeKind_bind atEof here (by decide)
    intro rest inside
    apply builds_ifEat atEof (by decide)
    · intro _ _ _
      refine builds_pure ⟨.tupleExpr, rfl, rfl, rfl, ?_⟩
      exact .left (.seq .token .token)
    · intro _
      refine builds_bind (yields_discard (yields_innerExpression calls inside))
        fun _ first _ fits => ?_
      exact builds_parenthesizedRest atEof calls fits
  · rintro _ tops rest ⟨k, rfl, member, isNode, fits⟩
    refine builds_pure ?_
    rw [List.append_nil]
    exact ⟨k, rfl, isNode, fits, member, rfl⟩

theorem builds_primary (other : seen eof tokens ≠ .ampersand) :
    Builds broken eof depth primary tokens fun v tops _ =>
      Chosen .expr (absentExpression broken (seen eof tokens)) v tops := by
  apply builds_peekKind_bind
  split
  · next here => exact builds_made rfl rfl (yields_path atEof here)
  · next here => exact builds_parenthesized atEof calls here
  · next here => exact builds_made rfl rfl (yields_block atEof calls here)
  · split
    · next here => exact builds_made rfl rfl (yields_literal atEof here)
    · refine builds_bind (builds_skipUnless atEof) fun _ _ _ fits => builds_pure ?_
      rw [List.append_nil]
      refine derives_absentExpression.mpr ⟨?_, fits⟩
      simp_all [expressionFirst, KindSet.contains_ofList]

theorem builds_postfixed (other : seen eof tokens ≠ .ampersand) :
    Builds broken eof depth postfixed tokens fun v tops _ =>
      Chosen .expr (absentExpression broken (seen eof tokens)) v tops := by
  refine builds_grow (builds_primary atEof calls other) fun v tops rest _ chosen found => ?_
  obtain ⟨⟨operand, rfl⟩, here⟩ : (∃ k, v = some k) ∧ seen eof rest = .leftParen := by
    simpa [Option.isSome_iff_exists] using (Option.ite_none_right_eq_some.mp found).1
  refine ⟨operand, chosen.2, Category.isNode_of_contains chosen.1, ?_⟩
  refine builds_bind (yields_arguments atEof calls here) fun _ new _ fits => builds_pure ?_
  rw [List.append_nil]
  refine ⟨rfl, ?_, ⟨rfl, rfl⟩, .inl (fits.ne_nil rfl)⟩
  exact .seq (matches_category.mpr ⟨operand, chosen.1, rfl⟩) fits

theorem yields_refExpression (here : seen eof tokens = .ampersand) :
    Yields broken eof depth refExpression tokens (Kind.refExpr.shape broken) := by
  apply yields_take_bind atEof here (by decide)
  intro rest inside
  refine yields_bind_inside inside (yields_discard (yields_eat atEof (by decide)))
    fun _ rest inside => ?_
  exact yields_discard ((calls .unary rest inside nofun).imp fun _ _ _ chosen => chosen.part)

theorem builds_unary : Builds broken eof depth unary tokens fun v tops _ =>
    Chosen .expr (absentExpression broken (seen eof tokens)) v tops := by
  apply builds_ifSees
  · intro here
    exact builds_made rfl rfl (yields_refExpression atEof calls here)
  · intro other
    exact builds_postfixed atEof calls other

theorem builds_expression {least : Nat} :
    Builds broken eof depth (expression least) tokens fun v tops _ =>
      Chosen .expr (absentExpression broken (seen eof tokens)) v tops := by
  refine builds_grow (builds_unary atEof calls) fun v tops rest level chosen found => ?_
  cases v with
  | none => cases found
  | some operand =>
      have operator : (ahead eof rest).level = some level := (Option.filter_eq_some_iff.mp found).1
      have here := seen_of_ahead_level operator
      refine ⟨operand, chosen.2, Category.isNode_of_contains chosen.1, ?_⟩
      apply builds_take_bind atEof here (by decide)
      intro rest' inside
      refine builds_bind (yields_discard (yields_operand calls inside))
        fun _ new _ fits => builds_pure ?_
      rw [List.append_nil]
      refine ⟨rfl, ?_, ⟨rfl, rfl⟩, .inl (by simp)⟩
      exact .seq (matches_category.mpr ⟨operand, chosen.1, rfl⟩) (.seq .token fits)

end Rule

end LosslessTree
