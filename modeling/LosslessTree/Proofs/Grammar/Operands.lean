import LosslessTree.Proofs.Grammar.Accepting
import LosslessTree.Proofs.Grammar.Spelling

set_option autoImplicit false

namespace LosslessTree.Rule

open Form LosslessTree.Symbol

abbrev operations : Form Symbol := many (row [token .binaryOperator, symbol .unary])

variable {eof : Token} {tokens rest : List Token}

-- What an operand would go on with.
def operandMore : List Kind := [.doubleColon, .leftParen]

-- What an expression would go on with.
def expressionMore : List Kind := .binaryOperator :: operandMore

abbrev Climbs (eof : Token) (least : Nat) (tokens rest : List Token) : Prop :=
  Passes eof (expression least) tokens fun kind _ middle =>
    kind.isSome = true ∧ Spells operations middle rest ∧
      (ahead eof middle).level.filter (least ≤ ·) = none

abbrev statements : Form Symbol := row [many (symbol .stmt), opt (symbol .expr)]

-- What is nested is read if there are fewer tokens than so many.
structure Nested (eof : Token) (n : Nat) : Prop where
  item : ∀ {tokens rest}, tokens.length < n → Spells (symbol .item) tokens rest →
    Finds eof item tokens rest
  block : ∀ {tokens rest}, tokens.length < n → Spells (symbol .block) tokens rest →
    Reads eof block tokens rest
  unary : ∀ {tokens rest}, tokens.length < n → Spells (symbol .unary) tokens rest →
    seen eof rest ∉ operandMore → Finds eof unary tokens rest
  expression : ∀ {least tokens rest}, tokens.length < n → Spells (symbol .expr) tokens rest →
    seen eof rest ∉ expressionMore → Climbs eof least tokens rest

-- Every operator binds tighter than nothing.
theorem operations_end (h : Spells operations tokens rest)
    (loose : (ahead eof tokens).level.filter (1 ≤ ·) = none) : tokens = rest := by
  rcases spells_many.mp h with rfl | ⟨_, one, _⟩
  · rfl
  · obtain ⟨_, operator, _⟩ := spells_seq.mp one
    obtain ⟨t, rfl, kind, lexed⟩ := spells_token.mp operator
    obtain ⟨level, found, -, pos⟩ := lexed.operator_level kind
    change t.lookahead.level.filter _ = none at loose
    simp [found] at loose
    omega

theorem level_of_other (other : seen eof tokens ≠ .binaryOperator) :
    (ahead eof tokens).level = none := by
  cases found : (ahead eof tokens).level with
  | none => rfl
  | some => exact absurd (seen_of_ahead_level found) other

abbrev furtherFields : Form Symbol :=
  row [many (row [token .comma, symbol .expr]), opt (token .comma)]

theorem comma_or_rest (eof : Token) (h : Spells furtherFields tokens rest) :
    seen eof tokens = .comma ∨ tokens = rest := by
  obtain ⟨middle, fields, last⟩ := spells_seq.mp h
  rcases spells_many.mp fields with rfl | ⟨_, one, _⟩
  · rcases spells_opt.mp last with comma | rfl
    · obtain ⟨t, rfl, kind, _⟩ := spells_token.mp comma
      exact .inl kind
    · exact .inr rfl
  · obtain ⟨_, comma, _⟩ := spells_seq.mp one
    obtain ⟨t, rfl, kind, _⟩ := spells_token.mp comma
    exact .inl kind

section Statements

variable {Q : Unit → Forest → List Token → Prop}

theorem passes_statement_item (here : itemFirst.contains (seen eof tokens) = true) :
    Passes eof statement tokens Q ↔
      Passes eof item tokens fun _ parts rest => Q () parts rest := by
  simp only [statement, passes_bind, passes_peekKind]
  generalize seen eof tokens = k at here
  cases k <;> first
    | exact passes_discard.trans passes_call
    | exact absurd here (by decide)

theorem passes_statement_expression (here : expressionFirst.contains (seen eof tokens) = true) :
    Passes eof statement tokens Q ↔ Passes eof expressionStatement tokens Q := by
  simp only [statement, passes_bind, passes_peekKind]
  generalize seen eof tokens = k at here
  cases k <;> first
    | exact Iff.rfl
    | exact absurd here (by decide)

theorem expressionStatement_last
    (h : Passes eof innerExpression tokens fun _ parts rest =>
      seen eof rest = .rightBrace ∧ Q () parts rest) :
    Passes eof expressionStatement tokens Q := by
  rw [expressionStatement, passes_discard, passes_grow]
  refine h.imp ?_
  rintro kind _ _ ⟨brace, ends⟩
  exact .last (by simp [brace]) ends

theorem expressionStatement_ended
    (h : Passes eof innerExpression tokens fun kind parts rest =>
      seen eof rest ≠ .rightBrace ∧ ∃ k, kind = some k ∧
        Passes eof (statementEnd k) rest fun _ parts' left =>
          Q () (.node .exprStmt (parts ++ parts') .nil) left) :
    Passes eof expressionStatement tokens Q := by
  rw [expressionStatement, passes_discard, passes_grow]
  refine h.imp ?_
  rintro _ _ left ⟨brace, k, rfl, ended⟩
  have goes : (seen eof left == Kind.rightBrace) = false := by simpa using brace
  refine .grown (b := k) (by simp [goes]) ?_
  rw [passes_bind]
  refine ended.imp fun _ _ _ ends => ?_
  rw [passes_pure, Forest.append_nil]
  exact .last (by simp) ends

end Statements

-- A block alone is an expression.
theorem finds_block {after : List Token} (inside : Reads eof block tokens after)
    (one : Spells (symbol .block) tokens after) (behind : seen eof after ∉ expressionMore) :
    Passes eof innerExpression tokens fun kind _ left => kind = some .blockExpr ∧ left = after := by
  simp only [expressionMore, operandMore, List.mem_cons, List.not_mem_nil, or_false, not_or] at behind
  obtain ⟨noOperator, _, noCall⟩ := behind
  obtain ⟨_, opens, _⟩ := spells_seq.mp (spells_symbol.mp one)
  obtain ⟨t, rfl, kind, _⟩ := spells_token.mp opens
  simp only [innerExpression, passes_call, Production.rule, expression, passes_grow, unary,
    passes_bind, passes_sees, seen_cons, kind, beq_iff_eq, reduceCtorEq, if_false, postfixed,
    primary, passes_peekKind, passes_made]
  refine inside.imp ?_
  rintro _ _ _ rfl
  exact .last (by simp [noCall]) (.last (by simp [level_of_other noOperator]) ⟨rfl, rfl⟩)

-- Parentheses behind a block are the first arguments of the expression that the block starts.
theorem expr_of_called {middle : List Token} (called : Spells (symbol .block) tokens middle)
    (h : Spells (symbol .expr) middle rest) (paren : seen eof middle = .leftParen) :
    Spells (symbol .expr) tokens rest := by
  obtain ⟨behind, operand, operations⟩ := spells_seq.mp (spells_symbol.mp h)
  suffices whole : Spells (symbol .unary) tokens behind from
    spells_symbol.mpr (spells_seq.mpr ⟨behind, whole, operations⟩)
  rcases spells_alt.mp (spells_symbol.mp operand) with reference | call
  · exact absurd paren (reference.seen_ne rfl (by decide))
  obtain ⟨_, inner, calls⟩ := spells_seq.mp call
  rcases spells_alt.mp (spells_symbol.mp inner) with constant | other
  · exact absurd paren (constant.seen_ne rfl (by decide))
  rcases spells_alt.mp other with named | other
  · exact absurd paren (named.seen_ne rfl (by decide))
  rcases spells_alt.mp other with arguments | block
  · have more : Spells (many Symbol.arguments) middle behind :=
      spells_many.mpr (.inr ⟨_, arguments, calls⟩)
    exact spells_symbol.mpr (spells_alt.mpr (.inr (spells_seq.mpr
      ⟨middle, called.sub sub_block, more⟩)))
  · exact absurd paren (block.seen_ne rfl (by decide))

section Behind

variable (closes : seen eof rest = .rightBrace) (h : Spells statements tokens rest)

include closes h

theorem called_of_statements (paren : seen eof tokens = .leftParen) :
    Spells (symbol .expr) tokens rest ∨ ∃ after more, Spells (symbol .expr) tokens after ∧
      Spells (token .semicolon) after more ∧ Spells statements more rest := by
  obtain ⟨_, stmts, last⟩ := spells_seq.mp h
  rcases spells_many.mp stmts with rfl | ⟨_, one, further⟩
  · rcases spells_opt.mp last with value | rfl
    · exact .inl value
    · cases paren.symm.trans closes
  have more := spells_seq.mpr ⟨_, further, last⟩
  rcases spells_alt.mp (spells_symbol.mp one) with semicolon | other
  · exact absurd paren (semicolon.seen_ne rfl (by decide))
  rcases spells_alt.mp other with binding | other
  · exact absurd paren (binding.seen_ne rfl (by decide))
  rcases spells_alt.mp other with declared | other
  · exact absurd paren (declared.seen_ne rfl (by decide))
  rcases spells_alt.mp other with value | block
  · obtain ⟨_, value, semicolon⟩ := spells_seq.mp value
    exact .inr ⟨_, _, value, semicolon, more⟩
  · exact absurd paren (block.seen_ne rfl (by decide))

theorem statements_behind_semicolon (semicolon : seen eof tokens = .semicolon) :
    ∃ more, Spells (token .semicolon) tokens more ∧ Spells statements more rest := by
  obtain ⟨_, stmts, last⟩ := spells_seq.mp h
  rcases spells_many.mp stmts with rfl | ⟨_, one, further⟩
  · exact absurd semicolon (last.seen_behind (by decide) (by simp [closes]))
  rcases spells_alt.mp (spells_symbol.mp one) with here | other
  · exact ⟨_, here, spells_seq.mpr ⟨_, further, last⟩⟩
  · exact absurd semicolon (other.seen_ne rfl (by decide))

theorem statements_expressionMore (noCall : seen eof tokens ≠ .leftParen) :
    seen eof tokens ∉ expressionMore := by
  have noPath : seen eof tokens ≠ .doubleColon := h.seen_behind (by decide) (by simp [closes])
  have noOperator : seen eof tokens ≠ .binaryOperator :=
    h.seen_behind (by decide) (by simp [closes])
  simp [expressionMore, operandMore, *]

end Behind

section Nesting

variable {n : Nat} (nested : Nested eof n)

include nested

theorem finds_expression (within : tokens.length < n) (h : Spells (symbol .expr) tokens rest)
    (behind : seen eof rest ∉ expressionMore) : Finds eof innerExpression tokens rest := by
  have climbs : Climbs eof 1 tokens rest := nested.expression within h behind
  rw [Finds, innerExpression, passes_call]
  refine climbs.imp ?_
  rintro _ _ _ ⟨found, operations, loose⟩
  exact ⟨found, operations_end operations loose⟩

theorem reads_initializer (within : tokens.length ≤ n)
    (h : Spells (opt (row [token .equal, symbol .expr])) tokens rest)
    (semicolon : seen eof rest = .semicolon) : Reads eof initializer tokens rest := by
  rcases spells_opt.mp h with value | rfl
  · obtain ⟨_, equal, operand⟩ := spells_seq.mp value
    obtain ⟨t, rfl, kind, _⟩ := spells_token.mp equal
    have found := finds_expression nested within operand (by rw [semicolon]; decide)
    simp only [Reads, initializer, passes_bind, passes_eat, seen_cons, kind, if_true,
      passes_discard, List.tail_cons]
    exact found.imp fun _ _ _ ends => ends.2
  · simp [initializer, semicolon]

theorem reads_arguments (within : tokens.length ≤ n) (h : Spells Symbol.arguments tokens rest) :
    Reads eof arguments tokens rest := by
  rw [Reads, arguments, passes_node]
  refine reads_bracketed rfl (by decide) (by decide) (by decide) h ?_
  intro before after shorter one behind
  have found := finds_expression nested (Nat.lt_of_lt_of_le shorter within) one
    (by rcases behind with b | b <;> rw [b] <;> decide)
  simpa [innerArgument] using found

theorem reads_furtherFields (within : tokens.length ≤ n) {close : Token}
    (closes : close.kind = .rightParen) (h : Spells furtherFields tokens (close :: rest)) :
    Reads eof (loop furtherField) tokens (close :: rest) := by
  obtain ⟨middle, fields, last⟩ := spells_seq.mp h
  refine passes_many (Q := fun left => left = close :: rest) rfl fields ?last ?round
  case last =>
    rcases spells_opt.mp last with comma | rfl
    · obtain ⟨t, rfl, kind, _⟩ := spells_token.mp comma
      simp [furtherField, kind, atEnd, closes, KindSet.contains_ofList]
    · simp [furtherField, closes]
  case round =>
    intro before after inside one further
    have behind : seen eof after = .comma ∨ seen eof after = .rightParen :=
      (comma_or_rest eof (spells_seq.mpr ⟨_, further, last⟩)).imp_right fun same => by rw [same, seen_cons, closes]
    obtain ⟨front, comma, value⟩ := spells_seq.mp one
    obtain ⟨t, rfl, kind, _⟩ := spells_token.mp comma
    have notEnd : (KindSet.ofList [.rightParen, .eof]).contains (seen eof front) = false :=
      value.not_atEnd rfl (by decide)
    have found := finds_expression nested (Nat.le_trans inside within) value
      (by rcases behind with b | b <;> rw [b] <;> decide)
    simp only [furtherField, passes_bind, passes_eat, seen_cons, kind, if_true, List.tail_cons,
      atEnd, passes_seesAny, notEnd, passes_ite, Bool.false_eq_true, if_false, passes_pure]
    exact found

theorem finds_parenthesizedRest (within : tokens.length ≤ n) {close : Token}
    (closes : close.kind = .rightParen) (h : Spells furtherFields tokens (close :: rest)) :
    Finds eof parenthesizedRest tokens rest := by
  simp only [Finds, parenthesizedRest, passes_bind, passes_sees, passes_ite, beq_iff_eq]
  rcases comma_or_rest eof h with comma | rfl
  · rw [if_pos comma]
    refine (reads_furtherFields nested within closes h).imp ?_
    rintro _ _ _ rfl
    simp [closes]
  · simp [closes]

theorem finds_parenthesized (within : tokens.length ≤ n)
    (h : Spells (list .leftParen .rightParen (symbol .expr)) tokens rest) :
    Finds eof parenthesized tokens rest := by
  obtain ⟨start, opens, inside⟩ := spells_seq.mp h
  obtain ⟨o, rfl, _, _⟩ := spells_token.mp opens
  obtain ⟨_, separated, closes⟩ := spells_seq.mp inside
  obtain ⟨c, rfl, closes, _⟩ := spells_token.mp closes
  simp only [Finds, parenthesized, passes_nodeIf, passes_bind, passes_takeKind, List.tail_cons,
    passes_eat]
  rcases spells_opt.mp separated with fields | rfl
  · obtain ⟨middle, first, further⟩ := spells_seq.mp fields
    have notEnd : seen eof start ≠ .rightParen := first.seen_ne rfl (by decide)
    have behind : seen eof middle = .comma ∨ seen eof middle = .rightParen :=
      (comma_or_rest eof further).imp_right fun same => by rw [same, seen_cons, closes]
    simp only [notEnd, Bool.false_eq_true, if_false, passes_bind, passes_discard]
    refine (finds_expression nested within first
      (by rcases behind with b | b <;> rw [b] <;> decide)).imp ?_
    rintro _ _ _ ⟨-, rfl⟩
    exact finds_parenthesizedRest nested
      (Nat.le_trans first.rest_le (Nat.le_of_succ_le within)) closes further
  · simp [closes]

theorem reads_letStatement (within : tokens.length ≤ n)
    (h : Spells (row [token .letKw, symbol .pat, opt (row [token .colon, symbol .type]),
      opt (row [token .equal, symbol .expr]), token .semicolon]) tokens rest) :
    Reads eof letStatement tokens rest := by
  obtain ⟨_, word, h⟩ := spells_seq.mp h
  obtain ⟨_, introduced, h⟩ := spells_seq.mp h
  obtain ⟨afterType, annotation, h⟩ := spells_seq.mp h
  obtain ⟨_, value, semicolon⟩ := spells_seq.mp h
  obtain ⟨w, rfl, _, _⟩ := spells_token.mp word
  obtain ⟨c, rfl, semicolonKind, _⟩ := spells_token.mp semicolon
  have behindType : seen eof afterType = .equal ∨ seen eof afterType = .semicolon := by
    rcases seen_optional eof value rfl rfl with ⟨equal, _⟩ | rfl
    · exact .inl equal
    · exact .inr semicolonKind
  have small : afterType.length ≤ n := by
    have := introduced.rest_le
    have := annotation.rest_le
    simp only [List.length_cons] at within
    omega
  simp only [Reads, letStatement, passes_node, passes_bind, passes_takeKind, List.tail_cons]
  refine (reads_expectPattern introduced).imp ?_
  rintro _ _ _ rfl
  refine (reads_whenSees annotation rfl rfl (fun typed => reads_ascription typed ?_) ?_).imp ?_
  · rcases behindType with b | b <;> simp [b]
  · rcases behindType with b | b <;> simp [b]
  rintro _ _ _ rfl
  refine (reads_initializer nested small value semicolonKind).imp ?_
  rintro _ _ _ rfl
  simp [semicolonKind]

section Rounds

-- The rounds behind the first statement.
variable (later : ∀ {after}, after.length < tokens.length → Spells statements after rest →
  Reads eof (loop blockRound) after rest)

include later

omit nested in
theorem reads_round {after : List Token} {f : Form Symbol} (one : Spells f tokens after)
    (full : f.nullable = false)
    (apart : ∀ k ∈ [.rightBrace, .eof], (f.heads Symbol.heads).contains k = false)
    (more : Spells statements after rest) (stated : Reads eof statement tokens after) :
    Reads eof (loop blockRound) tokens rest := by
  rw [Reads, passes_loop]
  simp only [blockRound, atEnd, passes_bind, passes_seesAny, one.not_atEnd full apart,
    passes_ite, Bool.false_eq_true, if_false, passes_pure, if_true]
  refine stated.imp ?_
  rintro _ _ _ rfl
  exact later (one.rest_lt full) more

theorem reads_last_round (closes : seen eof rest = .rightBrace) (within : tokens.length < n)
    (one : Spells (symbol .expr) tokens rest) : Reads eof (loop blockRound) tokens rest := by
  have none : Spells statements rest rest :=
    spells_seq.mpr ⟨rest, spells_many.mpr (.inl rfl), spells_opt.mpr (.inr rfl)⟩
  apply reads_round later one rfl (by decide) none
  rw [Reads, passes_statement_expression (one.seen_heads rfl)]
  apply expressionStatement_last
  refine (finds_expression nested within one (by rw [closes]; decide)).imp ?_
  rintro _ _ _ ⟨-, rfl⟩
  exact ⟨closes, rfl⟩

theorem reads_value_round {after more : List Token} (within : tokens.length < n)
    (one : Spells (symbol .expr) tokens after) (semicolon : Spells (token .semicolon) after more)
    (further : Spells statements more rest) : Reads eof (loop blockRound) tokens rest := by
  have both := spells_seq.mpr ⟨_, one, semicolon⟩
  apply reads_round later both rfl (by decide) further
  obtain ⟨t, rfl, kind, _⟩ := spells_token.mp semicolon
  rw [Reads, passes_statement_expression (one.seen_heads rfl)]
  apply expressionStatement_ended
  refine (finds_expression nested within one (by rw [seen_cons, kind]; decide)).imp ?_
  rintro _ _ _ ⟨found, rfl⟩
  obtain ⟨k, rfl⟩ := Option.isSome_iff_exists.mp found
  exact ⟨by simp [kind], k, rfl, by simp [statementEnd, kind]⟩

-- Parentheses behind the block make it a callee, a semicolon is part of its statement.
theorem reads_block_round {after : List Token} (closes : seen eof rest = .rightBrace)
    (within : tokens.length < n) (one : Spells (symbol .block) tokens after)
    (more : Spells statements after rest) : Reads eof (loop blockRound) tokens rest := by
  by_cases paren : seen eof after = .leftParen
  · rcases called_of_statements closes more paren with value | ⟨_, _, value, semicolon, further⟩
    · exact reads_last_round nested later closes within (expr_of_called one value paren)
    · exact reads_value_round nested later within (expr_of_called one value paren) semicolon further
  have head : expressionFirst.contains (seen eof tokens) = true :=
    (one.sub (sub_block.trans sub_primary)).seen_heads rfl
  have found : Passes eof innerExpression tokens fun kind _ left =>
      kind = some .blockExpr ∧ left = after :=
    finds_block (nested.block within one) one (statements_expressionMore closes more paren)
  by_cases brace : seen eof after = .rightBrace
  · apply reads_round later one rfl (by decide) more
    rw [Reads, passes_statement_expression head]
    apply expressionStatement_last
    refine found.imp ?_
    rintro _ _ _ ⟨-, rfl⟩
    exact ⟨brace, rfl⟩
  by_cases semicolon : seen eof after = .semicolon
  · obtain ⟨_, here, further⟩ := statements_behind_semicolon closes more semicolon
    apply reads_round later (spells_seq.mpr ⟨_, one, here⟩) rfl (by decide) further
    obtain ⟨t, rfl, kind, _⟩ := spells_token.mp here
    rw [Reads, passes_statement_expression head]
    apply expressionStatement_ended
    refine found.imp ?_
    rintro _ _ _ ⟨rfl, rfl⟩
    exact ⟨brace, _, rfl, by simp [statementEnd, kind]⟩
  · apply reads_round later one rfl (by decide) more
    rw [Reads, passes_statement_expression head]
    apply expressionStatement_ended
    refine found.imp ?_
    rintro _ _ _ ⟨rfl, rfl⟩
    exact ⟨brace, _, rfl, by simp [statementEnd, semicolon]⟩

end Rounds

theorem reads_statements (closes : seen eof rest = .rightBrace) (within : tokens.length < n)
    (h : Spells statements tokens rest) : Reads eof (loop blockRound) tokens rest := by
  induction size : tokens.length using Nat.strongRecOn generalizing tokens with
  | ind m ih =>
      have later {after : List Token} (shorter : after.length < tokens.length)
          (more : Spells statements after rest) : Reads eof (loop blockRound) after rest :=
        ih _ (size ▸ shorter) (by omega) more rfl
      obtain ⟨middle, stmts, last⟩ := spells_seq.mp h
      rcases spells_many.mp stmts with rfl | ⟨after, one, further⟩
      · rcases spells_opt.mp last with value | rfl
        · exact reads_last_round nested later closes within value
        · rw [Reads, passes_loop]
          simp [blockRound, atEnd, closes, KindSet.contains_ofList]
      have more : Spells statements after rest := spells_seq.mpr ⟨middle, further, last⟩
      rcases spells_alt.mp (spells_symbol.mp one) with semicolon | other
      · apply reads_round later semicolon rfl (by decide) more
        obtain ⟨t, rfl, kind, _⟩ := spells_token.mp semicolon
        simp [statement, kind]
      rcases spells_alt.mp other with binding | other
      · apply reads_round later binding rfl (by decide) more
        have introduced := reads_letStatement nested (Nat.le_of_lt within) binding
        obtain ⟨_, word, _⟩ := spells_seq.mp binding
        obtain ⟨t, rfl, kind, _⟩ := spells_token.mp word
        simpa [statement, kind] using introduced
      rcases spells_alt.mp other with declared | other
      · apply reads_round later declared rfl (by decide) more
        rw [Reads, passes_statement_item (declared.seen_heads rfl)]
        refine (nested.item within declared).imp ?_
        rintro _ _ _ ⟨-, rfl⟩
        rfl
      rcases spells_alt.mp other with both | block
      · obtain ⟨_, value, semicolon⟩ := spells_seq.mp both
        exact reads_value_round nested later within value semicolon more
      · exact reads_block_round nested later closes within block more

theorem reads_block (within : tokens.length ≤ n) (h : Spells (symbol .block) tokens rest) :
    Reads eof block tokens rest := by
  obtain ⟨_, opens, inside⟩ := spells_seq.mp (spells_symbol.mp h)
  obtain ⟨o, rfl, _, _⟩ := spells_token.mp opens
  obtain ⟨middle, stmts, inside⟩ := spells_seq.mp inside
  obtain ⟨_, value, closes⟩ := spells_seq.mp inside
  obtain ⟨c, rfl, kind, _⟩ := spells_token.mp closes
  simp only [Reads, block, passes_bind, passes_takeKind, List.tail_cons]
  refine (reads_statements nested (by exact kind) within (spells_seq.mpr ⟨_, stmts, value⟩)).imp ?_
  rintro _ _ _ rfl
  simp [kind]

-- A name may only go on in double colons, whatever stands behind another primary.
theorem finds_primary (within : tokens.length ≤ n) (h : Spells (symbol .primary) tokens rest)
    (behind : seen eof rest ≠ .doubleColon) : Finds eof primary tokens rest := by
  rcases spells_alt.mp (spells_symbol.mp h) with constant | other
  · obtain ⟨t, rfl, kind, _⟩ := spells_oneOf.mp constant
    simp only [List.mem_cons, List.not_mem_nil, or_false] at kind
    rcases kind with kind | kind | kind | kind | kind <;>
      simp [primary, kind, literalFirst, KindSet.contains_ofList]
  rcases spells_alt.mp other with named | other
  · obtain ⟨_, ident, _⟩ := spells_seq.mp (spells_symbol.mp named)
    obtain ⟨t, rfl, kind, _⟩ := spells_token.mp ident
    simpa [primary, kind] using reads_path named behind
  rcases spells_alt.mp other with fields | block
  · have found := finds_parenthesized nested within fields
    obtain ⟨_, opens, _⟩ := spells_seq.mp fields
    obtain ⟨t, rfl, kind, _⟩ := spells_token.mp opens
    simpa [primary, kind] using found
  · have inside := reads_block nested within block
    obtain ⟨_, opens, _⟩ := spells_seq.mp (spells_symbol.mp block)
    obtain ⟨t, rfl, kind, _⟩ := spells_token.mp opens
    simpa [primary, kind] using inside

theorem finds_calls {kind : Option Kind} {parts : Forest} (found : kind.isSome = true)
    (within : tokens.length ≤ n) (h : Spells (many Symbol.arguments) tokens rest)
    (behind : seen eof rest ≠ .leftParen) :
    PassesOn eof (fun kind ahead => if kind.isSome && ahead.kind == .leftParen then some () else none)
      (fun _ => do arguments; return (.callExpr, some .callExpr)) kind parts tokens
      fun kind _ left => kind.isSome = true ∧ left = rest := by
  induction size : tokens.length using Nat.strongRecOn generalizing tokens kind parts with
  | ind m ih =>
      rcases spells_many.mp h with rfl | ⟨after, one, further⟩
      · exact .last (by simp [behind]) ⟨found, rfl⟩
      · have shorter := one.rest_lt rfl
        have paren : seen eof tokens = .leftParen := one.seen_eq rfl rfl
        refine .grown (b := ()) (by simp [found, paren]) ?_
        rw [passes_bind]
        refine (reads_arguments nested within one).imp ?_
        rintro _ _ _ rfl
        rw [passes_pure]
        exact ih _ (size ▸ shorter) rfl (by omega) further rfl

theorem finds_unary (within : tokens.length ≤ n) (h : Spells (symbol .unary) tokens rest)
    (behind : seen eof rest ∉ operandMore) : Finds eof unary tokens rest := by
  simp only [operandMore, List.mem_cons, List.not_mem_nil, or_false, not_or] at behind
  obtain ⟨noPath, noCall⟩ := behind
  simp only [Finds, unary, passes_bind, passes_sees, passes_ite, beq_iff_eq]
  rcases spells_alt.mp (spells_symbol.mp h) with reference | call
  · obtain ⟨_, ampersand, referent⟩ := spells_seq.mp reference
    obtain ⟨t, rfl, kind, _⟩ := spells_token.mp ampersand
    simp only [seen_cons, kind, if_true, passes_made, refExpression, passes_bind, passes_take,
      List.tail_cons]
    refine reads_optional rfl (by decide) referent fun _ before shorter one => ?_
    rw [passes_discard, passes_call]
    have found := nested.unary (Nat.lt_of_le_of_lt shorter within) one
      (by simp [operandMore, noPath, noCall])
    refine found.imp ?_
    rintro _ _ _ ⟨-, rfl⟩
    exact ⟨rfl, rfl⟩
  · obtain ⟨middle, inner, calls⟩ := spells_seq.mp call
    rw [if_neg (inner.seen_ne rfl (by decide)), postfixed, passes_grow]
    have noPath' : seen eof middle ≠ .doubleColon := calls.seen_behind (by decide) noPath
    refine (finds_primary nested within inner noPath').imp ?_
    rintro _ _ _ ⟨found, rfl⟩
    exact finds_calls nested found (Nat.le_trans inner.rest_le within) calls noCall

theorem climbs_on {least : Nat} {kind : Option Kind} {parts : Forest} (found : kind.isSome = true)
    (within : tokens.length ≤ n) (h : Spells operations tokens rest)
    (behind : seen eof rest ∉ expressionMore) :
    PassesOn eof
      (fun kind ahead => if kind.isSome then ahead.level.filter (least ≤ ·) else none)
      (fun level => do
        take
        discard (call (.expression (level + 1)))
        return (.binaryExpr, some .binaryExpr))
      kind parts tokens fun kind _ middle => kind.isSome = true ∧ Spells operations middle rest ∧
        (ahead eof middle).level.filter (least ≤ ·) = none := by
  induction size : tokens.length using Nat.strongRecOn generalizing tokens kind parts with
  | ind m ih =>
      cases tight : (ahead eof tokens).level.filter (least ≤ ·) with
      | none => exact .last (by simpa [found] using tight) ⟨found, h, tight⟩
      | some level =>
          refine .grown (b := level) (by simpa [found] using tight) ?_
          have operator : seen eof tokens = .binaryOperator :=
            seen_of_ahead_level (Option.filter_eq_some_iff.mp tight).1
          rcases spells_many.mp h with rfl | ⟨after, one, further⟩
          · exact absurd (operator ▸ List.mem_cons_self) behind
          obtain ⟨front, sign, operand⟩ := spells_seq.mp one
          obtain ⟨t, rfl, _, _⟩ := spells_token.mp sign
          have expr : Spells (symbol .expr) front rest :=
            spells_symbol.mpr (spells_seq.mpr ⟨_, operand, further⟩)
          simp only [passes_bind, passes_take, List.tail_cons, passes_discard, passes_call,
            passes_pure]
          have climbs : Climbs eof (level + 1) front rest := nested.expression within expr behind
          refine climbs.rest_le.imp ?_
          rintro _ _ left ⟨shorter, -, more, -⟩
          have less : left.length < m := size ▸ Nat.lt_succ_of_le shorter
          exact ih _ less rfl (by omega) more rfl

theorem climbs_expression {least : Nat} (within : tokens.length ≤ n)
    (h : Spells (symbol .expr) tokens rest) (behind : seen eof rest ∉ expressionMore) :
    Climbs eof least tokens rest := by
  obtain ⟨middle, operand, operations⟩ := spells_seq.mp (spells_symbol.mp h)
  rw [Climbs, expression, passes_grow]
  have behind' : seen eof middle ∉ operandMore := by
    simp only [expressionMore, operandMore, List.mem_cons, List.not_mem_nil, or_false, not_or] at *
    exact ⟨operations.seen_behind (by decide) behind.2.1,
      operations.seen_behind (by decide) behind.2.2⟩
  refine (finds_unary nested within operand behind').imp ?_
  rintro _ _ _ ⟨found, rfl⟩
  exact climbs_on nested found (Nat.le_trans operand.rest_le within) operations behind

end Nesting

end LosslessTree.Rule
