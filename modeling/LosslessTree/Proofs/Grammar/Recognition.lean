import LosslessTree.Proofs.Grammar.Operands
import LosslessTree.Proofs.Grammar.Wholeness

set_option autoImplicit false

namespace LosslessTree.Rule

open Form LosslessTree.Symbol

variable {eof : Token} {tokens middle rest : List Token}

theorem reads_expectPath (h : Spells (symbol .path) tokens rest)
    (behind : seen eof rest ≠ .doubleColon) : Reads eof expectPath tokens rest := by
  have ident : seen eof tokens = .ident := h.seen_eq rfl rfl
  simpa [expectPath, ident] using reads_path h behind

theorem passes_attr (h : Spells (symbol .attr) tokens rest) :
    Passes eof attr tokens fun inner _ left =>
      inner = (seen eof tokens.tail == .bang) ∧ left = rest := by
  obtain ⟨_, hash, h⟩ := spells_seq.mp (spells_symbol.mp h)
  obtain ⟨mark, optional, body⟩ := spells_seq.mp h
  obtain ⟨inside, opens, h⟩ := spells_seq.mp body
  obtain ⟨_, named, closes⟩ := spells_seq.mp h
  obtain ⟨t, rfl, _, _⟩ := spells_token.mp hash
  obtain ⟨o, rfl, openKind, _⟩ := spells_token.mp opens
  obtain ⟨c, rfl, closeKind, _⟩ := spells_token.mp closes
  have bodied : Reads eof attrBody (o :: inside) rest := by
    simp only [Reads, attrBody, passes_bind, passes_eat, seen_cons, openKind, if_true,
      List.tail_cons]
    refine (reads_expectPath named (by simp [closeKind])).imp ?_
    rintro _ _ _ rfl
    simp [closeKind]
  simp only [attr, passes_wrap, passes_bind, passes_takeKind, List.tail_cons, passes_eat,
    passes_pure]
  rcases spells_opt.mp optional with bang | rfl
  · obtain ⟨b, rfl, bangKind, _⟩ := spells_token.mp bang
    simpa [bangKind] using bodied
  · simpa [openKind] using bodied

theorem reads_prelude (attrs : Spells (many (symbol .attr)) tokens middle)
    (visibility : Spells (opt (token .pubKw)) middle rest) (noAttr : seen eof rest ≠ .hash)
    (noPub : seen eof rest ≠ .pubKw) : Reads eof prelude tokens rest := by
  rw [Reads, prelude, passes_bind]
  refine (passes_many (Q := fun left => left = middle) rfl attrs ?last ?round).imp ?_
  case last =>
    have other : seen eof middle ≠ .hash := visibility.seen_behind (by decide) noAttr
    simp [attrRound, other]
  case round =>
    intro before after _ one _
    have hash : seen eof before = .hash := one.seen_eq rfl rfl
    simp only [attrRound, passes_bind, passes_sees, hash, beq_self_eq_true, if_true,
      passes_discard, passes_pure]
    refine (passes_attr one).imp ?_
    rintro _ _ _ ⟨-, rfl⟩
    exact ⟨trivial, rfl⟩
  rintro _ _ _ rfl
  refine reads_whenSees visibility rfl rfl (fun here => ?_) noPub
  obtain ⟨t, rfl, _, _⟩ := spells_token.mp here
  simp

theorem reads_ascriptionOr {missing : Problem}
    (h : Spells (row [token .colon, symbol .type]) tokens rest)
    (behind : seen eof rest ≠ .doubleColon) : Reads eof (ascriptionOr missing) tokens rest := by
  have colon : seen eof tokens = .colon := h.seen_eq rfl rfl
  simpa [ascriptionOr, colon] using reads_ascription h behind

theorem reads_parameters (h : Spells (list .leftParen .rightParen (symbol .param)) tokens rest) :
    Reads eof parameters tokens rest := by
  have paren : seen eof tokens = .leftParen := h.seen_eq rfl rfl
  simp only [Reads, parameters, passes_bind, passes_sees, paren, beq_self_eq_true, if_true,
    passes_node]
  refine reads_bracketed rfl (by decide) (by decide) (by decide) h ?_
  intro before after _ one behind
  have first : patternFirst.contains (seen eof before) = true := one.seen_heads rfl
  obtain ⟨_, introduced, annotation⟩ := spells_seq.mp (spells_symbol.mp one)
  simp only [parameter, passes_bind, passes_seesAny, first, if_true, passes_node, passes_discard,
    passes_pure]
  refine (finds_pattern introduced).imp ?_
  rintro _ _ _ ⟨-, rfl⟩
  refine (reads_ascriptionOr annotation (by rcases behind with b | b <;> simp [b])).imp ?_
  rintro _ _ _ rfl
  exact ⟨trivial, rfl⟩

theorem reads_fields (h : Spells (list .leftBrace .rightBrace (symbol .field)) tokens rest) :
    Reads eof fields tokens rest := by
  rw [Reads, fields, passes_node]
  refine reads_bracketed rfl (by decide) (by decide) (by decide) h ?_
  intro before after _ one behind
  have first : fieldFirst.contains (seen eof before) = true := one.seen_heads rfl
  obtain ⟨_, attrs, h⟩ := spells_seq.mp (spells_symbol.mp one)
  obtain ⟨_, visibility, h⟩ := spells_seq.mp h
  obtain ⟨_, named, annotation⟩ := spells_seq.mp h
  simp only [field, passes_bind, passes_seesAny, first, if_true, passes_node, passes_pure]
  refine (reads_prelude attrs visibility (named.seen_ne rfl (by decide))
    (named.seen_ne rfl (by decide))).imp ?_
  rintro _ _ _ rfl
  refine (reads_name named).imp ?_
  rintro _ _ _ rfl
  refine (reads_ascriptionOr annotation (by rcases behind with b | b <;> simp [b])).imp ?_
  rintro _ _ _ rfl
  exact ⟨trivial, rfl⟩

theorem reads_structItem (h : Spells (row [token .structKw, token .ident,
      alt (token .semicolon) (list .leftBrace .rightBrace (symbol .field))]) tokens rest) :
    Reads eof structItem tokens rest := by
  obtain ⟨_, word, h⟩ := spells_seq.mp h
  obtain ⟨behind, named, body⟩ := spells_seq.mp h
  obtain ⟨w, rfl, _, _⟩ := spells_token.mp word
  simp only [Reads, structItem, passes_bind, passes_takeKind, List.tail_cons]
  refine (reads_name named).imp ?_
  rintro _ _ left rfl
  simp only [structBody, passes_bind, passes_peekKind]
  rcases spells_alt.mp body with semicolon | body
  · obtain ⟨t, rfl, kind, _⟩ := spells_token.mp semicolon
    simp [kind]
  · have brace : seen eof left = .leftBrace := body.seen_eq rfl rfl
    simpa [brace] using reads_fields body

theorem reads_useItem (h : Spells (row [token .useKw, symbol .path, token .semicolon]) tokens rest) :
    Reads eof useItem tokens rest := by
  obtain ⟨_, word, h⟩ := spells_seq.mp h
  obtain ⟨_, named, semicolon⟩ := spells_seq.mp h
  obtain ⟨w, rfl, _, _⟩ := spells_token.mp word
  obtain ⟨c, rfl, kind, _⟩ := spells_token.mp semicolon
  simp only [Reads, useItem, passes_bind, passes_takeKind, List.tail_cons]
  refine (reads_expectPath named (by simp [kind])).imp ?_
  rintro _ _ _ rfl
  simp [kind]

section Nesting

variable {n : Nat} (nested : Nested eof n) (within : tokens.length ≤ n)

include nested within

theorem reads_fnItem (h : Spells (row [token .fnKw, token .ident,
      list .leftParen .rightParen (symbol .param), opt (row [token .arrow, symbol .type]),
      alt (token .semicolon) (symbol .block)]) tokens rest) : Reads eof fnItem tokens rest := by
  obtain ⟨_, word, h⟩ := spells_seq.mp h
  obtain ⟨_, named, h⟩ := spells_seq.mp h
  obtain ⟨_, params, h⟩ := spells_seq.mp h
  obtain ⟨behind, returned, body⟩ := spells_seq.mp h
  obtain ⟨w, rfl, _, _⟩ := spells_token.mp word
  have noPath : seen eof behind ≠ .doubleColon := body.seen_ne rfl (by decide)
  have noArrow : seen eof behind ≠ .arrow := body.seen_ne rfl (by decide)
  have small : behind.length ≤ n := by
    have := named.rest_le
    have := params.rest_le
    have := returned.rest_le
    simp only [List.length_cons] at within
    omega
  simp only [Reads, fnItem, passes_bind, passes_takeKind, List.tail_cons]
  refine (reads_name named).imp ?_
  rintro _ _ _ rfl
  refine (reads_parameters params).imp ?_
  rintro _ _ _ rfl
  refine (reads_whenSees returned rfl rfl (fun here => ?_) noArrow).imp ?_
  · obtain ⟨_, arrow, annotation⟩ := spells_seq.mp here
    obtain ⟨t, rfl, _, _⟩ := spells_token.mp arrow
    simpa [Reads] using reads_expectType annotation noPath
  rintro _ _ left rfl
  simp only [fnBody, passes_bind, passes_eat]
  rcases spells_alt.mp body with semicolon | body
  · obtain ⟨t, rfl, kind, _⟩ := spells_token.mp semicolon
    simp [kind]
  · have brace : seen eof left = .leftBrace := body.seen_eq rfl rfl
    simpa [brace, expectBlock] using reads_block nested small body

theorem reads_constItem (h : Spells (row [token .constKw, token .ident, token .colon,
      symbol .type, opt (row [token .equal, symbol .expr]), token .semicolon]) tokens rest) :
    Reads eof constItem tokens rest := by
  obtain ⟨_, word, h⟩ := spells_seq.mp h
  obtain ⟨_, named, h⟩ := spells_seq.mp h
  obtain ⟨_, colon, h⟩ := spells_seq.mp h
  obtain ⟨behind, annotation, h⟩ := spells_seq.mp h
  obtain ⟨_, value, semicolon⟩ := spells_seq.mp h
  obtain ⟨w, rfl, _, _⟩ := spells_token.mp word
  obtain ⟨c, rfl, semicolonKind, _⟩ := spells_token.mp semicolon
  have noPath : seen eof behind ≠ .doubleColon :=
    value.seen_behind (by decide) (by simp [semicolonKind])
  have small : behind.length ≤ n := by
    have := named.rest_le
    have := colon.rest_le
    have := annotation.rest_le
    simp only [List.length_cons] at within
    omega
  simp only [Reads, constItem, passes_bind, passes_takeKind, List.tail_cons]
  refine (reads_name named).imp ?_
  rintro _ _ _ rfl
  refine (reads_ascriptionOr (spells_seq.mpr ⟨_, colon, annotation⟩) noPath).imp ?_
  rintro _ _ _ rfl
  refine (reads_initializer nested small value semicolonKind).imp ?_
  rintro _ _ _ rfl
  simp [semicolonKind]

omit within in
theorem reads_items {closing : Kind} (closes : seen eof rest = closing)
    (apart : Symbol.item.heads.contains closing = false) (inside : tokens.length < n)
    (h : Spells (many (symbol .item)) tokens rest) :
    Reads eof (loop (itemRound closing)) tokens rest := by
  refine passes_many (Q := fun left => left = rest) rfl h ?last ?round
  case last => simp [itemRound, atEnd, closes, KindSet.contains_ofList]
  case round =>
    intro before after shorter one _
    have goes : (KindSet.ofList [closing, .eof]).contains (seen eof before) = false :=
      one.not_atEnd rfl (by simpa using ⟨apart, by decide⟩)
    simp only [itemRound, atEnd, passes_bind, passes_seesAny, goes, Bool.false_eq_true, if_false,
      passes_discard, passes_call, passes_pure]
    refine (nested.item (by omega) one).imp ?_
    rintro _ _ _ ⟨-, rfl⟩
    exact ⟨trivial, rfl⟩

theorem reads_modItem (h : Spells (row [token .modKw, token .ident, alt (token .semicolon)
      (row [token .leftBrace, many (symbol .item), token .rightBrace])]) tokens rest) :
    Reads eof modItem tokens rest := by
  obtain ⟨_, word, h⟩ := spells_seq.mp h
  obtain ⟨behind, named, body⟩ := spells_seq.mp h
  obtain ⟨w, rfl, _, _⟩ := spells_token.mp word
  have shorter := named.rest_le
  simp only [List.length_cons] at within
  simp only [Reads, modItem, passes_bind, passes_takeKind, List.tail_cons]
  refine (reads_name named).imp ?_
  rintro _ _ left rfl
  simp only [modBody, passes_bind, passes_sees]
  rcases spells_alt.mp body with semicolon | body
  · obtain ⟨t, rfl, kind, _⟩ := spells_token.mp semicolon
    simp [kind]
  · obtain ⟨_, opens, h⟩ := spells_seq.mp body
    obtain ⟨_, items, closes⟩ := spells_seq.mp h
    obtain ⟨o, rfl, openKind, _⟩ := spells_token.mp opens
    obtain ⟨c, rfl, closeKind, _⟩ := spells_token.mp closes
    simp only [List.length_cons] at shorter
    simp only [seen_cons, openKind, beq_self_eq_true, if_true, itemList, passes_node, passes_bind,
      passes_take, List.tail_cons]
    refine (reads_items nested (by exact closeKind) (by decide) (by omega) items).imp ?_
    rintro _ _ _ rfl
    simp [closeKind]

theorem finds_itemCore (h : Spells (symbol .core) tokens rest) : Finds eof itemCore tokens rest := by
  simp only [Finds, itemCore, passes_bind, passes_peekKind]
  rcases spells_alt.mp (spells_symbol.mp h) with fn | other
  · have word : seen eof tokens = .fnKw := fn.seen_eq rfl rfl
    simpa [word] using reads_fnItem nested within fn
  rcases spells_alt.mp other with struct | other
  · have word : seen eof tokens = .structKw := struct.seen_eq rfl rfl
    simpa [word] using reads_structItem struct
  rcases spells_alt.mp other with const | other
  · have word : seen eof tokens = .constKw := const.seen_eq rfl rfl
    simpa [word] using reads_constItem nested within const
  rcases spells_alt.mp other with use | mod
  · have word : seen eof tokens = .useKw := use.seen_eq rfl rfl
    simpa [word] using reads_useItem use
  · have word : seen eof tokens = .modKw := mod.seen_eq rfl rfl
    simpa [word] using reads_modItem nested within mod

theorem finds_itemRest {begun : Bool} (h : Spells (symbol .item) tokens rest) :
    Finds eof (itemRest begun) tokens rest := by
  obtain ⟨_, attrs, h⟩ := spells_seq.mp (spells_symbol.mp h)
  obtain ⟨behind, visibility, core⟩ := spells_seq.mp h
  have small : behind.length ≤ n := by
    have := attrs.rest_le
    have := visibility.rest_le
    omega
  simp only [Finds, itemRest, passes_bind, passes_seesAny]
  refine (reads_prelude attrs visibility (core.seen_ne rfl (by decide))
    (core.seen_ne rfl (by decide))).imp ?_
  rintro _ _ _ rfl
  refine (finds_itemCore nested small core).imp ?_
  rintro kind _ _ ⟨found, rfl⟩
  have notNone : kind.isNone = false := by simpa using found
  simp [notNone, found]

theorem finds_item (h : Spells (symbol .item) tokens rest) : Finds eof item tokens rest := by
  simp only [Finds, item, passes_bind, passes_nodeIf]
  refine (finds_itemRest nested within h).imp ?_
  rintro kind _ _ ⟨found, rfl⟩
  have notNone : kind.isNone = false := by simpa using found
  simp [notNone, found]

end Nesting

theorem nested (eof : Token) (n : Nat) : Nested eof n := by
  induction n with
  | zero => constructor <;> intros <;> omega
  | succ n ih =>
      constructor
      case item => exact fun within h => finds_item ih (Nat.le_of_lt_succ within) h
      case block => exact fun within h => reads_block ih (Nat.le_of_lt_succ within) h
      case unary => exact fun within h => finds_unary ih (Nat.le_of_lt_succ within) h
      case expression => exact fun within h => climbs_expression ih (Nat.le_of_lt_succ within) h

theorem reads_headRound_inner (h : Spells (symbol .attr) tokens rest)
    (bang : seen eof tokens.tail = .bang) :
    Passes eof headRound tokens fun again _ left => again = true ∧ left = rest := by
  have hash : seen eof tokens = .hash := h.seen_eq rfl rfl
  simp only [headRound, headAttr, passes_bind, passes_sees, hash, beq_self_eq_true, if_true,
    passes_grow, passes_pure]
  refine (passes_attr h).imp ?_
  rintro _ _ _ ⟨rfl, rfl⟩
  exact .last (by simp [bang]) ⟨rfl, rfl⟩

theorem reads_headRound_outer (h : Spells (symbol .attr) tokens middle)
    (noBang : seen eof tokens.tail ≠ .bang) (item : Spells (symbol .item) middle rest) :
    Passes eof headRound tokens fun again _ left => again = false ∧ left = rest := by
  have hash : seen eof tokens = .hash := h.seen_eq rfl rfl
  simp only [headRound, headAttr, passes_bind, passes_sees, hash, beq_self_eq_true, if_true,
    passes_grow, passes_pure]
  refine (passes_attr h).imp ?_
  rintro _ _ left ⟨rfl, rfl⟩
  refine .grown (b := ()) (by simp [noBang]) ?_
  rw [passes_bind]
  refine (finds_itemRest (nested eof left.length) (Nat.le_refl _) item).imp ?_
  rintro _ _ _ ⟨-, rfl⟩
  rw [passes_pure]
  exact .last (by simp) ⟨rfl, rfl⟩

theorem attr_of_innerAttr (eof : Token) (h : Spells (symbol .innerAttr) tokens rest) :
    Spells (symbol .attr) tokens rest ∧ seen eof tokens.tail = .bang := by
  obtain ⟨_, hash, h⟩ := spells_seq.mp (spells_symbol.mp h)
  obtain ⟨_, bang, body⟩ := spells_seq.mp h
  refine ⟨spells_symbol.mpr (spells_seq.mpr ⟨_, hash, spells_seq.mpr
    ⟨_, spells_opt.mpr (.inl bang), body⟩⟩), ?_⟩
  obtain ⟨t, rfl, _, _⟩ := spells_token.mp hash
  obtain ⟨b, rfl, kind, _⟩ := spells_token.mp bang
  exact kind

-- An attribute in front of the item that starts with it.
theorem attr_of_item (h : Spells (symbol .item) tokens rest) (hash : seen eof tokens = .hash) :
    ∃ middle, Spells (symbol .attr) tokens middle ∧ Spells (symbol .item) middle rest := by
  obtain ⟨_, attrs, core⟩ := spells_seq.mp (spells_symbol.mp h)
  rcases spells_many.mp attrs with rfl | ⟨middle, first, more⟩
  · exact absurd hash (core.seen_ne rfl (by decide))
  · exact ⟨middle, first, spells_symbol.mpr (spells_seq.mpr ⟨_, more, core⟩)⟩

-- Behind inner attributes the first item may start with an outer attribute, which is read with it.
theorem passes_head (h : Spells Symbol.file tokens rest) (ended : seen eof rest = .eof) :
    Passes eof (loop headRound) tokens fun _ _ left => Spells (many (symbol .item)) left rest := by
  induction size : tokens.length using Nat.strongRecOn generalizing tokens with
  | ind m ih =>
      have again {after : List Token} (one : Spells (symbol .attr) tokens after)
          (bang : seen eof tokens.tail = .bang) (more : Spells Symbol.file after rest) :
          Passes eof (loop headRound) tokens fun _ _ left =>
            Spells (many (symbol .item)) left rest := by
        rw [passes_loop]
        refine (reads_headRound_inner one bang).imp ?_
        rintro _ _ _ ⟨rfl, rfl⟩
        exact ih _ (size ▸ one.rest_lt rfl) more rfl
      obtain ⟨_, inner, items⟩ := spells_seq.mp h
      rcases spells_many.mp inner with rfl | ⟨after, one, further⟩
      · by_cases hash : seen eof tokens = .hash
        · rcases spells_many.mp items with rfl | ⟨after, one, further⟩
          · cases hash.symm.trans ended
          obtain ⟨middle, attr, item⟩ := attr_of_item one hash
          have more : Spells (many (symbol .item)) middle rest :=
            spells_many.mpr (.inr ⟨_, item, further⟩)
          by_cases bang : seen eof tokens.tail = .bang
          · exact again attr bang (spells_seq.mpr ⟨_, spells_many.mpr (.inl rfl), more⟩)
          · rw [passes_loop]
            refine (reads_headRound_outer attr bang item).imp ?_
            rintro _ _ _ ⟨rfl, rfl⟩
            simpa using further
        · rw [passes_loop]
          simpa [headRound, hash] using show Spells (many (symbol .item)) tokens rest from items
      · obtain ⟨attr, bang⟩ := attr_of_innerAttr eof one
        exact again attr bang (spells_seq.mpr ⟨_, further, items⟩)

theorem reads_file (h : Spells Symbol.file tokens rest) (ended : seen eof rest = .eof) :
    Reads eof file tokens rest := by
  rw [Reads, file, passes_bind]
  refine (passes_head h ended).imp ?_
  intro _ _ left items
  exact reads_items (nested eof (left.length + 1)) ended (by decide) (Nat.lt_succ_self _) items

end LosslessTree.Rule

namespace LosslessTree

open Form TokenStream

/-- A text is parsed without problems exactly if the kinds of its tokens are as the grammar says. -/
theorem parse_errors_eq_nil_iff (text : Text) :
    (parse text).errors = [] ↔
      Derives Symbol.rule Symbol.file ((ofText text).tokens.map Token.kind) := by
  have given := gives_file (ofText_eof text) (ofText_plain text)
  constructor
  · intro quiet
    obtain ⟨⟨w, split, spelled⟩, -⟩ := spent_file (ofText_eof text) (ofText_plain text) quiet
    have none : ((ofText text).run .file).rest = [] := (run_file text).ends
    rw [split, none, List.map_nil, List.append_nil]
    exact spelled
  · intro derived
    have spells : Spells Symbol.file (ofText text).tokens [] :=
      ⟨_, (List.append_nil _).symm, ofText_lexed text, derived⟩
    obtain ⟨s, given', quiet, -⟩ := Rule.reads_file spells (ofText_eof text)
    have same : (ofText text).run .file = s := given.unique given'
    change ((ofText text).run .file).reports = []
    rw [same, quiet]

end LosslessTree
