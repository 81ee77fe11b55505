import LosslessTree.Proofs.Grammar.Blocks

set_option autoImplicit false

namespace LosslessTree

open Form

def preludeFirst : KindSet := .ofList [.hash, .pubKw]

theorem derives_begun_of_prelude {w : List Kind} (h : preludeShape.Matches w) (some : w ≠ []) :
    begunPrelude.Matches w := by
  obtain ⟨attrs, visibility, rfl, attrsFit, visibilityFits⟩ := derives_seq.mp h
  rcases derives_many.mp attrsFit with rfl | ⟨_, _, rfl, attr, more⟩
  · rcases derives_opt.mp visibilityFits with fits | rfl
    · exact .right fits
    · exact absurd rfl some
  · rw [List.append_assoc]
    exact .left (.seq attr (.seq more visibilityFits))

theorem derives_error_of_prelude {broken : Bool} {w : List Kind} (isBroken : broken = true)
    (h : preludeShape.Matches w) (some : w ≠ []) : (Kind.error.shape broken).Matches w := by
  refine derives_spoilt.mpr ⟨isBroken, ?_⟩
  rcases derives_alt.mp (derives_begun_of_prelude h some) with fits | fits
  · exact .left fits
  · exact .right (derives_token.mp fits ▸ .oneOf (Kind.mem_all _))

def Core (broken : Bool) (v : Option Kind) (tops : List Kind) : Prop :=
  match v with
  | some k => Category.item.members.contains k = true ∧
      ∀ before, preludeShape.Matches before → (k.shape broken).Matches (before ++ tops)
  | none => tops = []

def Completed (broken begun : Bool) (all : List Token) (v : Option Kind) (tops : List Kind)
    (rest : List Token) : Prop :=
  match v with
  | some k => (itemShape broken).Matches [k] ∧ k.isNode = true ∧
      ∀ attrs, (many (token .attr)).Matches attrs → (begun = true → attrs ≠ []) →
        (k.shape broken).Matches (attrs ++ tops)
  | none => begun = false ∧ tops = [] ∧ rest = all

def Headed (broken : Bool) (eof : Token) (all : List Token) (v : Option Bool) (tops : List Kind) :
    Prop :=
  match v with
  | some inner => inner = true ∧ tops = [.attr] ∧ seen eof all.tail = .bang
  | none => (itemShape broken).Matches tops

namespace Rule

variable {broken : Bool} {eof : Token} {depth : Nat} {tokens : List Token}
variable (atEof : eof.kind = .eof)
  (calls : ∀ p tokens, tokens.length < depth → (p = .item → seen eof tokens ≠ .eof) →
    Builds broken eof depth (call p) tokens fun v tops _ => p.Yield broken (seen eof tokens) v tops)

section Preludes

include atEof

theorem yields_expectPath :
    Yields broken eof depth expectPath tokens (due broken (token .path)) := by
  apply builds_ifSees
  · intro here
    exact (yields_path atEof here).weaken fun _ fits => fits.due
  · intro _
    exact builds_report missing

theorem yields_attrBody : Yields broken eof depth attrBody tokens
    (due broken (row [token .leftBracket, due broken (token .path),
      due broken (token .rightBracket)])) := by
  apply builds_ifEat atEof (by decide)
  · intro _ rest _
    refine builds_bind (yields_expectPath atEof) fun _ path rest' pathFits => ?_
    refine (yields_expect atEof (by decide)).imp fun _ closed _ closing => ?_
    exact .left (.seq .token (.seq pathFits closing))
  · intro _
    exact builds_report missing

theorem builds_attr (here : seen eof tokens = .hash) :
    Builds broken eof depth attr tokens fun inner tops _ =>
      tops = [.attr] ∧ (inner = true → seen eof tokens.tail = .bang) := by
  apply builds_wrap
  refine builds_bind (builds_takeKind atEof here (by decide)) ?_
  rintro _ _ _ ⟨rfl, rfl⟩
  refine builds_bind (builds_eat atEof (by decide)) fun inner bang rest' eaten => ?_
  refine builds_bind (yields_attrBody atEof) fun _ body _ bodyFits => builds_pure ?_
  rw [List.append_nil]
  cases inner with
  | true =>
      obtain ⟨seenBang, rfl⟩ : seen eof tokens.tail = .bang ∧ bang = [.bang] := by
        simpa using eaten
      exact ⟨.attr, rfl, rfl, .seq .token (.seq (.left .token) bodyFits), rfl, fun _ => seenBang⟩
  | false =>
      obtain ⟨_, rfl, _⟩ : seen eof tokens.tail ≠ .bang ∧ bang = [] ∧ rest' = tokens.tail := by
        simpa using eaten
      exact ⟨.attr, rfl, rfl, .seq .token (.seq (.right .empty) bodyFits), rfl, nofun⟩

theorem yields_attr (here : seen eof tokens = .hash) :
    Yields broken eof depth attr tokens (token .attr) :=
  (builds_attr atEof here).imp fun _ _ _ built => derives_token.mpr built.1

theorem builds_attrs : Builds broken eof depth (loop attrRound) tokens fun _ tops rest =>
    (many (token .attr)).Matches tops ∧
      (seen eof tokens = .hash ∧ tops ≠ [] ∨ seen eof tokens ≠ .hash ∧ tops = [] ∧ rest = tokens) := by
  apply builds_loop (I := fun tops rest => (many (token .attr)).Matches tops ∧
    (seen eof tokens = .hash ∧ tops ≠ [] ∨ tops = [] ∧ rest = tokens)) ⟨.none, .inr ⟨rfl, rfl⟩⟩
  rintro tops rest ⟨attrs, before⟩ _
  apply builds_ifSees
  · intro here
    have first : seen eof tokens = .hash := by
      rcases before with ⟨first, _⟩ | ⟨_, rfl⟩
      · exact first
      · exact here
    refine builds_bind (yields_discard (yields_attr atEof here)) fun _ new _ fits => ?_
    refine builds_pure ?_
    rw [List.append_nil, derives_token.mp fits]
    exact ⟨by simp, attrs.snoc .token, .inl ⟨first, by simp⟩⟩
  · intro other
    refine builds_pure ?_
    rw [List.append_nil]
    rcases before with before | ⟨rfl, rfl⟩
    · exact ⟨attrs, .inl before⟩
    · exact ⟨attrs, .inr ⟨other, rfl, rfl⟩⟩

theorem builds_prelude : Builds broken eof depth prelude tokens fun _ tops rest =>
    preludeShape.Matches tops ∧ (preludeFirst.contains (seen eof tokens) = true ∧ tops ≠ [] ∨
      preludeFirst.contains (seen eof tokens) = false ∧ tops = [] ∧ rest = tokens) := by
  refine builds_bind (builds_attrs atEof) fun _ attrs rest ⟨attrsFit, which⟩ => ?_
  apply builds_ifSees
  · intro here
    refine (yields_node rfl (yields_take atEof here (by decide))).imp fun _ _ _ fits => ?_
    rw [derives_token.mp fits]
    refine ⟨.seq attrsFit (.left .token), .inl ⟨?_, by simp⟩⟩
    rcases which with ⟨hash, _⟩ | ⟨_, _, rfl⟩
    · rw [hash]
      decide
    · rw [here]
      decide
  · intro noPub
    refine builds_pure ?_
    refine ⟨.seq attrsFit (.right .empty), ?_⟩
    rw [List.append_nil]
    rcases which with ⟨hash, some⟩ | ⟨noHash, rfl, rfl⟩
    · rw [hash]
      exact .inl ⟨by decide, some⟩
    · refine .inr ⟨?_, rfl, rfl⟩
      simp [preludeFirst, KindSet.contains_ofList, noHash, noPub]

end Preludes

section Items

include atEof calls

theorem builds_parameter : Builds broken eof depth parameter tokens fun found tops _ =>
    if found = true then (token .param).Matches tops else tops = [] := by
  apply builds_ifSeesAny
  · intro here
    refine builds_bind (yields_node (k := .param) rfl ?_) fun _ _ _ fits => builds_pure ?_
    · exact yields_bind (yields_pattern atEof calls here) fun _ _ =>
        yields_ascriptionOr atEof calls
    · simpa using fits
  · intro _
    exact builds_pure rfl

theorem yields_parameters : Yields broken eof depth parameters tokens (due broken (token .paramList)) := by
  apply builds_ifSees
  · intro here
    refine (yields_node rfl (yields_bracketed atEof rfl here (by decide) (by decide) ?_)).weaken
      fun _ fits => .left fits
    intro rest _
    exact (builds_parameter atEof calls).imp fun found _ _ fits => by
      cases found <;> simp_all
  · intro _
    exact builds_report missing

theorem yields_returnType : Yields broken eof depth returnType tokens (opt (token .retType)) :=
  yields_whenSees fun here => yields_node rfl <|
    yields_take_bind atEof here (by decide) fun _ _ => yields_expectType atEof calls

theorem yields_fnBody : Yields broken eof depth fnBody tokens (due broken (oneOf [.semicolon, .blockExpr])) := by
  apply builds_ifEat atEof (by decide)
  · intro _ _ _
    exact builds_pure (.left (.oneOf (by decide)))
  · intro _
    exact (yields_expectBlock atEof calls).weaken fun _ fits => derives_due_oneOf (by decide) fits

theorem yields_fnItem (here : seen eof tokens = .fnKw) : Yields broken eof depth fnItem tokens
    (row [token .fnKw, part broken (token .name), due broken (token .paramList), opt (token .retType),
      due broken (oneOf [.semicolon, .blockExpr])]) := by
  refine yields_bind (yields_takeKind atEof here (by decide)) fun _ _ => ?_
  refine yields_bind (yields_name atEof) fun _ _ => ?_
  refine yields_bind (yields_parameters atEof calls) fun _ _ => ?_
  refine yields_bind (yields_returnType atEof calls) fun _ _ => ?_
  exact yields_fnBody atEof calls

theorem builds_field : Builds broken eof depth field tokens fun found tops _ =>
    if found = true then (token .field).Matches tops else tops = [] := by
  apply builds_ifSeesAny
  · intro here
    refine builds_bind (yields_node (k := .field) rfl ?_) fun _ _ _ fits => builds_pure ?_
    · refine builds_bind (builds_prelude atEof) fun _ front rest ⟨prelude, which⟩ => ?_
      refine builds_bind (builds_name atEof) fun _ name rest' ⟨nameFits, named⟩ => ?_
      refine (yields_ascriptionOr atEof calls).imp fun _ _ _ typeFits => ?_
      rcases which with ⟨_, some⟩ | ⟨none, rfl, rfl⟩
      · exact .left (.seq (derives_begun_of_prelude prelude some) (.seq nameFits typeFits))
      · -- Without a prelude the field begins with its name.
        have ident : seen eof rest = .ident := by
          simp_all [fieldFirst, preludeFirst, KindSet.contains_ofList]
        rw [named ident, List.nil_append]
        exact .right (.seq .token typeFits)
    · simpa using fits
  · intro _
    exact builds_pure rfl

theorem yields_structBody :
    Yields broken eof depth structBody tokens (due broken (oneOf [.fieldList, .semicolon])) := by
  apply builds_peekKind_bind
  split
  · next here =>
      refine (yields_node rfl (yields_bracketed atEof rfl here (by decide) (by decide) ?_)).weaken
        fun _ fits => derives_due_oneOf (by decide) (.left fits)
      intro rest _
      exact (builds_field atEof calls).imp fun found _ _ fits => by
        cases found <;> simp_all
  · next here =>
      exact (yields_take atEof here (by decide)).weaken fun _ fits =>
        derives_due_oneOf (by decide) (.left fits)
  · exact builds_report missing

theorem yields_structItem (here : seen eof tokens = .structKw) : Yields broken eof depth structItem tokens
    (row [token .structKw, part broken (token .name), due broken (oneOf [.fieldList, .semicolon])]) := by
  refine yields_bind (yields_takeKind atEof here (by decide)) fun _ _ => ?_
  refine yields_bind (yields_name atEof) fun _ _ => ?_
  exact yields_structBody atEof calls

theorem yields_constItem (here : seen eof tokens = .constKw) : Yields broken eof depth constItem tokens
    (row [token .constKw, part broken (token .name), due broken (typeBehind broken .colon), initializerShape broken,
      due broken (token .semicolon)]) := by
  refine yields_bind (yields_takeKind atEof here (by decide)) fun _ _ => ?_
  refine yields_bind (yields_name atEof) fun _ _ => ?_
  refine yields_bind (yields_ascriptionOr atEof calls) fun _ _ => ?_
  refine yields_bind (yields_initializer atEof calls) fun _ _ => ?_
  exact yields_expect atEof (by decide)

omit calls in
theorem yields_useItem (here : seen eof tokens = .useKw) : Yields broken eof depth useItem tokens
    (row [token .useKw, due broken (token .path), due broken (token .semicolon)]) := by
  refine yields_bind (yields_takeKind atEof here (by decide)) fun _ _ => ?_
  refine yields_bind (yields_expectPath atEof) fun _ _ => ?_
  exact yields_expect atEof (by decide)

omit atEof in
theorem builds_items {closing : Kind} (inside : tokens.length < depth) :
    Builds broken eof depth (loop (itemRound closing)) tokens fun _ tops rest =>
      (many (itemShape broken)).Matches tops ∧ (KindSet.ofList [closing, .eof]).contains (seen eof rest) = true := by
  apply builds_loop (I := fun tops _ => (many (itemShape broken)).Matches tops) .none
  intro tops rest items within
  apply builds_ifSeesAny
  · intro ended
    refine builds_pure ?_
    rw [List.append_nil]
    exact ⟨items, ended⟩
  · intro more
    refine builds_bind (yields_discard (calls .item rest (within inside) fun _ =>
      ne_eof_of_atEnd more)) fun _ _ _ fits => builds_pure ?_
    rw [List.append_nil]
    exact ⟨fits.ne_nil itemShape_full, items.snoc fits⟩

theorem yields_modBody :
    Yields broken eof depth modBody tokens (due broken (oneOf [.itemList, .semicolon])) := by
  apply builds_ifSees
  · intro here
    refine (yields_node rfl ?_).weaken fun _ fits =>
      derives_due_oneOf (by decide) (.left fits)
    apply yields_take_bind atEof here (by decide)
    intro rest inside
    refine builds_bind (builds_items calls inside) fun _ _ _ ⟨items, _⟩ => ?_
    exact (yields_expect atEof (by decide)).imp fun _ _ _ closing => .seq items closing
  · intro _
    exact (yields_expect atEof (by decide)).weaken fun _ fits =>
      derives_due_oneOf (by decide) fits

theorem yields_modItem (here : seen eof tokens = .modKw) : Yields broken eof depth modItem tokens
    (row [token .modKw, part broken (token .name), due broken (oneOf [.itemList, .semicolon])]) := by
  refine yields_bind (yields_takeKind atEof here (by decide)) fun _ _ => ?_
  refine yields_bind (yields_name atEof) fun _ _ => ?_
  exact yields_modBody atEof calls

omit atEof calls in
theorem builds_core {k : Kind} {rule : Rule Unit} {f : Form Empty}
    (member : Category.item.members.contains k = true) (shape : k.shape broken = .seq preludeShape f)
    (h : Yields broken eof depth rule tokens f) :
    Builds broken eof depth (do rule; return some k) tokens fun v tops rest =>
      Core broken v tops ∧ (v = none → rest = tokens) := by
  refine builds_bind h fun _ tops _ fits =>
    builds_pure ⟨⟨member, fun before prelude => ?_⟩, nofun⟩
  rw [List.append_nil, shape]
  exact .seq prelude fits

theorem builds_itemCore : Builds broken eof depth itemCore tokens fun v tops rest =>
    Core broken v tops ∧ (v = none → rest = tokens) := by
  apply builds_peekKind_bind
  split
  · next here => exact builds_core rfl rfl (yields_fnItem atEof calls here)
  · next here => exact builds_core rfl rfl (yields_structItem atEof calls here)
  · next here => exact builds_core rfl rfl (yields_constItem atEof calls here)
  · next here => exact builds_core rfl rfl (yields_useItem atEof here)
  · next here => exact builds_core rfl rfl (yields_modItem atEof calls here)
  · exact builds_pure ⟨rfl, fun _ => rfl⟩

theorem builds_itemRest {begun : Bool} :
    Builds broken eof depth (itemRest begun) tokens fun v tops rest =>
      Completed broken begun tokens v tops rest := by
  apply builds_seesAny_bind
  refine builds_bind (builds_prelude atEof) fun _ front rest ⟨prelude, which⟩ => ?_
  have extended (attrs : List Kind) (fits : (many (token .attr)).Matches attrs) :
      preludeShape.Matches (attrs ++ front) := by
    obtain ⟨more, visibility, rfl, moreFits, visibilityFits⟩ := derives_seq.mp prelude
    rw [← List.append_assoc]
    exact .seq (fits.append moreFits) visibilityFits
  refine builds_bind (builds_itemCore atEof calls) fun kind core rest' ⟨built, idle⟩ => ?_
  cases kind with
  | some k =>
      obtain ⟨member, shape⟩ := built
      rw [if_neg (by simp)]
      refine builds_pure ⟨.left (matches_category.mpr ⟨k, member, rfl⟩),
        Category.isNode_of_contains member, ?_⟩
      intro attrs fits _
      rw [List.append_nil, ← List.append_assoc]
      exact shape _ (extended attrs fits)
  | none =>
      obtain rfl : core = [] := built
      obtain rfl := idle rfl
      split
      · next started =>
          refine builds_report_bind fun isBroken => builds_pure
            ⟨.right (derives_spoilt.mpr ⟨isBroken, .token⟩), rfl, fun attrs fits some => ?_⟩
          rw [List.append_nil, List.append_nil]
          apply derives_error_of_prelude isBroken (extended attrs fits)
          -- Something was in front of the missing item.
          intro nothing
          obtain ⟨noAttrs, noFront⟩ := List.append_eq_nil_iff.mp nothing
          rcases which with ⟨_, front⟩ | ⟨outside, _⟩
          · exact front noFront
          · have other : (KindSet.ofList [.hash, .pubKw]).contains (seen eof tokens) = false :=
              outside
            rw [other] at started
            exact some (by simpa using started) noAttrs
      · next not =>
          simp only [Option.isNone_none, Bool.and_true, Bool.or_eq_true, not_or,
            Bool.not_eq_true] at not
          refine builds_pure ⟨not.1, ?_⟩
          rcases which with ⟨inside, _⟩ | ⟨_, rfl, rfl⟩
          · exact absurd inside (by simp [preludeFirst, not.2])
          · exact ⟨rfl, rfl⟩

omit calls in
theorem builds_strayToken (inside : seen eof tokens ≠ .eof) :
    Builds broken eof depth strayToken tokens fun _ tops _ =>
      broken = true ∧ tops = [.error] := by
  apply builds_ifSees
  · intro _
    exact builds_skipToken atEof inside
  · intro _
    exact builds_skipToken atEof inside

theorem yields_item (inside : seen eof tokens ≠ .eof) :
    Yields broken eof depth item tokens (itemShape broken) := by
  apply builds_wrap_bind
  refine builds_bind (builds_itemRest atEof calls) fun v tops _ completed => builds_pure ?_
  rw [List.append_nil]
  cases v with
  | some k => exact ⟨completed.2.1, completed.2.2 [] .none nofun, builds_pure completed.1⟩
  | none =>
      obtain ⟨-, rfl, rfl⟩ := completed
      refine ⟨rfl, builds_bind (builds_strayToken atEof inside) ?_⟩
      rintro _ _ _ ⟨isBroken, rfl⟩
      exact builds_pure ⟨by simp, .right (derives_spoilt.mpr ⟨isBroken, .token⟩)⟩

theorem builds_headAttr (here : seen eof tokens = .hash) :
    Builds broken eof depth headAttr tokens fun v tops _ => Headed broken eof tokens v tops := by
  apply builds_grow_from (I := fun v tops _ => tops = [.attr] ∧
    ∃ inner, v = some inner ∧ (inner = true → seen eof tokens.tail = .bang))
  case h =>
    refine builds_bind (builds_attr atEof here) ?_
    rintro inner _ _ ⟨rfl, bang⟩
    exact builds_pure ⟨rfl, inner, rfl, bang⟩
  case stop =>
    rintro _ _ rest ⟨rfl, inner, rfl, bang⟩ stays
    have isInner : inner = true := by simpa using stays
    exact ⟨isInner, rfl, bang isInner⟩
  case round =>
    intro v tops rest _ before found
    obtain rfl : v = some false := by
      by_cases outer : v = some false
      · exact outer
      · rw [if_neg outer] at found
        cases found
    obtain rfl : tops = [.attr] := by
      rcases before with ⟨attr, _⟩ | ⟨inner, _⟩
      · exact attr
      · cases inner
    refine ⟨.attr, rfl, rfl, ?_⟩
    refine builds_bind (builds_itemRest atEof calls) fun kind new _ completed => builds_pure ?_
    rw [List.append_nil]
    cases kind with
    | none => cases completed.1
    | some k =>
        refine ⟨completed.2.1, ?_, completed.1, .inr fun _ => rfl⟩
        exact completed.2.2 [.attr] (.once .token) (by simp)

theorem builds_file (inside : tokens.length < depth) :
    Builds broken eof depth file tokens fun _ tops rest =>
      (row [many (token .attr), many (itemShape broken)]).Matches tops ∧ seen eof rest = .eof := by
  have head : Yields broken eof depth (loop headRound) tokens
      (.seq (many (token .attr)) (opt (itemShape broken))) := by
    apply builds_loop (I := fun tops _ => (many (token .attr)).Matches tops) .none
    intro tops rest attrs _
    apply builds_ifSees
    · intro here
      refine builds_bind (builds_headAttr atEof calls here) fun v new _ headed => builds_pure ?_
      rw [List.append_nil]
      cases v with
      | some inner =>
          rw [headed.2.1]
          exact ⟨by simp, attrs.snoc .token⟩
      | none => exact .seq attrs (.left headed)
    · intro _
      exact builds_pure (.seq attrs (.right .empty))
  refine builds_bind_within head fun _ tops rest headed within => ?_
  refine (builds_items calls (within (.inl inside))).imp fun _ items rest' ⟨fits, ended⟩ => ?_
  constructor
  · obtain ⟨attrs, first, rfl, attrsFit, firstFits⟩ := derives_seq.mp headed
    rw [List.append_assoc]
    refine .seq attrsFit ?_
    rcases derives_opt.mp firstFits with firstFits | rfl
    · exact .more firstFits fits
    · exact fits
  · simpa [KindSet.contains_ofList] using ended

end Items

theorem builds_upTo (atEof : eof.kind = .eof) (depth : Nat) (p : Production)
    (tokens : List Token) (inside : tokens.length < depth)
    (notEnd : p = .item → seen eof tokens ≠ .eof) :
    Builds broken eof depth (call p) tokens fun v tops _ => p.Yield broken (seen eof tokens) v tops := by
  induction depth generalizing p tokens with
  | zero => omega
  | succ depth ih =>
      intro admits
      have admits' : Admits depth tokens := ⟨by omega, admits.plain⟩
      cases p with
      | item => exact yields_item atEof ih (notEnd rfl) admits'
      | pattern => exact builds_pattern atEof ih (fun _ => .empty) admits'
      | type => exact builds_type atEof ih admits'
      | unary => exact builds_unary atEof ih admits'
      | expression level => exact builds_expression atEof ih admits'

end Rule

namespace TokenStream

variable {broken : Bool} {s : TokenStream}

theorem run_file_fits (atEof : s.eof.kind = .eof)
    (plain : ∀ t ∈ s.tokens, t.kind.isNode = false) (quiet : (s.run .file).Quiet broken) :
    (s.run .file).Fits broken (Rule.file.marked s.eof (s.tokens.length + 1)) s.tokens
      fun _ tops rest =>
        (row [many (token .attr), many (itemShape broken)]).Matches tops ∧ seen s.eof rest = .eof := by
  refine Rule.builds_file atEof (Rule.builds_upTo atEof _) (by omega) ?_ quiet
  constructor
  case enough => omega
  case plain =>
    intro l mem
    obtain ⟨t, inside, rfl⟩ := List.mem_map.mp mem
    exact plain t inside

theorem forest_shaped (atEof : s.eof.kind = .eof)
    (plain : ∀ t ∈ s.tokens, t.kind.isNode = false) (quiet : (s.run .file).Quiet broken) :
    (Forest.node .sourceFile s.forest .nil).Shaped broken := by
  obtain ⟨shaped, ⟨fits, _⟩, _⟩ := run_file_fits atEof plain quiet
  refine ⟨rfl, ?_, (Forest.shaped_append _ _).mpr ⟨shaped, trivial⟩, trivial⟩
  obtain ⟨attrs, items, split, attrsFit, itemsFit⟩ := derives_seq.mp fits
  change (Form.row _).Matches (Forest.tops (_ ++ _))
  rw [Forest.tops_append, split, List.append_assoc]
  refine .seq attrsFit (.seq itemsFit ?_)
  exact derives_token.mpr (congrArg (fun k => [k]) atEof)

end TokenStream

end LosslessTree
