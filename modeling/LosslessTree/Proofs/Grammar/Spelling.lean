import LosslessTree.Proofs.Grammar.Files
import LosslessTree.Proofs.Grammar.Language

set_option autoImplicit false

namespace LosslessTree

open Form LosslessTree.Symbol

def Kind.form : Kind → Form Symbol
  | sourceFile => row [many (symbol .attr), many (symbol item), token .eof]
  | attr => symbol .attr
  | visibility => token .pubKw
  | fnItem | structItem | constItem | useItem | modItem => symbol item
  | itemList => row [token .leftBrace, many (symbol item), token .rightBrace]
  | name | nameRef => token .ident
  | path => symbol .path
  | paramList => list .leftParen .rightParen (symbol .param)
  | param => symbol .param
  | retType => row [token .arrow, symbol type]
  | fieldList => list .leftBrace .rightBrace (symbol .field)
  | field => symbol .field
  | blockExpr => symbol block
  | letStmt | exprStmt => symbol stmt
  | identPat | wildcardPat | tuplePat | refPat | literalPat | restPat => symbol pat
  | pathType | tupleType | refType => symbol type
  | literal => Symbol.literal
  | pathExpr | tupleExpr | parenExpr | binaryExpr | callExpr | refExpr => symbol expr
  | argList => Symbol.arguments
  | error => oneOf []
  | k => token k

theorem Kind.form_token {k : Kind} (isToken : k.isNode = false) : k.form = token k := by
  revert isToken
  cases k <;> first | exact fun _ => rfl | exact fun isToken => by cases isToken

abbrev Kind.spelling (k : Kind) : Form Symbol := (k.shape false).expand Kind.form

namespace Symbol

abbrev Sub (a b : Form Symbol) : Prop := Within Symbol.rule a b

variable {a b c : Form Symbol} {u v w x : List Kind}

theorem sub_choice {kinds : List Kind} (h : ∀ k ∈ kinds, Sub k.form a) :
    Sub ((oneOf kinds).expand Kind.form) a := by
  intro w hw
  obtain ⟨k, mem, hk⟩ := derives_choice_map.mp hw
  exact h k mem w hk

theorem sub_tokens {kinds : List Kind} (areTokens : ∀ k ∈ kinds, k.isNode = false) :
    Sub ((oneOf kinds).expand Kind.form) (oneOf kinds) := by
  apply sub_choice
  intro k mem w h
  rw [Kind.form_token (areTokens k mem)] at h
  exact derives_oneOf.mpr ⟨k, mem, derives_token.mp h⟩

theorem sub_category {category : Category}
    (h : ∀ k, category.members.contains k = true → Sub k.form a) :
    Sub ((Form.category category).expand Kind.form) a :=
  sub_choice fun k mem => h k ((KindSet.mem_toList _ _).mp mem)

theorem sub_due {f : Form Empty} (h : Sub (f.expand Kind.form) a) :
    Sub ((due false f).expand Kind.form) a :=
  .alt h (.nothing a)

theorem sub_part {f : Form Empty} (h : Sub (f.expand Kind.form) a) :
    Sub ((part false f).expand Kind.form) a :=
  .alt h (.nothing a)

theorem sub_elements {f : Form Empty} (h : Sub (f.expand Kind.form) a) :
    Sub (.seq ((separated false f).expand Kind.form) (.opt (f.expand Kind.form))) (elements a) :=
  .seq (.many (.alt (.seq h (.refl _ _)) (.nothing _))) h.opt

theorem sub_brackets {opening closing : Kind} {f : Form Empty} (isOpening : opening.isNode = false)
    (isClosing : closing.isNode = false) (h : Sub (f.expand Kind.form) a) :
    Sub ((brackets false opening closing f).expand Kind.form) (list opening closing a) := by
  have opens : Sub ((Form.token opening).expand Kind.form) (token opening) :=
    sub_tokens (by simpa using isOpening)
  have closes : Sub ((due false (Form.token closing)).expand Kind.form) (token closing) :=
    sub_due (sub_tokens (by simpa using isClosing))
  have inside : Sub (.seq ((separated false f).expand Kind.form) (.opt (f.expand Kind.form)))
      (commaSeparated a) :=
    fun w hw => derives_commaSeparated.mpr (sub_elements h w hw)
  exact .seq opens ((Within.group _ _ _ _).trans (.seq inside closes))

theorem sub_literal : Sub Symbol.literal (symbol primary) :=
  .symbol primary fun _ h => .left h

theorem sub_path : Sub (symbol path) (symbol primary) :=
  .symbol primary fun _ h => .right (.left h)

theorem sub_tuple : Sub (list .leftParen .rightParen (symbol expr)) (symbol primary) :=
  .symbol primary fun _ h => .right (.right (.left h))

theorem sub_block : Sub (symbol block) (symbol primary) :=
  .symbol primary fun _ h => .right (.right (.right h))

-- Without calls and operators.
theorem sub_primary : Sub (symbol primary) (symbol expr) := by
  intro w h
  have alone : Derives rule (row [symbol primary, many Symbol.arguments]) (w ++ []) := .seq h .none
  have operand : Derives rule (symbol unary) (w ++ []) := .symbol (.right alone)
  have whole : Derives rule (symbol expr) ((w ++ []) ++ []) := .symbol (.seq operand .none)
  rwa [List.append_nil, List.append_nil] at whole

-- Arguments behind an operand are those of its innermost primary.
theorem derives_unary_arguments (h : Derives rule (symbol unary) w)
    (hx : Derives rule Symbol.arguments x) : Derives rule (symbol unary) (w ++ x) := by
  induction size : w.length using Nat.strongRecOn generalizing w with
  | ind n ih =>
      rcases derives_alt.mp (derives_symbol.mp h) with reference | call
      · obtain ⟨_, _, rfl, ampersand, rest⟩ := derives_seq.mp reference
        obtain ⟨_, operand, rfl, mutable, inner⟩ := derives_seq.mp rest
        obtain rfl := derives_token.mp ampersand
        have shorter : operand.length < n := by
          simp only [List.length_append, List.length_singleton] at size
          omega
        rw [List.append_assoc, List.append_assoc]
        exact .symbol (.left (.seq ampersand (.seq mutable (ih _ shorter inner rfl))))
      · obtain ⟨_, _, rfl, inner, calls⟩ := derives_seq.mp call
        rw [List.append_assoc]
        exact .symbol (.right (.seq inner (calls.snoc hx)))

theorem sub_call : Sub (.seq (symbol expr) Symbol.arguments) (symbol expr) := by
  intro w h
  obtain ⟨_, x, rfl, hexpr, hx⟩ := derives_seq.mp h
  obtain ⟨_, further, rfl, first, operands⟩ := derives_seq.mp (derives_symbol.mp hexpr)
  rcases derives_many_last operands with rfl | ⟨before, last, rfl, hbefore, hlast⟩
  · have whole := Derives.seq (derives_unary_arguments first hx) operands
    rw [List.append_nil] at whole ⊢
    exact .symbol whole
  · obtain ⟨_, _, rfl, operator, operand⟩ := derives_seq.mp hlast
    have called := hbefore.snoc (.seq operator (derives_unary_arguments operand hx))
    simp only [List.append_assoc] at called ⊢
    exact .symbol (.seq first called)

theorem sub_binary :
    Sub (row [symbol expr, token .binaryOperator, symbol expr]) (symbol expr) := by
  intro w h
  obtain ⟨_, _, rfl, left, rest⟩ := derives_seq.mp h
  obtain ⟨_, _, rfl, operator, right⟩ := derives_seq.mp rest
  obtain ⟨_, _, rfl, first, operands⟩ := derives_seq.mp (derives_symbol.mp left)
  obtain ⟨_, _, rfl, second, operands'⟩ := derives_seq.mp (derives_symbol.mp right)
  have all := Derives.seq first (operands.append (.more (.seq operator second) operands'))
  simp only [List.append_assoc] at all ⊢
  exact .symbol all

theorem sub_reference :
    Sub (row [token .ampersand, opt (token .mutKw), symbol expr]) (symbol expr) := by
  intro w h
  obtain ⟨_, _, rfl, ampersand, rest⟩ := derives_seq.mp h
  obtain ⟨_, _, rfl, mutable, inner⟩ := derives_seq.mp rest
  obtain ⟨_, _, rfl, first, operands⟩ := derives_seq.mp (derives_symbol.mp inner)
  have reference : Derives rule (symbol unary) _ := .symbol (.left (.seq ampersand (.seq mutable first)))
  have all := Derives.seq reference operands
  simp only [List.append_assoc] at all ⊢
  exact .symbol all

theorem sub_expr : Sub ((Form.category .expr).expand Kind.form) (symbol expr) := by
  apply sub_category
  intro k mem
  cases k <;> first
    | exact .refl _ _
    | exact sub_literal.trans sub_primary
    | exact sub_block.trans sub_primary
    | cases mem

theorem sub_pat : Sub ((Form.category .pat).expand Kind.form) (symbol pat) := by
  apply sub_category
  intro k mem
  cases k <;> first | exact .refl _ _ | cases mem

theorem sub_type : Sub ((Form.category .type).expand Kind.form) (symbol type) := by
  apply sub_category
  intro k mem
  cases k <;> first | exact .refl _ _ | cases mem

theorem sub_items : Sub ((itemShape false).expand Kind.form) (symbol item) := by
  refine .alt (sub_category fun k mem => ?_) (.nothing _)
  cases k <;> first | exact .refl _ _ | cases mem

theorem sub_typeBehind {separator : Kind} (isToken : separator.isNode = false) :
    Sub ((typeBehind false separator).expand Kind.form) (row [token separator, symbol type]) :=
  .seq (sub_tokens (by simpa using isToken)) (sub_due sub_type)

theorem sub_initializer :
    Sub ((initializerShape false).expand Kind.form) (opt (row [token .equal, symbol expr])) :=
  .opt (.seq (.refl _ _) (sub_part sub_expr))

-- Attributes and visibility, then the rest of the item.
theorem sub_item {f : Form Empty} (h : Sub (f.expand Kind.form) (symbol core)) :
    Sub ((preludeShape.seq f).expand Kind.form) (symbol item) :=
  .symbol item ((Within.ungroup _ _ _ _).trans (.seq (.refl _ _) (.seq (.refl _ _) h)))

theorem sub_fnItem : Sub Kind.fnItem.spelling (symbol item) :=
  sub_item <| .symbol core <| .trans
    (.seq (.refl _ _) (.seq (sub_part (.refl _ _)) (.seq (sub_due (.refl _ _))
      (.seq (.refl _ _) (sub_due (.refl _ _))))))
    fun _ h => .left h

theorem sub_structItem : Sub Kind.structItem.spelling (symbol item) := by
  have body : Sub ((oneOf [Kind.fieldList, .semicolon]).expand Kind.form)
      (alt (token .semicolon) (list .leftBrace .rightBrace (symbol field))) :=
    .alt (fun _ h => .right h) fun _ h => .left h
  exact sub_item <| .symbol core <| .trans
    (.seq (.refl _ _) (.seq (sub_part (.refl _ _)) (sub_due body)))
    fun _ h => .right (.left h)

theorem sub_constItem : Sub Kind.constItem.spelling (symbol item) := by
  have behind : Sub
      (.seq ((due false (typeBehind false .colon)).expand Kind.form)
        ((row [initializerShape false, due false (Form.token .semicolon)]).expand Kind.form))
      (row [token .colon, symbol type, opt (row [token .equal, symbol expr]), token .semicolon]) :=
    .trans (.seq (sub_due (sub_typeBehind rfl)) (.seq sub_initializer (sub_due (.refl _ _))))
      (.ungroup _ _ _ _)
  exact sub_item <| .symbol core <| .trans
    (.seq (.refl _ _) (.seq (sub_part (.refl _ _)) behind))
    fun _ h => .right (.right (.left h))

theorem sub_useItem : Sub Kind.useItem.spelling (symbol item) :=
  sub_item <| .symbol core <| .trans
    (.seq (.refl _ _) (.seq (sub_due (.refl _ _)) (sub_due (.refl _ _))))
    fun _ h => .right (.right (.right (.left h)))

theorem sub_modItem : Sub Kind.modItem.spelling (symbol item) := by
  have body : Sub ((oneOf [Kind.itemList, .semicolon]).expand Kind.form)
      (alt (token .semicolon) (row [token .leftBrace, many (symbol item), token .rightBrace])) :=
    .alt (fun _ h => .right h) fun _ h => .left h
  exact sub_item <| .symbol core <| .trans
    (.seq (.refl _ _) (.seq (sub_part (.refl _ _)) (sub_due body)))
    fun _ h => .right (.right (.right (.right h)))

theorem sub_attr : Sub Kind.attr.spelling (symbol attr) :=
  .symbol attr (.seq (.refl _ _) (.seq (.refl _ _) (sub_due (.seq (.refl _ _)
    (.seq (sub_due (.refl _ _)) (sub_due (.refl _ _)))))))

theorem sub_path_node : Sub Kind.path.spelling (symbol path) := by
  intro w h
  obtain ⟨_, _, rfl, first, rest⟩ := derives_seq.mp h
  obtain ⟨_, _, rfl, more, last⟩ := derives_seq.mp rest
  -- No colons are left over in a text without problems.
  rcases derives_opt.mp last with spoilt | rfl
  · exact absurd spoilt (by simp [Form.spoilt, Form.expand, choice])
  · rw [List.append_nil]
    exact .symbol (.seq first more)

theorem sub_param : Sub Kind.param.spelling (symbol param) :=
  .symbol param (.seq sub_pat (sub_due (sub_typeBehind rfl)))

theorem sub_begun :
    Sub (begunPrelude.expand Kind.form) (.seq (many (symbol attr)) (opt (token .pubKw))) := by
  refine .alt ?_ fun w h => ?_
  · intro w h
    obtain ⟨_, _, rfl, first, rest⟩ := derives_seq.mp h
    obtain ⟨_, _, rfl, more, visibility⟩ := derives_seq.mp rest
    rw [← List.append_assoc]
    exact .seq (.more first more) visibility
  · exact Derives.seq .none (.left h)

theorem sub_field : Sub Kind.field.spelling (symbol field) := by
  refine .symbol field (.alt ?_ fun w h => ?_)
  · exact .trans (.seq sub_begun (.seq (sub_part (.refl _ _)) (sub_due (sub_typeBehind rfl))))
      (.ungroup _ _ _ _)
  · have named : Sub (.seq ((Form.token Kind.name).expand Kind.form)
        ((due false (typeBehind false .colon)).expand Kind.form))
        (row [token .ident, token .colon, symbol type]) :=
      .seq (.refl _ _) (sub_due (sub_typeBehind rfl))
    exact Derives.seq .none (Derives.seq (.right .empty) (named w h))

theorem sub_statement : Sub ((statementShape false).expand Kind.form) (symbol stmt) := by
  refine .alt ?_ (.alt ?_ (.alt (.refl _ _) (.refl _ _)))
  · exact .symbol stmt (.trans sub_items fun _ h => .right (.right (.left h)))
  · exact .symbol stmt fun _ h => .left h

theorem sub_blockExpr : Sub Kind.blockExpr.spelling (symbol block) :=
  .symbol block (.seq (.refl _ _) (.seq (.many sub_statement)
    (sub_due (.seq (.opt sub_expr) (.refl _ _)))))

theorem sub_letStmt : Sub Kind.letStmt.spelling (symbol stmt) :=
  .symbol stmt <| .trans
    (.seq (.refl _ _) (.seq (sub_part sub_pat) (.seq (.opt (sub_typeBehind rfl))
      (.seq sub_initializer (sub_due (.refl _ _))))))
    fun _ h => .right (.left h)

theorem sub_exprStmt : Sub Kind.exprStmt.spelling (symbol stmt) := by
  refine .symbol stmt (.alt ?_ (.alt ?_ (.nothing _)))
  · exact .trans (.seq sub_expr (.refl _ _)) fun _ h => .right (.right (.right (.left h)))
  · exact fun _ h => .right (.right (.right (.right h)))

theorem sub_identPat : Sub Kind.identPat.spelling (symbol pat) := by
  have introduced : Sub Kind.identPat.spelling
      (row [opt (token .refKw), opt (token .mutKw), token .ident]) := by
    refine .alt ?_ (.alt ?_ ?_)
    · exact .seq (fun _ h => .left h) (.seq (.refl _ _) (sub_part (.refl _ _)))
    · have named : Sub (.seq (token .mutKw) ((part false (Form.token Kind.name)).expand Kind.form))
          (row [opt (token .mutKw), token .ident]) :=
        .seq (fun _ h => .left h) (sub_part (.refl _ _))
      exact fun w h => Derives.seq (.right .empty) (named w h)
    · exact fun w h => Derives.seq (.right .empty) (Derives.seq (.right .empty) h)
  exact .symbol pat (.trans introduced fun _ h => .left h)

theorem sub_refPat : Sub Kind.refPat.spelling (symbol pat) :=
  .symbol pat <| .trans (.seq (.refl _ _) (.seq (.refl _ _) (sub_part sub_pat)))
    fun _ h => .right (.right (.right (.left h)))

theorem sub_tuplePat : Sub Kind.tuplePat.spelling (symbol pat) :=
  .symbol pat <| .trans (sub_brackets rfl rfl sub_pat)
    fun _ h => .right (.right (.right (.right (.left h))))

theorem sub_refType : Sub Kind.refType.spelling (symbol type) :=
  .symbol type <| .trans (.seq (.refl _ _) (.seq (.refl _ _) (sub_due sub_type)))
    fun _ h => .right (.right h)

theorem sub_tupleType : Sub Kind.tupleType.spelling (symbol type) :=
  .symbol type <| .trans (sub_brackets rfl rfl sub_type) fun _ h => .right (.left h)

theorem sub_tupleExpr : Sub Kind.tupleExpr.spelling (symbol expr) := by
  refine .trans (.alt ?_ ?_) (sub_tuple.trans sub_primary)
  · exact .seq (.refl _ _) fun w h => Derives.seq (.right .empty) h
  · have fields : Sub
        (row [(part false (Form.category .expr)).expand Kind.form,
          (many (row [Form.token .comma, part false (Form.category .expr)])).expand Kind.form,
          opt (token .comma), (due false (Form.token .rightParen)).expand Kind.form])
        (row [symbol expr, many (row [token .comma, symbol expr]), opt (token .comma),
          token .rightParen]) :=
      .seq (sub_part sub_expr) (.seq (.many (.seq (.refl _ _) (sub_part sub_expr)))
        (.seq (.refl _ _) (sub_due (.refl _ _))))
    have grouped : Sub
        (row [symbol expr, many (row [token .comma, symbol expr]), opt (token .comma),
          token .rightParen])
        (.seq (row [symbol expr, many (row [token .comma, symbol expr]), opt (token .comma)])
          (token .rightParen)) :=
      .trans (.seq (.refl _ _) (.group _ _ _ _)) (.group _ _ _ _)
    exact .seq (.refl _ _) (.trans fields (.trans grouped (.seq (fun _ h => .left h) (.refl _ _))))

theorem sub_parenExpr : Sub Kind.parenExpr.spelling (symbol expr) := by
  have alone : Sub (symbol expr) (commaSeparated (symbol expr)) := by
    intro w h
    have single := Derives.separated h .none (.right .empty)
    rwa [List.append_nil, List.append_nil] at single
  have listed : Sub Kind.parenExpr.spelling (list .leftParen .rightParen (symbol expr)) :=
    .seq (.refl _ _) (.seq (sub_part (sub_expr.trans alone)) (sub_due (.refl _ _)))
  exact listed.trans (sub_tuple.trans sub_primary)

end Symbol

theorem Kind.spelling_within {k : Kind} (isNode : k.isNode = true) : Sub k.spelling k.form := by
  cases k with
  | sourceFile => exact .seq (.refl _ _) (.seq (.many sub_items) (.refl _ _))
  | attr => exact sub_attr
  | visibility | name | nameRef => exact .refl _ _
  | fnItem => exact sub_fnItem
  | structItem => exact sub_structItem
  | constItem => exact sub_constItem
  | useItem => exact sub_useItem
  | modItem => exact sub_modItem
  | itemList => exact .seq (.refl _ _) (.seq (.many sub_items) (sub_due (.refl _ _)))
  | path => exact sub_path_node
  | paramList => exact sub_brackets rfl rfl (.refl _ _)
  | param => exact sub_param
  | retType => exact .seq (.refl _ _) (sub_due sub_type)
  | fieldList => exact sub_brackets rfl rfl (.refl _ _)
  | field => exact sub_field
  | blockExpr => exact sub_blockExpr
  | letStmt => exact sub_letStmt
  | exprStmt => exact sub_exprStmt
  | identPat => exact sub_identPat
  | wildcardPat => exact .symbol pat fun _ h => .right (.left h)
  | tuplePat => exact sub_tuplePat
  | refPat => exact sub_refPat
  | literalPat => exact .symbol pat fun _ h => .right (.right (.right (.right (.right h))))
  | restPat => exact .symbol pat fun _ h => .right (.right (.left h))
  | pathType => exact .symbol type fun _ h => .left h
  | tupleType => exact sub_tupleType
  | refType => exact sub_refType
  | literal => exact sub_tokens (by decide)
  | pathExpr => exact sub_path.trans sub_primary
  | tupleExpr => exact sub_tupleExpr
  | parenExpr => exact sub_parenExpr
  | binaryExpr =>
      exact .trans (.seq sub_expr (.seq (.refl _ _) (sub_part sub_expr))) sub_binary
  | callExpr => exact .trans (.seq sub_expr (.refl _ _)) sub_call
  | argList => exact sub_brackets rfl rfl sub_expr
  | refExpr =>
      exact .trans (.seq (.refl _ _) (.seq (.refl _ _) (sub_part sub_expr))) sub_reference
  | error => exact .nothing _
  | _ => cases isNode

theorem Forest.Shaped.spelled {f : Forest} (shaped : f.Shaped false)
    (plain : ∀ l ∈ f.leaves, l.kind.isNode = false) :
    Derives Symbol.rule (row (f.tops.map Kind.form)) (f.leaves.map Leaf.kind) := by
  induction f with
  | nil => exact .empty
  | leaf l rest ih =>
      rw [Forest.tops, List.map_cons, Kind.form_token (plain l List.mem_cons_self)]
      exact derives_row_cons.mpr ⟨[l.kind], _, rfl, .token,
        ih shaped fun l mem => plain l (List.mem_cons_of_mem _ mem)⟩
  | node k inner rest inside behind =>
      obtain ⟨isNode, fits, below, after⟩ := shaped
      have spelled := fits.expand (inside below fun l mem => plain l (List.mem_append_left _ mem))
      rw [Forest.tops, List.map_cons, Forest.leaves, List.map_append]
      exact derives_row_cons.mpr ⟨_, _, rfl, Kind.spelling_within isNode _ spelled,
        behind after fun l mem => plain l (List.mem_append_right _ mem)⟩

def Spent (f : Form Symbol) (tokens rest : List Token) : Prop :=
  ∃ w, tokens.map Token.kind = w ++ rest.map Token.kind ∧ Derives Symbol.rule f w

namespace Spent

variable {f g : Form Symbol} {tokens rest rest' : List Token}

theorem sub (h : Spent f tokens rest) (sub : Sub f g) : Spent g tokens rest := by
  obtain ⟨w, split, spelled⟩ := h
  exact ⟨w, split, sub w spelled⟩

theorem seq (first : Spent f tokens rest) (next : Spent g rest rest') :
    Spent (.seq f g) tokens rest' := by
  obtain ⟨u, split, hu⟩ := first
  obtain ⟨v, split', hv⟩ := next
  exact ⟨u ++ v, by rw [split, split', List.append_assoc], .seq hu hv⟩

theorem snoc (before : Spent (many f) tokens rest) (last : Spent f rest rest') :
    Spent (many f) tokens rest' := by
  obtain ⟨u, split, hu⟩ := before
  obtain ⟨v, split', hv⟩ := last
  exact ⟨u ++ v, by rw [split, split', List.append_assoc], hu.snoc hv⟩

-- The exclamation mark is in the token behind the hash sign.
theorem innerAttr {eof : Token} (h : Spent (symbol attr) tokens rest)
    (bang : seen eof tokens.tail = .bang) : Spent (symbol innerAttr) tokens rest := by
  obtain ⟨w, split, spelled⟩ := h
  obtain ⟨_, _, rfl, hash, behind⟩ := derives_seq.mp (derives_symbol.mp spelled)
  obtain ⟨_, _, rfl, mark, body⟩ := derives_seq.mp behind
  rcases derives_opt.mp mark with mark | rfl
  · exact ⟨_, split, .symbol (.seq hash (.seq mark body))⟩
  · obtain ⟨_, _, rfl, bracket, _⟩ := derives_seq.mp body
    obtain rfl := derives_token.mp hash
    obtain rfl := derives_token.mp bracket
    obtain ⟨_, _, rfl, _, more⟩ := List.map_eq_cons_iff.mp split
    obtain ⟨second, _, rfl, kind, _⟩ := List.map_eq_cons_iff.mp more
    cases kind.symm.trans bang

end Spent

namespace Rule

variable {eof : Token} {depth : Nat} {α : Type} {tokens : List Token}

theorem Builds.spent {rule : Rule α} {Q : α → List Kind → List Token → Prop}
    (h : Builds false eof depth rule tokens Q) :
    Builds false eof depth rule tokens fun a tops rest =>
      Q a tops rest ∧ Spent (row (tops.map Kind.form)) tokens rest := by
  intro admits quiet
  obtain ⟨shaped, ends, marked⟩ := h admits quiet
  have kept := keeps eof depth rule tokens
  refine ⟨shaped, ⟨ends, _, ?_, shaped.spelled (admits.leaves kept)⟩, marked⟩
  have kinds := congrArg (List.map Leaf.kind) kept
  rwa [List.map_map, List.map_append, List.map_map] at kinds

variable (atEof : eof.kind = .eof)
  (calls : ∀ p tokens, tokens.length < depth → (p = .item → seen eof tokens ≠ .eof) →
    Builds false eof depth (call p) tokens fun v tops _ => p.Yield false (seen eof tokens) v tops)

include atEof calls

theorem spent_head : Builds false eof depth (loop headRound) tokens fun _ _ rest =>
    Spent (.seq (many (symbol innerAttr)) (opt (symbol .item))) tokens rest := by
  apply builds_loop (I := fun _ rest => Spent (many (symbol innerAttr)) tokens rest)
    ⟨[], rfl, .none⟩
  intro _ rest attrs _
  apply builds_ifSees
  · intro here
    refine builds_bind (builds_headAttr atEof calls here).spent fun v new rest' headed =>
      builds_pure ?_
    obtain ⟨headed, spent⟩ := headed
    cases v with
    | some inner =>
        obtain ⟨_, rfl, bang⟩ := headed
        exact ⟨by simp, attrs.snoc (Spent.innerAttr spent bang)⟩
    | none =>
        obtain ⟨w, split, spelled⟩ := spent
        have first : Spent (symbol .item) rest rest' := ⟨w, split, sub_items _ (headed.expand spelled)⟩
        exact attrs.seq (first.sub fun _ h => .left h)
  · intro _
    exact builds_pure (attrs.seq ⟨[], rfl, .right .empty⟩)

theorem spent_file (inside : tokens.length < depth) :
    Builds false eof depth file tokens fun _ _ rest =>
      Spent Symbol.file tokens rest ∧ seen eof rest = .eof := by
  refine builds_bind_within (spent_head atEof calls) fun _ _ rest head within => ?_
  refine (builds_items calls (within (.inl inside))).spent.imp fun _ _ rest' ended => ?_
  obtain ⟨⟨fits, ended⟩, w, split, spelled⟩ := ended
  have items : Spent (many (symbol .item)) rest rest' :=
    ⟨w, split, Within.many sub_items _ (fits.expand spelled)⟩
  refine ⟨Spent.sub (head.seq items) ?_, by simpa [KindSet.contains_ofList] using ended⟩
  -- The first item was read with the attributes.
  refine .trans (.ungroup _ _ _ _) (.seq (.refl _ _) fun w h => ?_)
  obtain ⟨u, v, rfl, first, more⟩ := derives_seq.mp h
  rcases derives_opt.mp first with first | rfl
  · exact .more first more
  · exact more

end Rule

theorem TokenStream.spent_file {s : TokenStream} (atEof : s.eof.kind = .eof)
    (plain : ∀ t ∈ s.tokens, t.kind.isNode = false) (quiet : (s.run .file).reports = []) :
    Spent Symbol.file s.tokens (s.run .file).rest ∧ seen s.eof (s.run .file).rest = .eof := by
  refine (Rule.spent_file atEof (Rule.builds_upTo atEof _) (by omega) ?_ fun _ => quiet).ends
  constructor
  case enough => omega
  case plain =>
    intro l mem
    obtain ⟨t, inside, rfl⟩ := List.mem_map.mp mem
    exact plain t inside

end LosslessTree
