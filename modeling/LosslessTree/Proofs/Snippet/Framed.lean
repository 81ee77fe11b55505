import LosslessTree.Proofs.Grammar.Readable
import LosslessTree.Proofs.Tree.Trimming

set_option autoImplicit false

namespace LosslessTree

open Rule

section Statements

variable {eof word wildcard equal value semicolon : Token} {own rest : List Token} {k : Kind} {f : Forest}

def initializerParts (word wildcard equal semicolon : Token) (k : Kind) (f : Forest) : Forest :=
  .leaf word.leaf <| .node .wildcardPat (.leaf wildcard.leaf .nil) <| .leaf equal.leaf <|
    .node k f (.leaf semicolon.leaf .nil)

def patternParts (word equal value semicolon : Token) (k : Kind) (f : Forest) : Forest :=
  .leaf word.leaf <| .node k f <| .leaf equal.leaf <|
    .node .pathExpr (.node .path (.node .nameRef (.leaf value.leaf .nil) .nil) .nil)
      (.leaf semicolon.leaf .nil)

theorem passes_whenSees_of_ne {k : Kind} {rule : Rule Unit} {tokens : List Token}
    {Q : Unit → Forest → List Token → Prop} (other : seen eof tokens ≠ k) :
    Passes eof (whenSees k rule) tokens Q ↔ Q () .nil tokens := by
  simp [whenSees, other]

theorem passes_statement_of_let {Q : Unit → Forest → List Token → Prop} (isLet : word.kind = .letKw)
    (h : Passes eof letStatement (word :: rest) Q) : Passes eof statement (word :: rest) Q := by
  simpa [statement, isLet] using h

theorem passes_letStatement {tokens : List Token} {more : Forest}
    (inside : Passes eof pattern (own ++ tokens) fun kind parts left =>
      kind.isSome = true ∧ parts = .node k f .nil ∧ left = tokens)
    (untyped : seen eof tokens ≠ .colon)
    (ends : Passes eof (do initializer; expect .semicolon) tokens fun _ parts left =>
      parts = more ∧ left = rest) :
    Passes eof letStatement (word :: (own ++ tokens)) fun _ parts left =>
      parts = .node .letStmt (.leaf word.leaf (.node k f more)) .nil ∧ left = rest := by
  simp only [letStatement, passes_node, passes_bind, passes_takeKind, Forest.taken_cons, List.tail_cons,
    expectPattern]
  refine inside.imp ?_
  rintro kind _ _ ⟨named, rfl, rfl⟩
  simp only [named, if_true, passes_pure]
  rw [passes_whenSees_of_ne untyped]
  refine (passes_bind.mp ends).imp fun _ parts left ended => ended.imp ?_
  rintro _ _ _ ⟨rfl, rfl⟩
  simp

variable (closes : semicolon.kind = .semicolon)
include closes

theorem passes_semicolon :
    Passes eof (do initializer; expect .semicolon) (semicolon :: rest) fun _ parts left =>
      parts = .leaf semicolon.leaf .nil ∧ left = rest := by
  simp [initializer, closes]

theorem passes_value (isEqual : equal.kind = .equal)
    (inside : Passes eof innerExpression (own ++ semicolon :: rest) fun _ parts left =>
      parts = .node k f .nil ∧ left = semicolon :: rest) :
    Passes eof (do initializer; expect .semicolon) (equal :: (own ++ semicolon :: rest)) fun _ parts left =>
      parts = .leaf equal.leaf (.node k f (.leaf semicolon.leaf .nil)) ∧ left = rest := by
  simp only [initializer, passes_bind, passes_eat, seen_cons, isEqual, if_true, passes_discard, List.tail_cons,
    Forest.taken_cons]
  refine inside.imp ?_
  rintro _ _ _ ⟨rfl, rfl⟩
  simp [closes]

theorem passes_initializer
    (words : [word, wildcard, equal].map Token.kind = [.letKw, .underscore, .equal])
    (inside : Passes eof innerExpression (own ++ semicolon :: rest) fun _ parts left =>
      parts = .node k f .nil ∧ left = semicolon :: rest) :
    Passes eof statement (word :: wildcard :: equal :: (own ++ semicolon :: rest)) fun _ parts left =>
      parts = .node .letStmt (initializerParts word wildcard equal semicolon k f) .nil ∧ left = rest := by
  simp only [List.map_cons, List.map_nil, List.cons.injEq, and_true] at words
  obtain ⟨isLet, isWildcard, isEqual⟩ := words
  have anything : Passes eof pattern ([wildcard] ++ equal :: (own ++ semicolon :: rest)) fun kind parts left =>
      kind.isSome = true ∧ parts = .node .wildcardPat (.leaf wildcard.leaf .nil) .nil ∧
        left = equal :: (own ++ semicolon :: rest) := by
    simp [pattern, isWildcard]
  exact passes_statement_of_let isLet <|
    passes_letStatement anything (by simp [isEqual]) (passes_value closes isEqual inside)

theorem passes_pattern_of_let (isLet : word.kind = .letKw)
    (words : [equal, value].map Token.kind = [.equal, .ident])
    (inside : Passes eof pattern (own ++ equal :: value :: semicolon :: rest) fun kind parts left =>
      kind.isSome = true ∧ parts = .node k f .nil ∧ left = equal :: value :: semicolon :: rest) :
    Passes eof statement (word :: (own ++ equal :: value :: semicolon :: rest)) fun _ parts left =>
      parts = .node .letStmt (patternParts word equal value semicolon k f) .nil ∧ left = rest := by
  simp only [List.map_cons, List.map_nil, List.cons.injEq, and_true] at words
  obtain ⟨isEqual, isName⟩ := words
  have behind : seen eof (semicolon :: rest) ∉ expressionMore := by
    simp [closes, expressionMore, operandMore]
  have name : Readable eof .pathExpr none [value] _ := readable_path isName .nil
  have value := name.inner_passes (Q := fun _ parts left => parts = .node .pathExpr _ .nil ∧
    left = semicolon :: rest) behind ⟨rfl, rfl⟩
  exact passes_statement_of_let isLet <|
    passes_letStatement inside (by simp [isEqual]) (passes_value closes isEqual value)

end Statements

structure Frame where
  fnWord : Token
  name : Token
  opening : Token
  closing : Token
  leftBrace : Token
  rightBrace : Token

namespace Frame

def lead (x : Frame) : List Token := [x.fnWord, x.name, x.opening, x.closing, x.leftBrace]

def blockParts (x : Frame) (inside : Forest) : Forest :=
  .leaf x.leftBrace.leaf <| .node .letStmt inside (.leaf x.rightBrace.leaf .nil)

def fnParts (x : Frame) (inside : Forest) : Forest :=
  .leaf x.fnWord.leaf <| .node .name (.leaf x.name.leaf .nil) <|
    .node .paramList (.leaf x.opening.leaf (.leaf x.closing.leaf .nil)) <|
      .node .blockExpr (x.blockParts inside) .nil

structure Fits (x : Frame) : Prop where
  lead : x.lead.map Token.kind = [.fnKw, .ident, .leftParen, .rightParen, .leftBrace]
  rightBrace : x.rightBrace.kind = .rightBrace

theorem exists_of_kinds {front : List Token} {last : Token}
    (lead : front.map Token.kind = [.fnKw, .ident, .leftParen, .rightParen, .leftBrace])
    (closes : last.kind = .rightBrace) : ∃ x : Frame, front = x.lead ∧ last = x.rightBrace ∧ x.Fits := by
  have kinds := lead
  simp only [List.map_eq_cons_iff, List.map_eq_nil_iff] at kinds
  obtain ⟨a, _, rfl, -, b, _, rfl, -, c, _, rfl, -, d, _, rfl, -, o, _, rfl, -, rfl⟩ := kinds
  exact ⟨⟨a, b, c, d, o, last⟩, rfl, rfl, lead, closes⟩

section Parsing

variable {eof word : Token} {x : Frame} {own : List Token} {inside : Forest} (fits : x.Fits)
include fits

theorem Fits.kinds : x.fnWord.kind = .fnKw ∧ x.name.kind = .ident ∧ x.opening.kind = .leftParen ∧
    x.closing.kind = .rightParen ∧ x.leftBrace.kind = .leftBrace := by
  simpa only [Frame.lead, List.map_cons, List.map_nil, List.cons.injEq, and_true] using fits.lead

variable (isLet : word.kind = .letKw)
  (inner : Passes eof statement (word :: own ++ [x.rightBrace]) fun _ parts left =>
    parts = .node .letStmt inside .nil ∧ left = [x.rightBrace])
include isLet inner

theorem passes_blockExpr {Q : Unit → Forest → List Token → Prop}
    (ends : Q () (.node .blockExpr (x.blockParts inside) .nil) []) :
    Passes eof expectBlock (x.leftBrace :: (word :: own ++ [x.rightBrace])) Q := by
  obtain ⟨-, -, -, -, leftBrace⟩ := fits.kinds
  simp only [expectBlock, passes_bind, passes_sees, seen_cons, leftBrace, beq_self_eq_true, passes_ite,
    if_true, passes_node, block, passes_takeKind, Forest.taken_cons, List.tail_cons]
  rw [passes_loop]
  have further : (KindSet.ofList [.rightBrace, .eof]).contains .letKw = false := by decide
  simp only [blockRound, atEnd, passes_bind, passes_seesAny, List.cons_append, seen_cons, isLet, further,
    passes_ite, Bool.false_eq_true, if_false]
  refine inner.imp ?_
  rintro _ _ _ ⟨rfl, rfl⟩
  simp only [passes_pure, if_true]
  rw [passes_loop]
  simpa [blockRound, atEnd, fits.rightBrace, KindSet.contains_ofList, blockParts] using ends

theorem passes_item {Q : Option Kind → Forest → List Token → Prop}
    (ends : Q (some .fnItem) (.node .fnItem (x.fnParts inside) .nil) []) :
    Passes eof item (x.lead ++ (word :: own ++ [x.rightBrace])) Q := by
  obtain ⟨fnWord, name, opening, closing, leftBrace⟩ := fits.kinds
  have head : seen eof (x.lead ++ (word :: own ++ [x.rightBrace])) = .fnKw := fnWord
  have none : (KindSet.ofList [.hash, .pubKw]).contains .fnKw = false := by decide
  simp only [item, passes_bind, passes_nodeIf, itemRest, passes_seesAny, head, none, prelude]
  rw [passes_loop]
  simp only [attrRound, passes_bind, passes_sees, head, passes_ite]
  rw [if_neg (by decide), passes_pure, if_neg (by decide), passes_whenSees_of_ne (by rw [head]; decide)]
  simp only [itemCore, passes_bind, passes_peekKind, head, fnItem, passes_takeKind]
  simp only [Frame.lead, List.cons_append, List.nil_append, List.tail_cons, Forest.taken_cons,
    Rule.name, passes_bind, passes_sees, seen_cons, name, beq_self_eq_true, passes_ite, if_true, passes_node,
    passes_take, parameters, opening, bracketed, passes_takeKind]
  rw [passes_loop]
  have closed : (KindSet.ofList [.rightParen, .eof]).contains .rightParen = true := by decide
  simp only [bracketedRound, atEnd, passes_bind, passes_seesAny, seen_cons, closing, closed, passes_ite, if_true, passes_pure]
  rw [if_neg (by decide)]
  simp only [passes_expect, seen_cons, closing, true_and, List.tail_cons, Forest.taken_cons, returnType]
  rw [passes_whenSees_of_ne (by simp [leftBrace])]
  simp only [fnBody, passes_bind, passes_eat, seen_cons, leftBrace]
  rw [if_neg (by decide), if_neg (by decide)]
  refine passes_blockExpr fits isLet inner ?_
  simpa [fnParts] using ends

theorem passes_file {Q : Unit → Forest → List Token → Prop} (atEof : eof.kind = .eof)
    (ends : Q () (.node .fnItem (x.fnParts inside) .nil) []) :
    Passes eof file (x.lead ++ (word :: own ++ [x.rightBrace])) Q := by
  obtain ⟨fnWord, -⟩ := fits.kinds
  have head : seen eof (x.lead ++ (word :: own ++ [x.rightBrace])) = .fnKw := fnWord
  have further : (KindSet.ofList [.eof, .eof]).contains .fnKw = false := by decide
  simp only [file, passes_bind]
  rw [passes_loop]
  simp only [headRound, passes_bind, passes_sees, head, passes_ite]
  rw [if_neg (by decide), passes_pure, if_neg (by decide), passes_loop]
  simp only [itemRound, atEnd, passes_bind, passes_seesAny, head, further, passes_ite, Bool.false_eq_true,
    if_false, passes_discard, passes_call]
  refine passes_item fits isLet inner ?_
  simp only [passes_pure, if_true]
  rw [passes_loop]
  have atEof : seen eof [] = .eof := atEof
  simpa [itemRound, atEnd, atEof, KindSet.contains_ofList] using ends

end Parsing

open SyntaxTree

variable {t : SyntaxTree} {x : Frame} {inside : Forest} {own : List Token}

structure Standing (t : SyntaxTree) (x : Frame) (inside : Forest) (own : List Token) : Prop where
  kinds : [1, 2, 3, 4].map t.kind = [.fnItem, .name, .paramList, .blockExpr]
  block : (t.trimmedSpan 4).start = x.leftBrace.start
  statement : ∃ p rest, p.node = 5 ∧ t.Covers 4 p (.node .letStmt inside rest) (own ++ [x.rightBrace])

theorem standing (covers : t.Covers 0 ⟨1, 0, 0⟩ (.node .fnItem (x.fnParts inside) .nil)
    (x.lead ++ (own ++ [x.rightBrace]))) (lexed : ∀ t ∈ x.lead ++ (own ++ [x.rightBrace]), t.Lexed) :
    x.Standing t inside own := by
  obtain ⟨fnSite, inFn, -⟩ := covers.node
  obtain ⟨nameSite, -, afterName⟩ := inFn.leaf.2.2.2.node
  obtain ⟨paramSite, -, afterParams⟩ := afterName.node
  obtain ⟨blockSite, inBlock, -⟩ := afterParams.node
  refine ⟨?_, ?_, ⟨_, _, rfl, inBlock.leaf.2.2.2⟩⟩
  · simp only [List.map_cons, List.map_nil, List.cons.injEq, and_true]
    exact ⟨fnSite.kind, nameSite.kind, paramSite.kind, blockSite.kind⟩
  · have solid := inBlock.solid fun t mem => lexed t (List.mem_of_mem_drop (i := 4) mem)
    exact blockSite.trimmedSpan_start_of_tokens inBlock (fun l mem => (solid l mem).1) rfl

end Frame

end LosslessTree
