import LosslessTree.Proofs.Snippet.Calls
import LosslessTree.Proofs.Snippet.Extracting
import LosslessTree.Proofs.Token.Strands

set_option autoImplicit false

namespace LosslessTree

open TokenStream SyntaxTree Strand

theorem Category.not_mem_of_mem {c c' : Category} {k : Kind} (mem : c.members.contains k = true)
    (other : c' ≠ c) : c'.members.contains k = false := by
  by_contra both
  rw [Bool.not_eq_false, ← ofKind?_eq_some_iff, (ofKind?_eq_some_iff k c).mpr mem] at both
  exact other (Option.some.inj both).symm

namespace Snippet

theorem isWord_let : IsWord "let".toList .letKw :=
  ⟨passage_of_ends (by decide +kernel) (by decide +kernel) (by decide +kernel) (by decide +kernel),
    by decide +kernel⟩

theorem isWord_equal : IsWord "=".toList .equal :=
  ⟨passage_of_ends (by decide +kernel) (by decide +kernel) (by decide +kernel) (by decide +kernel),
    by decide +kernel⟩

theorem isWord_semicolon : IsWord ";".toList .semicolon :=
  ⟨passage_of_ends (by decide +kernel) (by decide +kernel) (by decide +kernel) (by decide +kernel),
    by decide +kernel⟩

def letWord : Strand := isWord_let.strand [] (by simp)

def equalSign (blanks : Text) (blank : ∀ c ∈ blanks, Unicode.isBlank c = true) : Strand :=
  isWord_equal.strand blanks blank

def closing (blanks : Text) (blank : ∀ c ∈ blanks, Unicode.isBlank c = true) : Strand :=
  isWord_semicolon.strand blanks blank

theorem closing_apart (blanks : Text) (blank : ∀ c ∈ blanks, Unicode.isBlank c = true) :
    (closing blanks blank).Apart := by
  have isBreak : Lexeme.isBreak ';' = true := by decide +kernel
  have ends : ∀ c ∈ ";".toList.head?, Lexeme.isBreak c = true := by simpa using isBreak
  exact apart_of_excerpt ends

section Texts

variable {p e back back' : Text} {pat value : Strand} (split : ' ' :: p = pat.text ++ back)
include split

theorem textOf_pattern (blank : ∀ c ∈ back, Unicode.isBlank c = true) :
    "let ".toList ++ p ++ ";".toList = textOf [letWord, pat, closing back blank] := by
  calc "let ".toList ++ p ++ ";".toList = "let".toList ++ ((' ' :: p) ++ ";".toList) := by simp
    _ = textOf [letWord, pat, closing back blank] := by
      simp [split, textOf, letWord, closing, IsWord.strand, Strand.text]

theorem textOf_initializer (split' : ' ' :: e = value.text ++ back')
    (blank : ∀ c ∈ back ++ [' '], Unicode.isBlank c = true) (blank' : ∀ c ∈ back', Unicode.isBlank c = true) :
    "let ".toList ++ p ++ " = ".toList ++ e ++ ";".toList =
      textOf [letWord, pat, equalSign (back ++ [' ']) blank, value, closing back' blank'] := by
  calc "let ".toList ++ p ++ " = ".toList ++ e ++ ";".toList =
      "let".toList ++ ((' ' :: p) ++ (" =".toList ++ ((' ' :: e) ++ ";".toList))) := by simp
    _ = textOf [letWord, pat, equalSign (back ++ [' ']) blank, value, closing back' blank'] := by
      rw [split, split']
      simp [textOf, letWord, equalSign, closing, IsWord.strand, Strand.text]

end Texts

structure Laid (pat : Strand) (tail : List Strand) (word : Token) (own ownTail base before behind : List Token) :
    Prop where
  isPassage : Passage (textOf (letWord :: pat :: tail)) base
  fills : Fills inBlock (fnKinds ++ []) ([] ++ [.rightBrace]) (textOf (letWord :: pat :: tail))
    base before (word :: (own ++ ownTail)) behind
  isLet : word.kind = .letKw
  alike : Token.Alike (Text.byteLength (inBlock.lead ++ letWord.text) + pat.blanks.byteLength) pat.base own
  strung : Strung (Text.byteLength (inBlock.lead ++ letWord.text ++ pat.text)) tail ownTail

theorem exists_laid {pat : Strand} {more : List Strand} (apart : ∀ s ∈ pat :: more, s.Apart) {blanks : Text}
    (blank : ∀ c ∈ blanks, Unicode.isBlank c = true) :
    ∃ word own ownTail base before behind,
      Laid pat (more ++ [closing blanks blank]) word own ownTail base before behind := by
  have apart : ∀ s ∈ pat :: more ++ [closing blanks blank], s.Apart :=
    List.forall_mem_append.mpr ⟨apart, by simpa using closing_apart blanks blank⟩
  have closed (t : Token) (mem : t ∈ (closing blanks blank).base.getLast?) : t.kind ≠ .stringLiteral := by
    simp [isWord_semicolon.last t mem]
  have bare : letWord.blanks = [] := rfl
  have final : (letWord :: (pat :: more ++ [closing blanks blank])).getLast? = some (closing blanks blank) :=
    List.getLast?_concat (l := letWord :: pat :: more)
  obtain ⟨base, isPassage, strung⟩ := Strand.exists_passage bare apart final closed
  obtain ⟨before, all, behind, fills⟩ := reads_inBlock.fill isPassage
  obtain ⟨_, _, rfl, first, strung⟩ := (strung.moved fills.alike).uncons
  obtain ⟨own, ownTail, rfl, alike, strung⟩ := strung.uncons
  obtain ⟨word, rfl, isLet⟩ := isWord_let.exists_token first
  refine ⟨word, own, ownTail, base, before, behind, isPassage, fills, isLet, ?_, ?_⟩
  · simpa using alike
  · simpa [Nat.add_assoc] using strung

section Tokens

variable {pat value : Strand} {word : Token} {own ownTail base before behind : List Token} {blanks blanks' : Text}
  {blank : ∀ c ∈ blanks, Unicode.isBlank c = true} {blank' : ∀ c ∈ blanks', Unicode.isBlank c = true}

theorem Laid.exists_last (laid : Laid pat [closing blanks blank] word own ownTail base before behind) :
    ∃ last : Token, ownTail = [last] ∧ last.kind = .semicolon := by
  obtain ⟨_, _, rfl, alike, strung⟩ := laid.strung.uncons
  rw [strung.eq_nil, List.append_nil]
  exact isWord_semicolon.exists_token alike

theorem Laid.exists_value
    (laid : Laid pat [equalSign blanks blank, value, closing blanks' blank'] word own ownTail base before behind) :
    ∃ equal ownValue last, ownTail = equal :: (ownValue ++ [last]) ∧ equal.kind = .equal ∧
      last.kind = .semicolon ∧ Token.Alike (Text.byteLength (inBlock.lead ++ letWord.text ++ pat.text ++
        (equalSign blanks blank).text) + value.blanks.byteLength) value.base ownValue := by
  obtain ⟨_, _, rfl, first, strung⟩ := laid.strung.uncons
  obtain ⟨ownValue, _, rfl, alike, strung⟩ := strung.uncons
  obtain ⟨_, _, rfl, final, nothing⟩ := strung.uncons
  obtain ⟨equal, rfl, isEqual⟩ := isWord_equal.exists_token first
  obtain ⟨last, rfl, closes⟩ := isWord_semicolon.exists_token final
  refine ⟨equal, ownValue, last, ?_, isEqual, closes, ?_⟩
  · simp [nothing.eq_nil]
  · rw [Text.byteLength_append _ (equalSign blanks blank).text]
    exact alike

end Tokens

theorem quotes_of_strand {t : SyntaxTree} {s : Strand} {a b : Text} {own later : List Token} {parent : Nat}
    {p : Place} {k : Kind} {inner rest f : Forest} (text : t.text = a ++ (s.text ++ b))
    (alike : Token.Alike (a.byteLength + s.blanks.byteLength) s.base own)
    (covers : t.Covers parent p (.node k inner rest) (own ++ later))
    (leaves : inner.leaves = own.map Token.leaf) (bare : inner.bare = f.bare) (solid : ∀ t ∈ own, t.leaf.Solid) :
    t.Quotes p.node (a.byteLength + s.blanks.byteLength) k f s.excerpt s.base := by
  have split : t.text = (a ++ s.blanks) ++ (s.excerpt ++ b) := by simp [text, Strand.text]
  rw [← Text.byteLength_append] at alike ⊢
  refine covers.quotes (by rw [leaves, List.length_map]) bare (fun l mem => ?_) split s.isPassage alike
  rw [leaves] at mem
  obtain ⟨t, inside, rfl⟩ := List.mem_map.mp mem
  exact solid t inside

def endOf (strands : List Strand) : Token := (ofText (inBlock.fill (textOf strands))).eof

-- A statement that is read from strands: its pattern is that of an extract, and its other children
-- are those of what is read behind the pattern.
structure Introduces (strands : List Strand) (pat : Strand) (k : Kind) (inner more : Forest) (own : List Token)
    (s : Snippet) (x : View.LetStmt s.file.tree) : Prop where
  read : Snippet.statement (textOf strands) = some s
  source : s.file.tree.text = inBlock.fill (textOf strands)
  node : s.node = .ok x.node
  pat : ∃ y place, x.pat? = some y ∧ s.file.tree.Quotes y.node place k inner pat.excerpt pat.base
  others : ∃ q later, s.file.tree.Covers x.node q more (own ++ later) ∧
    ∀ c, c ≠ Category.pat → (s.file.tree.firstChildAs (.category c) x.node).map Typed.node =
      ((more.layout x.node q).children.filterMap Child.node?).find? fun m =>
        c.members.contains (s.file.tree.kind m)

section Statements

variable {pat : Strand} {tail : List Strand} {word eof : Token} {own ownTail base before behind tokens : List Token}
  {k : Kind} {inner more : Forest} {offset : Nat}

theorem Laid.read (laid : Laid pat tail word own ownTail base before behind)
    (leaves : inner.leaves = (word :: (own ++ ownTail)).map Token.leaf)
    (passes : Rule.Passes (endOf (letWord :: pat :: tail)) Rule.letStatement (word :: (own ++ (ownTail ++ behind)))
      fun _ parts left => parts = .node .letStmt inner .nil ∧ left = behind) :
    ∃ s parent p rest later, Snippet.statement (textOf (letWord :: pat :: tail)) = some s ∧
      s.file.tree.text = inBlock.fill (textOf (letWord :: pat :: tail)) ∧ s.node = .ok p.node ∧
        s.file.tree.Covers parent p (.node .letStmt inner rest) (word :: (own ++ (ownTail ++ later))) := by
  have stands := stands_inBlock laid.isPassage laid.fills ⟨word, _, rfl, laid.isLet⟩ leaves
    (by simpa [endOf] using passes)
  obtain ⟨s, read, file, node⟩ := stands.read laid.isPassage.trimmed
  obtain ⟨parent, p, rest, later, at_, covers⟩ := stands.covers
  rw [← file] at covers
  rw [← at_] at node
  refine ⟨s, parent, p, rest, later, read, ?_, node, by simpa using covers⟩
  rw [file]
  rfl

theorem exists_pat {t : SyntaxTree} {n m : Nat} {nodes : List Nat} (children : t.childNodes n = m :: nodes)
    (isPat : Category.pat.members.contains (t.kind m) = true) :
    ∃ y, t.firstChildAs (.category .pat) n = some y ∧ y.node = m := by
  have first := map_firstChildAs (t := t) (.category .pat) n
  simp only [children, List.find?_cons, View.accepts, isPat, Option.map_eq_some_iff] at first
  exact first

theorem firstChildAs_behind {t : SyntaxTree} {n m : Nat} {nodes : List Nat} {c : Category}
    (children : t.childNodes n = m :: nodes) (isPat : Category.pat.members.contains (t.kind m) = true)
    (other : c ≠ .pat) : (t.firstChildAs (.category c) n).map Typed.node =
      nodes.find? fun m => c.members.contains (t.kind m) := by
  have passed : c.members.contains (t.kind m) = false := Category.not_mem_of_mem isPat other
  rw [map_firstChildAs, children]
  simp [View.accepts, passed]

theorem Laid.introduces (laid : Laid pat tail word own ownTail base before behind)
    (e : Extract eof k inner offset tokens pat.excerpt pat.base)
    (isPat : Category.pat.members.contains k = true) (leaves : more.leaves = ownTail.map Token.leaf)
    (untyped : seen (endOf (letWord :: pat :: tail)) (ownTail ++ behind) ≠ .colon)
    (ends : Rule.Passes (endOf (letWord :: pat :: tail)) (do Rule.initializer; Rule.expect .semicolon)
      (ownTail ++ behind) fun _ parts left => parts = more ∧ left = behind) :
    ∃ s x, Introduces (letWord :: pat :: tail) pat k inner more ownTail s x := by
  -- Rules do not tell the tokens of the pattern here from those that it was taken from.
  obtain ⟨inner', bare, leaves', passes⟩ := e.passes_pattern laid.alike isPat
  have whole : (Forest.leaf word.leaf (.node k inner' more)).leaves = (word :: (own ++ ownTail)).map Token.leaf := by
    simp [Forest.leaves, leaves, leaves']
  obtain ⟨s, parent, p, rest, later, read, source, node, covers⟩ :=
    laid.read whole (passes_letStatement passes untyped ends)
  obtain ⟨site, inside, -⟩ := covers.node
  have behindWord : s.file.tree.Covers p.node (p.inside.afterLeaf word.leaf) (.node k inner' more)
      (own ++ (ownTail ++ later)) := inside.leaf.2.2.2
  obtain ⟨patSite, -, further⟩ := behindWord.node
  have text : s.file.tree.text =
      (inBlock.lead ++ letWord.text) ++ (pat.text ++ (textOf tail ++ inBlock.tail)) := by
    simp [source, Template.fill, textOf]
  have quotes := quotes_of_strand text laid.alike behindWord leaves' bare fun t mem =>
    laid.fills.solid t (by simp [mem])
  have children : s.file.tree.childNodes p.node = (p.inside.afterLeaf word.leaf).node ::
      (more.layout p.node ((p.inside.afterLeaf word.leaf).inside.after inner')).children.filterMap Child.node? := by
    rw [site.childNodes]
    rfl
  have isLet : (View.production .letStmt).accepts (s.file.tree.kind p.node) = true := by
    simp [site.kind, View.accepts]
  have here : Category.pat.members.contains (s.file.tree.kind (p.inside.afterLeaf word.leaf).node) = true := by
    rw [patSite.kind, isPat]
  obtain ⟨y, first, same⟩ := exists_pat children here
  refine ⟨s, ⟨p.node, isLet⟩, read, source, node, ⟨y, _, first, same ▸ quotes⟩,
    (p.inside.afterLeaf word.leaf).inside.after inner', later, ?_, fun c => firstChildAs_behind children here⟩
  simpa [leaves'] using further

end Statements

section Parts

variable {pat value : Strand} {word eof eof' equal last : Token}
  {own ownTail base before behind tokens tokens' : List Token} {k k' : Kind} {inner inner' : Forest}
  {offset offset' : Nat} {blanks blanks' : Text} {blank : ∀ c ∈ blanks, Unicode.isBlank c = true}
  {blank' : ∀ c ∈ blanks', Unicode.isBlank c = true}

theorem Introduces.initializer {strands : List Strand} {s : Snippet} {x : View.LetStmt s.file.tree}
    (h : Introduces strands pat k inner (.leaf equal.leaf (.node k' inner' (.leaf last.leaf .nil)))
      (equal :: (own ++ [last])) s x) (isExpr : Category.expr.members.contains k' = true) :
    x.type? = none ∧ ∃ z p rest later, x.initializer? = some z ∧ z.node = p.node ∧
      s.file.tree.Covers x.node p (.node k' inner' rest) (own ++ later) := by
  obtain ⟨q, later, covers, others⟩ := h.others
  have behindEqual : s.file.tree.Covers x.node (q.afterLeaf equal.leaf) (.node k' inner' (.leaf last.leaf .nil))
      (own ++ last :: later) := by
    simpa using covers.leaf.2.2.2
  have kind : s.file.tree.kind (q.afterLeaf equal.leaf).node = k' := behindEqual.node.1.kind
  have only : (Forest.layout x.node q (.leaf equal.leaf (.node k' inner' (.leaf last.leaf .nil)))).children.filterMap
      Child.node? = [(q.afterLeaf equal.leaf).node] := rfl
  have noType : Category.type.members.contains k' = false := Category.not_mem_of_mem isExpr (by decide)
  have types := others .type (by decide)
  have values := others .expr (by decide)
  simp only [only, List.find?_cons, List.find?_nil, kind, noType, Option.map_eq_none_iff] at types
  simp only [only, List.find?_cons, kind, isExpr, Option.map_eq_some_iff] at values
  obtain ⟨z, found, same⟩ := values
  exact ⟨types, z, _, _, _, found, same, behindEqual⟩

theorem Laid.introduces_alone (laid : Laid pat [closing blanks blank] word own ownTail base before behind)
    (e : Extract eof k inner offset tokens pat.excerpt pat.base)
    (isPat : Category.pat.members.contains k = true) :
    ∃ s x more, Introduces [letWord, pat, closing blanks blank] pat k inner more ownTail s x ∧
      x.type? = none ∧ x.initializer? = none := by
  obtain ⟨last, rfl, closes⟩ := laid.exists_last
  have whole : (Forest.leaf last.leaf .nil).leaves = [last].map Token.leaf := rfl
  obtain ⟨s, x, introduces⟩ := laid.introduces e isPat whole (by simp [closes]) (passes_semicolon closes)
  obtain ⟨q, later, -, others⟩ := introduces.others
  exact ⟨s, x, _, introduces, Option.map_eq_none_iff.mp (others .type (by decide)),
    Option.map_eq_none_iff.mp (others .expr (by decide))⟩

theorem Laid.introduces_value
    (laid : Laid pat [equalSign blanks blank, value, closing blanks' blank'] word own ownTail base before behind)
    (e : Extract eof k inner offset tokens pat.excerpt pat.base)
    (isPat : Category.pat.members.contains k = true)
    (e' : Extract eof' k' inner' offset' tokens' value.excerpt value.base)
    (isExpr : Category.expr.members.contains k' = true) :
    ∃ s x more, Introduces [letWord, pat, equalSign blanks blank, value, closing blanks' blank']
      pat k inner more ownTail s x ∧ x.type? = none ∧ ∃ z place, x.initializer? = some z ∧
        s.file.tree.Quotes z.node place k' inner' value.excerpt value.base := by
  obtain ⟨equal, ownValue, last, rfl, isEqual, closes, alike⟩ := laid.exists_value
  -- A semicolon goes on with no expression, so the value is read whole.
  have ends (eof : Token) : seen eof (last :: behind) ∉ Rule.expressionMore := by
    simp [closes, Rule.expressionMore, Rule.operandMore]
  obtain ⟨innerValue, bare, leaves, passes⟩ := e'.passes_expression alike isExpr (ends (endOf _))
  have whole : (Forest.leaf equal.leaf (.node k' innerValue (.leaf last.leaf .nil))).leaves =
      (equal :: (ownValue ++ [last])).map Token.leaf := by
    simp [Forest.leaves, leaves]
  obtain ⟨s, x, introduces⟩ := laid.introduces e isPat whole (by simp [isEqual])
    (by simpa using passes_value closes isEqual passes)
  obtain ⟨untyped, z, place, rest, later, found, same, covers⟩ := introduces.initializer isExpr
  have source : s.file.tree.text = (inBlock.lead ++ letWord.text ++ pat.text ++ (equalSign blanks blank).text) ++
      (value.text ++ ((closing blanks' blank').text ++ inBlock.tail)) := by
    simp [introduces.source, Template.fill, textOf]
  have quotes := quotes_of_strand source alike covers leaves bare fun t mem =>
    laid.fills.solid t (by simp [mem])
  exact ⟨s, x, _, introduces, untyped, z, _, found, same ▸ quotes⟩

end Parts

def Shows (s : Snippet) (text : Text) (t : SyntaxTree) (n : Nat) : Prop :=
  t.trimmedText n = text.trim ∧ ∃ m, s.Copies t n m

structure Operand (c : Call) (s : Snippet) (strand : Strand) (back : Text) (k : Kind) (inner : Forest) :
    Prop where
  excerpt : strand.excerpt = c.excerpt
  text : ' ' :: c.composed = strand.text ++ back
  gap : strand.blanks ≠ []
  blank : ∀ a ∈ back, Unicode.isBlank a = true
  asked : c.kinds.contains k = true
  extract : ∃ eof offset tokens, Extract eof k inner offset tokens strand.excerpt strand.base
  shown : ∃ n offset, s.node = .ok n ∧ s.file.tree.Quotes n offset k inner strand.excerpt strand.base

theorem Call.exists_operand {c : Call} {s : Snippet} (given : c.result = some s) :
    ∃ strand back k inner, Operand c s strand back k inner := by
  obtain ⟨clean, n, takes, admitted, rfl⟩ := result_eq_some_iff.mp given
  obtain ⟨k, inner, offset, tokens, excerpt, base, extract, quotes⟩ :=
    parse_extract clean (pos_of_asked takes.asked) takes.inside
  obtain rfl : excerpt = c.excerpt := quotes.text.symm.trans takes.text
  obtain ⟨front, back, split, blank, blank'⟩ := c.composed.exists_blanks
  have gap : Unicode.isBlank ' ' = true := by decide +kernel
  have blank : ∀ a ∈ ' ' :: front, Unicode.isBlank a = true := List.forall_mem_cons.mpr ⟨gap, blank⟩
  refine ⟨⟨' ' :: front, c.excerpt, base, blank, extract.isPassage⟩, back, k, inner, rfl, ?_, by simp, blank',
    quotes.kind ▸ takes.asked, ⟨_, _, _, extract⟩, n, offset, (takes.whole clean admitted).node, quotes⟩
  simpa [Strand.text, Call.excerpt] using split

theorem Operand.shows {c : Call} {s : Snippet} {strand : Strand} {back : Text} {k : Kind} {inner : Forest}
    (h : Operand c s strand back k inner) {t : SyntaxTree} {n place : Nat}
    (there : t.Quotes n place k inner strand.excerpt strand.base) : s.Shows c.composed t n := by
  obtain ⟨m, offset, node, here⟩ := h.shown
  exact ⟨there.text.trans h.excerpt, m, copies_of_quotes node here there⟩

-- The snippet is a statement, without a type, of which the pattern is what the other snippet is.
structure Binds (s : Snippet) (x : View.LetStmt s.file.tree) (text : Text) (part : Snippet) : Prop where
  seen : ∃ n, s.node = .ok n ∧ s.file.tree.view? (.production .letStmt) n = some x
  pat : ∃ y, x.pat? = some y ∧ part.Shows text s.file.tree y.node
  untyped : x.type? = none

theorem Introduces.binds {strands : List Strand} {c : Call} {pat : Strand} {back : Text} {k : Kind}
    {inner more : Forest} {own : List Token} {s part : Snippet} {x : View.LetStmt s.file.tree}
    (h : Introduces strands pat k inner more own s x) (operand : Operand c part pat back k inner)
    (untyped : x.type? = none) : Binds s x c.composed part := by
  obtain ⟨y, place, first, quotes⟩ := h.pat
  exact ⟨⟨x.node, h.node, (view?_eq_some_iff _ _ _ _).mpr rfl⟩, ⟨y, first, operand.shows quotes⟩, untyped⟩

theorem letStatement_alone {p : Text} {sp : Snippet} (isPattern : pattern p = some sp) :
    ∃ (s : Snippet) (x : View.LetStmt s.file.tree),
      letStatement p none = some s ∧ Binds s x p sp ∧ x.initializer? = none := by
  obtain ⟨pat, back, k, inner, operand⟩ := Call.exists_operand (c := .pattern p) isPattern
  have apart : ∀ s ∈ [pat], s.Apart := by simp [apart_of_blanks operand.gap]
  obtain ⟨word, own, ownTail, base, before, behind, laid⟩ := exists_laid apart operand.blank
  obtain ⟨_, _, _, extract⟩ := operand.extract
  obtain ⟨s, x, more, introduces, untyped, noValue⟩ := laid.introduces_alone extract operand.asked
  have text := textOf_pattern operand.text operand.blank
  exact ⟨s, x, (congrArg statement text).trans introduces.read, introduces.binds operand untyped, noValue⟩

theorem letStatement_with {p e : Text} {sp se : Snippet} (isPattern : pattern p = some sp)
    (isExpression : expression e = some se) : ∃ (s : Snippet) (x : View.LetStmt s.file.tree),
      letStatement p (some e) = some s ∧ Binds s x p sp ∧
        ∃ z, x.initializer? = some z ∧ se.Shows e s.file.tree z.node := by
  obtain ⟨pat, back, k, inner, operand⟩ := Call.exists_operand (c := .pattern p) isPattern
  obtain ⟨value, back', k', inner', operand'⟩ := Call.exists_operand (c := .expression e) isExpression
  have gap : Unicode.isBlank ' ' = true := by decide +kernel
  have blank : ∀ c ∈ back ++ [' '], Unicode.isBlank c = true :=
    List.forall_mem_append.mpr ⟨operand.blank, by simpa using gap⟩
  have apart : ∀ s ∈ [pat, equalSign (back ++ [' ']) blank, value], s.Apart := by
    have between : (equalSign (back ++ [' ']) blank).Apart :=
      apart_of_blanks (by simp [equalSign, IsWord.strand])
    simp [apart_of_blanks operand.gap, apart_of_blanks operand'.gap, between]
  obtain ⟨word, own, ownTail, base, before, behind, laid⟩ := exists_laid apart operand'.blank
  obtain ⟨_, _, _, extract⟩ := operand.extract
  obtain ⟨_, _, _, extract'⟩ := operand'.extract
  obtain ⟨s, x, more, introduces, untyped, z, place, found, quotes⟩ :=
    laid.introduces_value extract operand.asked extract' operand'.asked
  have text := textOf_initializer operand.text operand'.text blank operand'.blank
  exact ⟨s, x, (congrArg statement text).trans introduces.read, introduces.binds operand untyped, z, found,
    operand'.shows quotes⟩

/-- A pattern and an expression that are accepted on their own are accepted in one statement, whatever
blanks stand around them, and so is the pattern alone. They are there what they are on their own. -/
theorem letStatement_composes {p : Text} {sp : Snippet} (isPattern : pattern p = some sp) :
    (∀ e se, expression e = some se → ∃ (s : Snippet) (x : View.LetStmt s.file.tree),
      letStatement p (some e) = some s ∧ Binds s x p sp ∧
        ∃ z, x.initializer? = some z ∧ se.Shows e s.file.tree z.node) ∧
      ∃ (s : Snippet) (x : View.LetStmt s.file.tree),
        letStatement p none = some s ∧ Binds s x p sp ∧ x.initializer? = none :=
  ⟨fun _ _ => letStatement_with isPattern, letStatement_alone isPattern⟩

-- A comment in the pattern, and blanks around both.
theorem letStatement_composes_tuple :
    let p := "\n (a, // x\n _) ".toList
    let e := "f(b) + 1\n".toList
    ∃ sp se, (pattern p = some sp ∧ expression e = some se) ∧
      (∃ (s : Snippet) (x : View.LetStmt s.file.tree), letStatement p (some e) = some s ∧ Binds s x p sp ∧
        ∃ z, x.initializer? = some z ∧ se.Shows e s.file.tree z.node) ∧
      ∃ (s : Snippet) (x : View.LetStmt s.file.tree),
        letStatement p none = some s ∧ Binds s x p sp ∧ x.initializer? = none := by
  intro p e
  obtain ⟨sp, isPattern⟩ := Option.isSome_iff_exists.mp (show (pattern p).isSome = true by decide +kernel)
  obtain ⟨se, isExpression⟩ := Option.isSome_iff_exists.mp (show (expression e).isSome = true by decide +kernel)
  have composes := letStatement_composes isPattern
  exact ⟨sp, se, ⟨isPattern, isExpression⟩, composes.1 e se isExpression, composes.2⟩

end Snippet

end LosslessTree
