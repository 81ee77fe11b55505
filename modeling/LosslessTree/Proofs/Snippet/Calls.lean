import LosslessTree.Proofs.Snippet.Accepting
import LosslessTree.Proofs.Tree.Surroundings

set_option autoImplicit false

namespace LosslessTree.Snippet

open TokenStream SyntaxTree

inductive Call where
  | expression (text : Text)
  | statement (text : Text)
  | letStatement (pat : Text) (initializer : Option Text)
  | pattern (text : Text)
  | blockExpression (statements : Text)
  | fnItem (text : Text)
  | useItem (path : Text)
  | modItem (name : Text) (items : Option Text)
  | outerAttribute (path : Text)
  deriving DecidableEq

namespace Call

def result : Call → Option Snippet
  | expression text => Snippet.expression text
  | statement text => Snippet.statement text
  | letStatement pat initializer => Snippet.letStatement pat initializer
  | pattern text => Snippet.pattern text
  | blockExpression statements => Snippet.blockExpression statements
  | fnItem text => Snippet.fnItem text
  | useItem path => Snippet.useItem path
  | modItem name items => Snippet.modItem name items
  | outerAttribute path => Snippet.outerAttribute path

def template : Call → Template
  | expression _ | blockExpression _ => inInitializer
  | statement _ | letStatement _ _ => inBlock
  | pattern _ => inLetPattern
  | fnItem _ | useItem _ | modItem _ _ => alone
  | outerAttribute _ => beforeItem

def composed : Call → Text
  | expression text | statement text | pattern text | fnItem text => text
  | letStatement pat (some value) =>
      "let ".toList ++ pat ++ " = ".toList ++ value ++ ";".toList
  | letStatement pat none => "let ".toList ++ pat ++ ";".toList
  | blockExpression statements => "\x7b ".toList ++ statements ++ " \x7d".toList
  | useItem path => "use ".toList ++ path ++ ";".toList
  | modItem name (some items) => "mod ".toList ++ name ++ " \x7b ".toList ++ items ++ " \x7d".toList
  | modItem name none => "mod ".toList ++ name ++ ";".toList
  | outerAttribute path => "#[".toList ++ path ++ "]".toList

def kinds : Call → KindSet
  | expression _ | blockExpression _ => Category.expr.members
  | statement _ | letStatement _ _ => Category.stmt.members
  | pattern _ => Category.pat.members
  | fnItem _ => .ofList [.fnItem]
  | useItem _ => .ofList [.useItem]
  | modItem _ _ => .ofList [.modItem]
  | outerAttribute _ => .ofList [.attr]

def admits : Call → Kind → Bool
  | blockExpression _, k => k == .blockExpr
  | _, _ => true

def excerpt (c : Call) : Text := c.composed.trim

def file (c : Call) : Parse := parse (c.template.fill c.excerpt)

theorem result_eq (c : Call) :
    c.result = (Snippet.read c.template c.composed c.kinds).filter fun s => c.admits s.kind := by
  have each (r : Option Snippet) : r = r.filter fun _ => true := by cases r <;> rfl
  cases c with
  | blockExpression statements => rfl
  | letStatement pat initializer => cases initializer <;> exact each _
  | modItem name items => cases items <;> exact each _
  | _ => exact each _

theorem file_eq (c : Call) :
    c.file = parse (c.template.lead ++ (c.excerpt ++ c.template.tail)) := by
  rw [file, Template.fill, List.append_assoc]

theorem kinds_root (c : Call) : c.kinds.contains .sourceFile = false := by
  cases c <;> simp only [kinds] <;> decide

theorem kinds_tier (c : Call) {k k' : Kind} (asked : c.kinds.contains k = true)
    (asked' : c.kinds.contains k' = true) : k.tier = k'.tier := by
  have level : ∀ k ∈ c.kinds.toList, ∀ k' ∈ c.kinds.toList, k.tier = k'.tier := by
    cases c <;> simp only [kinds] <;> decide +kernel
  exact level k ((KindSet.mem_toList _ _).mpr asked) k' ((KindSet.mem_toList _ _).mpr asked')

structure Takes (c : Call) (n : Nat) : Prop where
  inside : n < c.file.tree.nodes.size
  asked : c.kinds.contains (c.file.tree.kind n) = true
  start : (c.file.tree.trimmedSpan n).start = c.template.lead.byteLength
  text : c.file.tree.trimmedText n = c.excerpt

section Nodes

variable {c : Call} {n m : Nat}

theorem pos_of_asked (asked : c.kinds.contains (c.file.tree.kind n) = true) : 0 < n := by
  refine Nat.pos_of_ne_zero ?_
  rintro rfl
  have root : c.file.tree.kind 0 = .sourceFile := (parse_rooted _).site.kind
  rw [root, c.kinds_root] at asked
  cases asked

theorem isWhole_iff : isWhole c.file.tree c.template c.excerpt c.kinds n = true ↔
    c.kinds.contains (c.file.tree.kind n) = true ∧
      (c.file.tree.trimmedSpan n).start = c.template.lead.byteLength ∧
        c.file.tree.trimmedText n = c.excerpt := by
  simp [isWhole, and_assoc]

theorem mem_descendants : n ∈ c.file.tree.descendants 0 ↔ 0 < n ∧ n < c.file.tree.nodes.size := by
  have nodes : c.file.tree.descendants 0 = _ := descendants_fill
  have size : c.file.tree.nodes.size = _ := parse_nodes_size _
  rw [nodes, List.mem_range'_1]
  change _ ∧ n < 1 + (c.file.tree.nodes.size - 1) ↔ _
  omega

theorem takes_iff : c.Takes n ↔ n ∈ c.file.tree.descendants 0 ∧
    isWhole c.file.tree c.template c.excerpt c.kinds n = true := by
  rw [mem_descendants, isWhole_iff]
  exact ⟨fun h => ⟨⟨pos_of_asked h.asked, h.inside⟩, h.asked, h.start, h.text⟩,
    fun ⟨lies, asked, start, text⟩ => ⟨lies.2, asked, start, text⟩⟩

theorem Takes.span (h : c.Takes n) : c.file.tree.trimmedSpan n =
    ⟨c.template.lead.byteLength, Text.byteLength (c.template.lead ++ c.excerpt)⟩ := by
  obtain ⟨a, e, b, -, span, text⟩ := exists_cut_of_node (pos_of_asked h.asked) h.inside
  have start := h.start
  have same : e = c.excerpt := text.symm.trans h.text
  change c.file.tree.trimmedSpan n = _ at span
  rw [span] at start ⊢
  rw [Text.byteLength_append, Text.byteLength_append, same, show a.byteLength = _ from start]

theorem Takes.only (h : c.Takes n) (inside : m < c.file.tree.nodes.size)
    (asked : c.kinds.contains (c.file.tree.kind m) = true)
    (same : c.file.tree.trimmedSpan m = c.file.tree.trimmedSpan n) : m = n :=
  eq_of_trimmedSpan (pos_of_asked asked) inside (pos_of_asked h.asked) h.inside same
    (c.kinds_tier asked h.asked)

theorem Takes.unique (h : c.Takes n) (h' : c.Takes m) : m = n :=
  h.only h'.inside h'.asked (h'.span.trans h.span.symm)

end Nodes

/-- The call gives the node of the snippet, and the snippet is nowhere else in the file. -/
structure Whole (c : Call) (s : Snippet) (n : Nat) : Prop where
  file : s.file = c.file
  clean : s.file.errors = []
  node : s.node = .ok n
  inside : n < s.file.tree.nodes.size
  kind : s.kind = s.file.tree.kind n
  asked : c.kinds.contains s.kind = true
  admitted : c.admits s.kind = true
  span : s.file.tree.trimmedSpan n =
    ⟨c.template.lead.byteLength, Text.byteLength (c.template.lead ++ c.excerpt)⟩
  text : s.file.tree.trimmedText n = c.excerpt
  only : ∀ m < s.file.tree.nodes.size, c.kinds.contains (s.file.tree.kind m) = true →
    s.file.tree.trimmedSpan m = s.file.tree.trimmedSpan n → m = n
  outside : (s.file.tree.outside n).map (fun i => s.file.tree.glimpse (.token i)) =
    (ofText c.template.lead).tokens.map Token.glimpse ++
      (ofText c.template.tail).all.map fun t =>
        t.glimpse.shift (Text.byteLength (c.template.lead ++ c.excerpt))

theorem Takes.whole {c : Call} {n : Nat} (h : c.Takes n) (clean : c.file.errors = [])
    (admitted : c.admits (c.file.tree.kind n) = true) :
    c.Whole ⟨c.file, c.file.tree.address n⟩ n where
  file := rfl
  clean := clean
  node := by
    have found : c.file.tree.resolve? 0 (c.file.tree.address n) = some n := parse_resolve h.inside
    rw [Snippet.node, SyntaxTree.resolve, found]
  inside := h.inside
  kind := rfl
  asked := h.asked
  admitted := admitted
  span := h.span
  text := h.text
  only _ inside asked same := h.only inside asked same
  outside := by
    have inside := h.inside
    have span := h.span
    simp only [c.file_eq] at inside span ⊢
    exact parse_outside (pos_of_asked h.asked) inside span

section Results

variable {c : Call}

theorem find_eq_some_iff {n : Nat} : (c.file.tree.descendants 0).find?
    (isWhole c.file.tree c.template c.excerpt c.kinds) = some n ↔ c.Takes n := by
  have sound {m : Nat} (found : (c.file.tree.descendants 0).find?
      (isWhole c.file.tree c.template c.excerpt c.kinds) = some m) : c.Takes m :=
    takes_iff.mpr ⟨List.mem_of_find?_eq_some found, List.find?_some found⟩
  refine ⟨sound, fun h => ?_⟩
  obtain ⟨lies, whole⟩ := takes_iff.mp h
  obtain ⟨m, found⟩ := Option.isSome_iff_exists.mp (List.find?_isSome.mpr ⟨n, lies, whole⟩)
  rw [found, h.unique (sound found)]

theorem result_eq_some_iff {s : Snippet} : c.result = some s ↔ c.file.errors = [] ∧
    ∃ n, c.Takes n ∧ c.admits (c.file.tree.kind n) = true ∧ s = ⟨c.file, c.file.tree.address n⟩ := by
  have read : Snippet.read c.template c.composed c.kinds = if c.file.hasErrors then none
      else ((c.file.tree.descendants 0).find? (isWhole c.file.tree c.template c.excerpt c.kinds)).map
        fun n => ⟨c.file, c.file.tree.address n⟩ := rfl
  rw [result_eq, read, Option.filter_eq_some_iff]
  by_cases clean : c.file.errors = []
  · simp only [Parse.hasErrors, clean, List.isEmpty_nil, Bool.not_true, Bool.false_eq_true, if_false,
      true_and, Option.map_eq_some_iff, find_eq_some_iff]
    constructor
    · rintro ⟨⟨n, takes, rfl⟩, admitted⟩
      exact ⟨n, takes, admitted, rfl⟩
    · rintro ⟨n, takes, admitted, rfl⟩
      exact ⟨⟨n, takes, rfl⟩, admitted⟩
  · simp [Parse.hasErrors, clean]

end Results

/-- A call that succeeds gives the one node of the kinds asked for that is the whole snippet, in a file
without problems where all other tokens are those of the template. It fails only if there are problems, if
no node is the whole snippet, or if one is but is no block where a block is asked for. -/
theorem result_whole (c : Call) :
    (∀ s, c.result = some s → ∃ n, c.Whole s n) ∧
      (c.result = none ↔ c.file.errors ≠ [] ∨ (∀ n, ¬c.Takes n) ∨
        ∃ n, c.Takes n ∧ c.admits (c.file.tree.kind n) = false) := by
  refine ⟨fun s given => ?_, ?_⟩
  · obtain ⟨clean, n, takes, admitted, rfl⟩ := result_eq_some_iff.mp given
    exact ⟨n, takes.whole clean admitted⟩
  · rw [Option.eq_none_iff_forall_ne_some]
    constructor
    · intro fails
      by_cases clean : c.file.errors = []
      · refine .inr (Classical.or_iff_not_imp_left.mpr fun some_ => ?_)
        obtain ⟨n, takes⟩ := Classical.not_forall_not.mp some_
        refine ⟨n, takes, Bool.eq_false_iff.mpr fun admitted => ?_⟩
        exact fails _ (result_eq_some_iff.mpr ⟨clean, n, takes, admitted, rfl⟩)
      · exact .inl clean
    · intro reason s given
      obtain ⟨clean, n, takes, admitted, -⟩ := result_eq_some_iff.mp given
      rcases reason with errors | nowhere | ⟨m, takes', refused⟩
      · exact errors clean
      · exact nowhere n takes
      · rw [takes.unique takes', admitted] at refused
        cases refused

-- A comment in a block is no part of its last line, and a bracket too many gets nothing out of it.
example :
    ((blockExpression "a; // \x7d\n".toList).result.map Snippet.kind) = some .blockExpr ∧
      (blockExpression "a \x7d fn g() \x7b".toList).result = none ∧
        (expression "a; b".toList).result = none ∧ (outerAttribute "a] #[b".toList).result = none := by
  decide +kernel

end Call

end LosslessTree.Snippet
