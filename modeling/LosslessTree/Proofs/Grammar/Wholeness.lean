import LosslessTree.Proofs.Grammar.Files
import LosslessTree.Proofs.Token.Placing
import LosslessTree.Proofs.Tree.Site

set_option autoImplicit false

namespace LosslessTree

namespace Forest

theorem Shaped.sorted {broken : Bool} {f : Forest} (h : f.Shaped broken)
    (plain : ∀ l ∈ f.leaves, l.kind.isNode = false) : f.Sorted := by
  induction f with
  | nil => trivial
  | leaf l rest ih =>
      exact ⟨plain l List.mem_cons_self, ih h fun l mem => plain l (List.mem_cons_of_mem _ mem)⟩
  | node k inner rest hi hr =>
      obtain ⟨isNode, _, below, behind⟩ := h
      exact ⟨isNode, hi below fun l mem => plain l (List.mem_append_left _ mem),
        hr behind fun l mem => plain l (List.mem_append_right _ mem)⟩

end Forest

namespace TokenStream

theorem run_file (text : Text) :
    ((ofText text).run .file).Fits true
      (Rule.file.marked (ofText text).eof ((ofText text).tokens.length + 1))
      (ofText text).tokens fun _ _ rest => rest = [] := by
  have quiet : ((ofText text).run .file).Quiet true := Step.quiet_broken
  obtain ⟨shaped, ⟨_, ended⟩, marked⟩ := run_file_fits (ofText_eof text) (ofText_plain text) quiet
  refine ⟨shaped, ?_, marked⟩
  cases left : ((ofText text).run .file).rest with
  | nil => rfl
  | cons t rest =>
      -- Only the end of the file is of its kind.
      rw [left] at ended
      have kept := (ofText text).run_keeps Rule.file
      have mem : t.leaf ∈ (ofText text).tokens.map Token.leaf := by
        rw [kept, left]
        simp
      obtain ⟨t', inside, same⟩ := List.mem_map.mp mem
      have kind : t'.kind = t.kind := congrArg Leaf.kind same
      exact absurd (kind.trans ended) (ofText_lexed text t' inside).ne_eof

theorem forest_leaves (text : Text) :
    (ofText text).forest.leaves = (ofText text).all.map Token.leaf := by
  have kept := (ofText text).run_keeps Rule.file
  have none := (run_file text).ends
  simp only [Step.Keeps, none, List.map_nil, List.append_nil] at kept
  rw [forest, Forest.leaves_append, ← kept, all, List.map_append]
  rfl

theorem forest_byteLength (text : Text) : (ofText text).forest.byteLength = text.byteLength := by
  rw [Forest.byteLength_leaves, forest_leaves, Token.total_leaf_byteLength]
  exact congrArg Text.byteLength (ofTextAt_text 0 text)

theorem forest_sorted (text : Text) : (ofText text).forest.Sorted := by
  have quiet : ((ofText text).run .file).Quiet true := Step.quiet_broken
  have shaped := forest_shaped (ofText_eof text) (ofText_plain text) quiet
  apply Forest.Shaped.sorted shaped.2.2.1
  intro l mem
  rw [forest_leaves, all, List.map_append] at mem
  rcases List.mem_append.mp mem with inside | last
  · obtain ⟨t, inStream, rfl⟩ := List.mem_map.mp inside
    exact ofText_plain text t inStream
  · obtain rfl := List.mem_singleton.mp last
    exact congrArg Kind.isNode (ofText_eof text)

end TokenStream

/-- Number of events of a text: one for each token up to the first end of the file, and one at either end
of each node. -/
def eventCount (text : Text) : Nat :=
  2 * (parse text).tree.nodes.size + (Lexer.start text).drain.length

open TokenStream

theorem nodes_size_parse (text : Text) :
    (parse text).tree.nodes.size = 1 + (ofText text).forest.nodeCount :=
  SyntaxTree.ofRoot_nodes_size text .sourceFile (ofText text).forest

theorem tokens_size_parse (text : Text) :
    (parse text).tree.tokens.size = (ofText text).forest.tokenCount :=
  SyntaxTree.ofRoot_tokens_size text .sourceFile (ofText text).forest

theorem eventCount_eq_forest (text : Text) : eventCount text =
    2 * (1 + (ofText text).forest.nodeCount) + (ofText text).forest.leaves.length := by
  rw [eventCount, nodes_size_parse, Lexer.drain_start, forest_leaves, List.length_map]

theorem eventCount_eq (text : Text) : eventCount text = ((ofText text).run .file).parts.markCount + 3 := by
  have marks : (ofText text).forest.markCount = ((ofText text).run .file).parts.markCount + 1 :=
    Forest.markCount_append _ _
  rw [eventCount_eq_forest]
  rw [Forest.markCount] at marks
  omega

theorem Marking.record_eq_ok {text : Text} (recorded : eventCount text ≤ Assembly.offsetLimit) :
    ∃ m, record text = .ok m ∧ m.marks.length = eventCount text ∧ m.reports = (parse text).errors ∧
      Mark.replay m.marks = .ok (Forest.node .sourceFile (ofText text).forest .nil).events := by
  obtain ⟨_, noneLeft, marked⟩ := run_file text
  have size := eventCount_eq text
  have exact : Exact narrow (1 + ((ofText text).run .file).parts.markCount) := by
    intro position before
    exact Nat.mod_eq_of_lt (by omega)
  obtain ⟨new, completed, ran, traces⟩ :=
    marked rfl narrow ⟨[.open], none, [], (ofText text).tokens⟩ rfl exact
  rw [noneLeft] at ran
  let reports := ((ofText text).run .file).reports
  let marks := .start .sourceFile none :: (new ++ [.token (ofText text).eof]) ++ [.finish]
  have closed : (push ⟨[.open] ++ new, completed, reports, []⟩ (ofText text).eof).complete 0 .sourceFile =
      .ok ⟨marks, some 0, reports, []⟩ := rfl
  have plays : Mark.Plays (new ++ [.token (ofText text).eof]) (ofText text).forest :=
    traces.plays.append (Mark.plays_token _)
  have whole := (Mark.Chain.single (by decide : Kind.sourceFile ≠ .tombstone) plays).plays []
  refine ⟨⟨marks, some 0, reports, []⟩, ?_, by simp [marks, traces.size, size], rfl, ?_⟩
  · have begun : start narrow ⟨[], none, [], (ofText text).tokens⟩ =
        (0, ⟨[.open], none, [], (ofText text).tokens⟩) := rfl
    simp only [record, begun]
    change (Rule.file.marked _ _ narrow _ >>= _) = _
    rw [ran]
    exact closed
  · rw [List.append_nil] at whole
    rw [whole, Mark.replay]
    simp [Except.map]

theorem parseByEvents_eq {text : Text} (short : text.byteLength < Assembly.offsetLimit)
    (recorded : eventCount text ≤ Assembly.offsetLimit) :
    parseByEvents text = if (parse text).tree.tokens.size + 1 < Assembly.offsetLimit
      then .ok (parse text) else .error (.assembly .tooLarge) := by
  obtain ⟨m, marks, -, reports, replayed⟩ := Marking.record_eq_ok recorded
  have fits : Assembly.cover text 0 (ofText text).forest.pieceLengths = .ok text.byteLength := by
    rw [Forest.pieceLengths, forest_leaves]
    exact ofText_cover short
  rw [eventCount_eq_forest] at recorded
  simp only [parseByEvents, marks, replayed, bind, Except.bind]
  have split : (Forest.node .sourceFile (ofText text).forest .nil).events =
      .openNode .sourceFile :: (ofText text).forest.events ++ [.closeNode] := rfl
  rw [split, tokens_size_parse]
  rcases Assembly.run_root_cases (k := .sourceFile) rfl (forest_sorted text) fits with
    ⟨ok, numbered⟩ | ⟨e, refused, why⟩
  · have room : (ofText text).forest.tokenCount + 1 < Assembly.offsetLimit := numbered.tokens
    rw [ok, if_pos room, reports]
    rfl
  · have few : (Counts.ofRoot (ofText text).forest).nodes < Assembly.offsetLimit := by
      change (ofText text).forest.nodeCount + 1 < _
      omega
    obtain rfl := why.tooLarge few
    -- The nodes and their elements are fewer than the events.
    have many : ¬(ofText text).forest.tokenCount + 1 < Assembly.offsetLimit := by
      intro room
      refine why.unnumbered ⟨few, room, ?_⟩
      change (ofText text).forest.nodeCount + (ofText text).forest.leaves.length < _
      omega
    rw [refused, if_neg many]

/-- A text with no more events than positions is parsed, unless there are too many tokens for numbers:
then that is the panic. The tree is over the whole text, and the chain of its tokens is what the lexer
gives up to the first end of the file. -/
theorem parse_whole {text : Text} (short : text.byteLength < Assembly.offsetLimit)
    (recorded : eventCount text ≤ Assembly.offsetLimit) :
    (parseByEvents text = if (parse text).tree.tokens.size + 1 < Assembly.offsetLimit
        then .ok (parse text) else .error (.assembly .tooLarge)) ∧
      (parse text).tree.kind 0 = .sourceFile ∧ (parse text).tree.nodeText 0 = text ∧
        (parse text).tree.tokenChain.map (parse text).tree.placedToken =
          (Lexer.start text).drain.flatMap Token.placed := by
  have root := SyntaxTree.ofRoot_site text .sourceFile (ofText text).forest
  have chain := SyntaxTree.tokenChain_ofRoot text .sourceFile (ofText text).forest
  refine ⟨parseByEvents_eq short recorded, root.kind, ?_, ?_⟩
  · have span : (parse text).tree.span 0 = ⟨0, 0 + text.byteLength⟩ := by
      rw [← forest_byteLength]
      exact root.span
    have sliced := Text.slice_append [] text []
    rw [SyntaxTree.nodeText, span]
    rwa [List.nil_append, List.append_nil] at sliced
  · rw [forest_leaves] at chain
    rw [Lexer.drain_start]
    exact chain.trans (ofTextAt_placed 0 text)

-- A file with an operand missing and a token that starts no item.
theorem parse_whole_malformed :
    let text : Text := ['f', 'n', ' ', 'f', '(', ')', '{', '1', '+', '}', ' ', ')']
    text.byteLength < Assembly.offsetLimit ∧ eventCount text ≤ Assembly.offsetLimit ∧
      parseByEvents text = .ok (parse text) := by
  intro text
  have short : text.byteLength < Assembly.offsetLimit := by decide
  have recorded : eventCount text ≤ Assembly.offsetLimit := by decide +kernel
  have room : (parse text).tree.tokens.size + 1 < Assembly.offsetLimit := by decide +kernel
  exact ⟨short, recorded, (parse_whole short recorded).1.trans (if_pos room)⟩

theorem Trivia.scan_newlines (n : Nat) :
    scan .leading (List.replicate n '\n') = (List.replicate n ⟨.newline, ['\n']⟩, []) := by
  induction n with
  | zero =>
      rw [scan]
      rfl
  | succ n ih =>
      have first : measure .leading (List.replicate (n + 1) '\n') = some (.newline, 1) := rfl
      rw [scan]
      split
      · next none => cases first.symm.trans none
      · next found =>
          cases first.symm.trans found
          have behind : (List.replicate (n + 1) '\n').drop 1 = List.replicate n '\n' := rfl
          simp only [behind, ih]
          rfl

theorem ofText_newlines (n : Nat) : ofText (List.replicate n '\n') =
    ⟨[], ⟨List.replicate n ⟨.newline, ['\n']⟩, .eof,
      0 + Trivia.lengthOf (List.replicate n ⟨.newline, ['\n']⟩), [], []⟩⟩ := by
  have scanned : Token.scan 0 (List.replicate n '\n') = (⟨List.replicate n ⟨.newline, ['\n']⟩, .eof,
      0 + Trivia.lengthOf (List.replicate n ⟨.newline, ['\n']⟩), [], []⟩, []) := by
    simp only [Token.scan, Trivia.scan_newlines]
    rfl
  rw [ofText, ofTextAt, scanned, dif_neg (by simp)]

theorem byteLength_newlines (n : Nat) : Text.byteLength (List.replicate n '\n') = n := by
  induction n with
  | zero => rfl
  | succ n ih =>
      rw [List.replicate_succ, Text.byteLength_cons, ih]
      exact Nat.add_comm 1 n

theorem forest_of_no_tokens (text : Text) (none : (ofText text).tokens = []) :
    (ofText text).forest = .leaf (ofText text).eof.leaf .nil := by
  have kept := (ofText text).run_keeps Rule.file
  rw [Step.Keeps, none] at kept
  have empty := (List.append_eq_nil_iff.mp kept.symm).1
  have nothing : ((ofText text).run .file).parts.tops = [] :=
    Classical.byContradiction fun some => (run_file text).shaped.leaves_ne_nil some empty
  rw [forest, Forest.eq_nil_of_tops nothing]
  rfl

theorem parseByEvents_newlines {n : Nat} (short : n < Assembly.offsetLimit)
    (many : Assembly.offsetLimit ≤ n + 2) :
    parseByEvents (List.replicate n '\n') = .error (.assembly .tooLarge) := by
  have stream := ofText_newlines n
  have forest := forest_of_no_tokens (List.replicate n '\n') (by rw [stream])
  have tokens : (parse (List.replicate n '\n')).tree.tokens.size = n + 1 := by
    rw [tokens_size_parse, forest, stream]
    simp [Token.leaf, Forest.tokenCount, Leaf.tokenCount]
  have recorded : eventCount (List.replicate n '\n') ≤ Assembly.offsetLimit := by
    rw [eventCount_eq_forest, forest]
    exact (by decide : 2 * 1 + 1 ≤ Assembly.offsetLimit)
  have within : Text.byteLength (List.replicate n '\n') < Assembly.offsetLimit := by
    rwa [byteLength_newlines]
  refine (parseByEvents_eq within recorded).trans (if_neg ?_)
  omega

-- Line ends to the number of the bytes that offsets reach are too many tokens.
theorem parse_refuses_newlines :
    let text : Text := List.replicate (Assembly.offsetLimit - 1) '\n'
    text.byteLength < Assembly.offsetLimit ∧ parseByEvents text = .error (.assembly .tooLarge) := by
  have short : Assembly.offsetLimit - 1 < Assembly.offsetLimit := by decide
  have many : Assembly.offsetLimit ≤ Assembly.offsetLimit - 1 + 2 := by decide
  refine ⟨?_, parseByEvents_newlines short many⟩
  rwa [byteLength_newlines]

end LosslessTree
