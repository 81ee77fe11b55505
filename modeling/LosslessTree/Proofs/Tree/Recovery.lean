import LosslessTree.Proofs.Grammar.Certifying
import LosslessTree.Proofs.Tree.Concatenation

set_option autoImplicit false

namespace LosslessTree

open TokenStream Rule

def Token.strayReport (t : Token) : Diagnostic :=
  ⟨if t.kind = .semicolon then "expected item, found `;`" else "expected an item", t.span⟩

def Forest.strays : List Token → Forest
  | [] => .nil
  | t :: tokens => .node .error (.leaf t.leaf .nil) (strays tokens)

namespace Rule

variable {eof : Token} {calls : Giving} {tokens later : List Token} {t : Token}

theorem prelude_of_plain (hash : seen eof tokens ≠ .hash) (visible : seen eof tokens ≠ .pubKw) :
    prelude.Gives eof calls tokens ⟨(), .nil, [], tokens⟩ := by
  have attrs : (loop attrRound).Gives eof calls tokens ⟨(), .nil, [], tokens⟩ := by
    refine Step.Repeats.last (s := ⟨false, .nil, [], tokens⟩) ?_ rfl
    rw [attrRound, gives_sees_bind, if_neg (by simpa using hash)]
    rfl
  have bare : (whenSees .pubKw (node .visibility take)).Gives eof calls tokens
      ⟨(), .nil, [], tokens⟩ := by
    rw [whenSees, gives_sees_bind, if_neg (by simpa using visible)]
    rfl
  exact ⟨_, attrs, _, bare, rfl⟩

theorem itemRest_of_stray (away : itemFirst.contains (seen eof tokens) = false) :
    (itemRest false).Gives eof calls tokens ⟨none, .nil, [], tokens⟩ := by
  have others : seen eof tokens ∉ [.hash, .pubKw, .fnKw, .structKw, .constKw, .useKw, .modKw] := by
    intro mem
    rw [itemFirst, KindSet.contains_ofList, List.contains_iff_mem.mpr mem] at away
    cases away
  simp only [List.mem_cons, List.not_mem_nil, or_false, not_or] at others
  obtain ⟨hash, visible, -⟩ := others
  have core : itemCore.Gives eof calls tokens ⟨none, .nil, [], tokens⟩ := by
    rw [itemCore, gives_peekKind_bind]
    split
    case h_6 => rfl
    all_goals
      next here =>
        rw [here] at away
        exact absurd away (by decide)
  have begun : (KindSet.ofList [.hash, .pubKw]).contains (seen eof tokens) = false := by
    simp [KindSet.contains_ofList, hash, visible]
  rw [itemRest, gives_seesAny_bind, begun]
  exact ⟨_, prelude_of_plain hash visible, _, ⟨_, core, _, rfl, rfl⟩, by simp [Step.andThen]⟩

theorem skipToken_gives (problem : Problem) : (skipToken problem).Gives eof calls (t :: tokens)
    ⟨(), .node .error (.leaf t.leaf .nil) .nil, [⟨problem.message, t.span⟩], tokens⟩ :=
  gives_node.mpr ⟨_, ⟨_, rfl, _, rfl, rfl⟩, rfl⟩

theorem strayToken_gives : strayToken.Gives eof calls (t :: tokens)
    ⟨(), .node .error (.leaf t.leaf .nil) .nil, [t.strayReport], tokens⟩ := by
  rw [strayToken, gives_sees_bind, seen_cons]
  by_cases semicolon : t.kind = .semicolon
  · rw [if_pos (beq_iff_eq.mpr semicolon), Token.strayReport, if_pos semicolon]
    exact skipToken_gives .strayItemSemicolon
  · rw [if_neg (by simpa using semicolon), Token.strayReport, if_neg semicolon]
    exact skipToken_gives .expectedItem

theorem item_of_stray (away : itemFirst.contains t.kind = false) :
    item.Gives eof calls (t :: tokens)
      ⟨none, .node .error (.leaf t.leaf .nil) .nil, [t.strayReport], tokens⟩ := by
  have nothing : (itemRest false).Gives eof calls (t :: tokens) ⟨none, .nil, [], t :: tokens⟩ :=
    itemRest_of_stray away
  refine ⟨_, gives_nodeIf.mpr ⟨_, nothing, rfl⟩, _, ⟨_, strayToken_gives, _, rfl, rfl⟩, ?_⟩
  simp [Step.andThen, Forest.within]

theorem items_of_strays {junk : List Token}
    (away : ∀ t ∈ junk, itemFirst.contains t.kind = false ∧ t.kind ≠ .eof) {s : Step Unit}
    (next : (loop (itemRound .eof)).Gives eof (Production.Gives eof) later s) :
    (loop (itemRound .eof)).Gives eof (Production.Gives eof) (junk ++ later)
      ⟨(), Forest.strays junk ++ s.parts, junk.map Token.strayReport ++ s.reports, s.rest⟩ := by
  induction junk with
  | nil => exact next
  | cons t junk ih =>
      obtain ⟨first, others⟩ := List.forall_mem_cons.mp away
      have inside : seen eof (t :: (junk ++ later)) ≠ .eof := first.2
      have round := itemRound_of_item inside inside (item_of_stray first.1)
      have all := Step.Repeats.again round rfl (ih others)
      simp only [Step.andThen, Forest.node_append, Forest.nil_append, List.singleton_append] at all
      exact all

end Rule

namespace Token

variable {tokens tokens' : List Token} (same : List.Forall₂ (Moved 0) tokens tokens')
include same

theorem map_strayReport : tokens'.map strayReport = tokens.map strayReport := by
  rw [eq_comm, ← List.forall₂_eq_eq_eq, List.forall₂_map_left_iff, List.forall₂_map_right_iff]
  refine same.imp fun t t' moved => ?_
  rw [strayReport, strayReport, moved.kind, moved.span]
  rfl

theorem map_strayScene : tokens'.map (fun t => [.enter .error, t.glimpse, .leave .error]) =
    tokens.map fun t => [Glimpse.enter .error, t.glimpse, .leave .error] := by
  rw [eq_comm, ← List.forall₂_eq_eq_eq, List.forall₂_map_left_iff, List.forall₂_map_right_iff]
  refine same.imp fun t t' moved => ?_
  rw [moved.glimpse, Glimpse.shift_zero, id]

end Token

namespace Forest

theorem leaves_strays (tokens : List Token) : (strays tokens).leaves = tokens.map Token.leaf := by
  induction tokens with
  | nil => rfl
  | cons t tokens ih => simp [strays, leaves, ih]

theorem scenes_strays (tokens later : List Token) : (strays tokens).scenes (tokens ++ later) =
    tokens.map fun t => [.enter .error, t.glimpse, .leave .error] := by
  induction tokens with
  | nil => rfl
  | cons t tokens ih => simp [strays, scenes, glimpses, leaves, ih]

end Forest

section Junk

variable {junk b : Text}

theorem not_opensInner_junk (away : ∀ t ∈ (ofText junk).tokens, itemFirst.contains t.kind = false)
    (shut : ∀ t ∈ (ofText junk).tokens.getLast?, t.isOpen = false)
    (outer : ¬OpensInner (ofText b).tokens) : ¬OpensInner (ofText (junk ++ '\n' :: b)).tokens := by
  obtain ⟨before, after, split, front, back⟩ := ofText_join shut b
  rw [OpensInner, split, List.map_append, Token.Moved.map_kind front, Token.Moved.map_kind back]
  cases stray : (ofText junk).tokens with
  | nil => exact outer
  | cons t tokens =>
      intro inner
      obtain ⟨hash, -⟩ := List.cons_prefix_cons.mp inner
      have first := away t (stray ▸ List.mem_cons_self)
      rw [← hash] at first
      exact absurd first (by decide)

theorem run_junk (away : ∀ t ∈ (ofText junk).tokens, itemFirst.contains t.kind = false)
    (shut : ∀ t ∈ (ofText junk).tokens.getLast?, t.isOpen = false)
    (clean : (parse b).errors = []) (outer : ¬OpensInner (ofText b).tokens) :
    ∃ (before after : List Token) (s : Step Unit),
      (ofText (junk ++ '\n' :: b)).tokens = before ++ after ∧
      List.Forall₂ (Token.Moved 0) (ofText junk).tokens before ∧
      List.Forall₂ (Token.Moved (junk.byteLength + 1)) (ofText b).tokens after ∧
      ((ofText b).run .file).Mirrored (Token.Moved (junk.byteLength + 1)) s ∧
      (ofText (junk ++ '\n' :: b)).run .file =
        ⟨(), Forest.strays before ++ s.parts, before.map Token.strayReport, s.rest⟩ := by
  have atEof := ofText_eof
  obtain ⟨before, after, split, front, back⟩ := ofText_join shut b
  -- The second text has its parse again on its part of the tokens.
  have items := ((file_cases (atEof b) (gives_file (atEof b) (ofText_plain b))).resolve_left
    fun opens => outer opens.1).2
  have moved : ∀ t t' : Token, t.Moved (junk.byteLength + 1) t' → t.lookahead = t'.lookahead :=
    fun _ _ => Token.Moved.lookahead
  have last := ofText_join_eof junk b
  obtain ⟨s, given, mirrored⟩ := Rule.Gives.mirrored moved last
    (Production.Gives.mirrored moved last) (.loop (.itemRound .eof)) _ _ items after back
  have silent : s.reports = [] := by
    have reports := mirrored.reports
    rw [show ((ofText b).run .file).reports = [] from clean] at reports
    exact List.forall₂_nil_left_iff.mp reports
  have away' : ∀ t ∈ before, itemFirst.contains t.kind = false ∧ t.kind ≠ .eof := by
    intro t' mem
    have kind : t'.kind ∈ (ofText junk).tokens.map Token.kind :=
      Token.Moved.map_kind front ▸ List.mem_map_of_mem mem
    obtain ⟨t, inside, same⟩ := List.mem_map.mp kind
    rw [← same]
    exact ⟨away t inside, (ofText_lexed junk t inside).ne_eof⟩
  have strays := items_of_strays away' given
  rw [silent, List.append_nil] at strays
  have whole := (file_cases (atEof _) (gives_file (atEof _) (ofText_plain _))).resolve_left
    fun opens => not_opensInner_junk away shut outer opens.1
  rw [← split] at strays
  exact ⟨before, after, s, split, front, back, mirrored, whole.2.unique strays⟩

theorem parse_junk (away : ∀ t ∈ (ofText junk).tokens, itemFirst.contains t.kind = false)
    (shut : ∀ t ∈ (ofText junk).tokens.getLast?, t.isOpen = false)
    (clean : (parse b).errors = []) (outer : ¬OpensInner (ofText b).tokens) :
    (parse (junk ++ '\n' :: b)).errors = (ofText junk).tokens.map Token.strayReport ∧
      (parse (junk ++ '\n' :: b)).tree.scenes =
        ((ofText junk).tokens.map fun t => [.enter .error, t.glimpse, .leave .error]) ++
          (parse b).tree.scenes.map (List.map (Glimpse.shift (junk.byteLength + 1))) := by
  obtain ⟨before, after, s, split, front, back, mirrored, run⟩ := run_junk away shut clean outer
  constructor
  · change ((ofText (junk ++ '\n' :: b)).run .file).reports = _
    rw [run]
    exact Token.map_strayReport front
  · have second : s.parts.scenes after =
        (parse b).tree.scenes.map (List.map (Glimpse.shift (junk.byteLength + 1))) := by
      rw [SyntaxTree.parse_scenes, ← Forest.scenes_bare, ← mirrored.parts, Forest.scenes_bare,
        Forest.scenes_moved _ back]
    rw [SyntaxTree.parse_scenes, run, split, Forest.scenes_append, Forest.scenes_strays,
      Forest.leaves_strays, List.length_map, List.drop_left, Token.map_strayScene front, second]

end Junk

def Glimpse.opensItem : List Glimpse → Bool
  | .enter k :: _ => Category.item.members.contains k
  | _ => false

namespace SyntaxTree

def itemScenes (t : SyntaxTree) : List (List Glimpse) :=
  ((t.childNodes 0).filter fun n => Category.item.members.contains (t.kind n)).map t.glimpses

theorem opensItem_glimpses {t : SyntaxTree} (some_ : 0 < t.nodes.size) (n : Nat) :
    Glimpse.opensItem (t.glimpses n) = Category.item.members.contains (t.kind n) := by
  obtain ⟨more, bound⟩ : ∃ more, t.walkBound = more + 1 := ⟨t.walkBound - 1, by rw [walkBound]; omega⟩
  rw [glimpses, walk, bound, Walk.take]
  rfl

theorem itemScenes_eq {t : SyntaxTree} (some_ : 0 < t.nodes.size) :
    t.itemScenes = t.scenes.filter Glimpse.opensItem := by
  rw [itemScenes, scenes, List.filter_map]
  congr 2
  funext n
  exact (opensItem_glimpses some_ n).symm

theorem parse_itemScenes (text : Text) :
    (parse text).tree.itemScenes = (parse text).tree.scenes.filter Glimpse.opensItem :=
  itemScenes_eq <| by
    change 0 < (ofRoot text .sourceFile (ofText text).forest).nodes.size
    rw [ofRoot_nodes_size]
    omega

end SyntaxTree

theorem Glimpse.shift_shift (g : Glimpse) (n m : Nat) : (g.shift n).shift m = g.shift (m + n) := by
  cases g <;> simp [shift, Span.shift, Nat.add_assoc, Nat.add_comm m]

theorem Glimpse.map_shift_shift (scenes : List (List Glimpse)) (n m : Nat) :
    (scenes.map (List.map (shift n))).map (List.map (shift m)) =
      scenes.map (List.map (shift (m + n))) := by
  rw [List.map_map]
  refine List.map_congr_left fun g _ => ?_
  rw [Function.comp_apply, List.map_map]
  exact List.map_congr_left fun x _ => x.shift_shift n m

theorem Glimpse.opensItem_shift (n : Nat) (g : List Glimpse) :
    opensItem (g.map (shift n)) = opensItem g := by
  match g with
  | [] => rfl
  | .enter _ :: _ | .leave _ :: _ | .token _ _ _ :: _ => rfl

theorem Glimpse.filter_opensItem_shift (n : Nat) (scenes : List (List Glimpse)) :
    (scenes.map (List.map (shift n))).filter opensItem =
      (scenes.filter opensItem).map (List.map (shift n)) := by
  rw [List.filter_map]
  congr 2
  funext g
  exact opensItem_shift n g

/-- Tokens that start no item, on lines of their own between two texts without problems. Each of them is
a child of the root, in an error node, and is reported; the items are those of the two texts. -/
theorem parse_across_junk {a junk b : Text} (clean : (parse a).errors = [])
    (clean' : (parse b).errors = []) (outer : ¬OpensInner (ofText b).tokens)
    (away : ∀ t ∈ (ofText junk).tokens,
      t.kind ∉ [.hash, .pubKw, .fnKw, .structKw, .constKw, .useKw, .modKw])
    (shut : ∀ t ∈ (ofText junk).tokens.getLast?, t.isOpen = false) :
    let whole := parse (a ++ '\n' :: (junk ++ '\n' :: b))
    let before := a.byteLength + 1
    let behind := before + (junk.byteLength + 1)
    whole.errors = (ofText junk).tokens.map (fun t =>
        ⟨if t.kind = .semicolon then "expected item, found `;`" else "expected an item",
          t.span.shift before⟩) ∧
      whole.tree.scenes = (parse a).tree.scenes ++
        (ofText junk).tokens.map
          (fun t => [.enter .error, .token t.kind (t.span.shift before) t.text, .leave .error]) ++
        (parse b).tree.scenes.map (List.map (Glimpse.shift behind)) ∧
      whole.tree.itemScenes = (parse a).tree.itemScenes ++
        (parse b).tree.itemScenes.map (List.map (Glimpse.shift behind)) := by
  intro whole before behind
  have away' : ∀ t ∈ (ofText junk).tokens, itemFirst.contains t.kind = false := by
    intro t mem
    rw [itemFirst, KindSet.contains_ofList, ← Bool.not_eq_true, List.contains_iff_mem]
    exact away t mem
  obtain ⟨errors, scenes⟩ := parse_junk away' shut clean' outer
  obtain ⟨errors', scenes', -⟩ := parse_join clean (not_opensInner_junk away' shut outer)
  have all : whole.tree.scenes = (parse a).tree.scenes ++
      (ofText junk).tokens.map
        (fun t => [.enter .error, .token t.kind (t.span.shift before) t.text, .leave .error]) ++
      (parse b).tree.scenes.map (List.map (Glimpse.shift behind)) := by
    rw [scenes', scenes, List.map_append, Glimpse.map_shift_shift, List.map_map, ← List.append_assoc]
    rfl
  refine ⟨?_, all, ?_⟩
  · rw [errors', errors, List.map_map]
    rfl
  · have none : ((ofText junk).tokens.map fun t : Token =>
        [.enter .error, .token t.kind (t.span.shift before) t.text, .leave .error]).filter
          Glimpse.opensItem = [] := by
      rw [List.filter_map, List.map_eq_nil_iff, List.filter_eq_nil_iff]
      intro t _
      rw [Function.comp_apply, Glimpse.opensItem]
      decide
    rw [SyntaxTree.parse_itemScenes, SyntaxTree.parse_itemScenes, SyntaxTree.parse_itemScenes, all,
      List.filter_append, List.filter_append, none, List.append_nil, Glimpse.filter_opensItem_shift]

-- Brackets, an operator, a semicolon and a string between a function and a module with an
-- attribute.
theorem parse_across_junk_brackets :
    let a : Text := ['f', 'n', ' ', 'f', '(', ')', ';', '/', '/', 'x']
    let junk : Text := ['\x7d', ' ', '(', '+', ';', '\n', '"', '"']
    let b : Text := ['#', '[', 'a', ']', ' ', 'm', 'o', 'd', ' ', 'm', ';']
    (parse a).errors = [] ∧ (parse b).errors = [] ∧ ¬OpensInner (ofText b).tokens ∧
      (∀ t ∈ (ofText junk).tokens,
        t.kind ∉ [.hash, .pubKw, .fnKw, .structKw, .constKw, .useKw, .modKw]) ∧
      (∀ t ∈ (ofText junk).tokens.getLast?, t.isOpen = false) ∧
      (parse (a ++ '\n' :: (junk ++ '\n' :: b))).errors =
        [⟨"expected an item", ⟨11, 12⟩⟩, ⟨"expected an item", ⟨13, 14⟩⟩, ⟨"expected an item", ⟨14, 15⟩⟩,
          ⟨"expected item, found `;`", ⟨15, 16⟩⟩, ⟨"expected an item", ⟨17, 19⟩⟩] ∧
      (parse (a ++ '\n' :: (junk ++ '\n' :: b))).tree.itemScenes = (parse a).tree.itemScenes ++
        (parse b).tree.itemScenes.map (List.map (Glimpse.shift 20)) := by
  intro a junk b
  have clean : (parse a).errors = [] := by decide +kernel
  have clean' : (parse b).errors = [] := by decide +kernel
  have outer : ¬OpensInner (ofText b).tokens := by decide +kernel
  have away : ∀ t ∈ (ofText junk).tokens,
      t.kind ∉ [.hash, .pubKw, .fnKw, .structKw, .constKw, .useKw, .modKw] := by decide +kernel
  have shut : ∀ t ∈ (ofText junk).tokens.getLast?, t.isOpen = false := by decide +kernel
  obtain ⟨errors, -, items⟩ := parse_across_junk clean clean' outer away shut
  exact ⟨clean, clean', outer, away, shut, errors.trans (by decide +kernel), items⟩

end LosslessTree
