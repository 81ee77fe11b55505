import LosslessTree.Proofs.Grammar.Mirroring
import LosslessTree.Proofs.Grammar.Succession
import LosslessTree.Proofs.Tree.Glimpses

set_option autoImplicit false

namespace LosslessTree

open TokenStream Rule

def Diagnostic.shift (n : Nat) (d : Diagnostic) : Diagnostic := ⟨d.message, d.span.shift n⟩

variable {n : Nat}

theorem Diagnostic.shift_of_mirrored {d d' : Diagnostic} (h : Mirrored (Token.Moved n) d d') :
    d' = d.shift n := by
  obtain ⟨message, t, t', moved, here, there⟩ := h
  obtain ⟨m, s⟩ := d'
  rw [shift, message, here, ← moved.span, ← there]

theorem Diagnostic.map_shift_of_mirrored {reports reports' : List Diagnostic}
    (h : List.Forall₂ (Mirrored (Token.Moved n)) reports reports') :
    reports' = reports.map (shift n) := by
  rw [eq_comm, ← List.forall₂_eq_eq_eq, List.forall₂_map_left_iff]
  exact h.imp fun _ _ same => (shift_of_mirrored same).symm

theorem Sealed.last {tokens : List Token} (h : tokens = [] ∨ Sealed Kind.Closes tokens []) :
    ∀ t ∈ tokens.getLast?, t.kind ≠ .stringLiteral := by
  intro t mem string
  rcases h with rfl | ⟨front, last, rfl, closing⟩
  · cases mem
  · rw [List.getLast?_append_cons, List.getLast?_singleton] at mem
    obtain rfl := Option.mem_some.mp mem
    rw [string] at closing
    exact absurd closing (by decide)

theorem last_of_clean {text : Text} (clean : (parse text).errors = []) :
    ∀ t ∈ (ofText text).tokens.getLast?, t.kind ≠ .stringLiteral :=
  Sealed.last (file_end (ofText_eof text) (gives_file (ofText_eof text) (ofText_plain text)) clean
    (run_file text).ends)

theorem run_join {a b : Text} (clean : (parse a).errors = [])
    (outer : ¬OpensInner (ofText b).tokens) :
    ∃ (before after : List Token) (s s' : Step Unit), (ofText (a ++ '\n' :: b)).tokens = before ++ after ∧
      List.Forall₂ (Token.Moved 0) (ofText a).tokens before ∧
      List.Forall₂ (Token.Moved (a.byteLength + 1)) (ofText b).tokens after ∧
      ((ofText a).run .file).parts.bare = s.parts.bare ∧ s.Keeps before ∧ s.rest = [] ∧
      ((ofText b).run .file).Mirrored (Token.Moved (a.byteLength + 1)) s' ∧
      (ofText (a ++ '\n' :: b)).run .file = ⟨(), s.parts ++ s'.parts, s'.reports, s'.rest⟩ := by
  have atEof := ofText_eof
  have first := gives_file (atEof a) (ofText_plain a)
  have second := gives_file (atEof b) (ofText_plain b)
  have both := gives_file (atEof (a ++ '\n' :: b)) (ofText_plain (a ++ '\n' :: b))
  have none := (run_file a).ends
  obtain ⟨before, after, split, front, back⟩ :=
    ofText_join (fun t mem => Token.isOpen_of_ne (last_of_clean clean t mem)) b
  -- Each text has its parse again on its part of the tokens.
  have ends : (ofText a).eof.lookahead = (ofText (a ++ '\n' :: b)).eof.lookahead := by
    simp [Token.lookahead, atEof]
  have same : ∀ t t' : Token, t.lookahead = t'.lookahead → t.lookahead = t'.lookahead :=
    fun _ _ => id
  obtain ⟨s, given, mirrored⟩ := Rule.Gives.mirrored same ends
    (Production.Gives.mirrored same ends) .file _ _ first before
    (front.imp fun _ _ => Token.Moved.lookahead)
  have moved : ∀ t t' : Token, t.Moved (a.byteLength + 1) t' → t.lookahead = t'.lookahead :=
    fun _ _ => Token.Moved.lookahead
  have last := ofText_join_eof a b
  obtain ⟨s', given', mirrored'⟩ := Rule.Gives.mirrored moved last
    (Production.Gives.mirrored moved last) .file _ _ second after back
  have silent : s.reports = [] := by
    have reports := mirrored.reports
    rw [show ((ofText a).run .file).reports = [] from clean] at reports
    exact List.forall₂_nil_left_iff.mp reports
  have left : s.rest = [] := by
    have rest := mirrored.rest
    rw [none] at rest
    exact List.forall₂_nil_left_iff.mp rest
  have outer' : ¬OpensInner after := by rwa [OpensInner, Token.Moved.map_kind back]
  rw [split] at both
  exact ⟨before, after, s, s', split, front, back, mirrored.parts, given.keeps, left, mirrored',
    file_succeeds (atEof _) (atEof _) given silent left given' outer' both⟩

/-- A text without problems in front of another one. The bytes of the second text are moved; its head is
read as items are. -/
theorem parse_join {a b : Text} (clean : (parse a).errors = [])
    (outer : ¬OpensInner (ofText b).tokens) :
    (parse (a ++ '\n' :: b)).errors =
        (parse b).errors.map (Diagnostic.shift (a.byteLength + 1)) ∧
      (parse (a ++ '\n' :: b)).tree.scenes = (parse a).tree.scenes ++
        (parse b).tree.scenes.map (List.map (Glimpse.shift (a.byteLength + 1))) ∧
      (ofText b).run .file = (ofText b).run (.loop (.itemRound .eof)) := by
  obtain ⟨before, after, s, s', split, front, back, parts, keeps, left, mirrored, joined⟩ :=
    run_join clean outer
  refine ⟨?_, ?_, run_items (ofText_eof b) (ofText_plain b) outer⟩
  · have reports : (parse (a ++ '\n' :: b)).errors = s'.reports := by
      change ((ofText (a ++ '\n' :: b)).run .file).reports = s'.reports
      rw [joined]
    rw [reports]
    exact Diagnostic.map_shift_of_mirrored mirrored.reports
  · have length : s.parts.leaves.length = before.length := by
      have all := congrArg List.length keeps
      simpa [left] using all.symm
    have first : s.parts.scenes before = (parse a).tree.scenes := by
      rw [SyntaxTree.parse_scenes, ← Forest.scenes_bare, ← parts, Forest.scenes_bare,
        Forest.scenes_moved _ front, Glimpse.shift_zero, List.map_id_fun, List.map_id]
    have second : s'.parts.scenes after =
        (parse b).tree.scenes.map (List.map (Glimpse.shift (a.byteLength + 1))) := by
      rw [SyntaxTree.parse_scenes, ← Forest.scenes_bare, ← mirrored.parts, Forest.scenes_bare,
        Forest.scenes_moved _ back]
    rw [SyntaxTree.parse_scenes, joined, split, Forest.scenes_append,
      Forest.scenes_prefix (Nat.le_of_eq length), length, List.drop_left, first, second]

-- An attribute without its item, and a token that starts none, behind a function.
theorem parse_join_stray :
    let a : Text := ['f', 'n', ' ', 'f', '(', ')', ';', ' ', '/', '/', 'x']
    let b : Text := ['#', '[', 'a', ']', ' ', ')']
    (parse a).errors = [] ∧ ¬OpensInner (ofText b).tokens ∧
      (parse (a ++ '\n' :: b)).errors =
          (parse b).errors.map (Diagnostic.shift (a.byteLength + 1)) ∧
        (parse (a ++ '\n' :: b)).tree.scenes = (parse a).tree.scenes ++
          (parse b).tree.scenes.map (List.map (Glimpse.shift (a.byteLength + 1))) ∧
        (ofText b).run .file = (ofText b).run (.loop (.itemRound .eof)) :=
  ⟨by decide +kernel, by decide +kernel, parse_join (by decide +kernel) (by decide +kernel)⟩

end LosslessTree
