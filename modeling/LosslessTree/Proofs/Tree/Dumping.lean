import LosslessTree.Proofs.Text.Unquoting
import LosslessTree.Proofs.Tree.Touring
import LosslessTree.Tree.Dump

set_option autoImplicit false

namespace LosslessTree

structure DumpEntry where
  level : Nat
  element : Child

namespace DumpEntry

def node? (e : DumpEntry) : Option Nat :=
  match e.element with
  | .node n => some n
  | .token _ => none

def token? (e : DumpEntry) : Option Nat :=
  match e.element with
  | .node _ => none
  | .token i => some i

end DumpEntry

namespace SyntaxTree

def showElement (t : SyntaxTree) : Child → String
  | .node n => t.showNode n
  | .token i => t.showToken i

def dumpLine (t : SyntaxTree) (e : DumpEntry) : DumpLine := ⟨e.level, t.showElement e.element⟩

end SyntaxTree

def SyntaxTree.DumpLine.shown (l : SyntaxTree.DumpLine) : Option Text :=
  Text.unquoted (l.content.toList.dropWhile (· != '"'))

structure Printer where
  out : String
  indent : Nat

namespace Printer

def line (printer : Printer) (content : String) : Printer :=
  ⟨printer.out ++ ("".pushn ' ' printer.indent ++ content ++ "\n"), printer.indent⟩

-- Prints an event of a walk. The counter is not lowered below zero.
def step (t : SyntaxTree) (printer : Printer) : WalkEvent → Option Printer
  | .enter n => some ⟨(printer.line (t.showNode n)).out, printer.indent + 2⟩
  | .leave _ => if printer.indent < 2 then none else some ⟨printer.out, printer.indent - 2⟩
  | .token i => some ((t.withTrivia i).foldl (fun printer j => printer.line (t.showToken j)) printer)

end Printer

namespace SyntaxTree

variable {t : SyntaxTree}

theorem dumpLines_append {events : List WalkEvent} (nested : WalkEvent.Nested events) (level : Nat)
    (more : List WalkEvent) :
    t.dumpLines level (events ++ more) = t.dumpLines level events ++ t.dumpLines level more := by
  induction nested generalizing level more with
  | nil => rfl
  | token i _ ih => rw [List.cons_append, dumpLines, dumpLines, ih, List.append_assoc]
  | node n _ _ within rest =>
      simp only [List.cons_append, List.append_assoc, dumpLines, within, rest, Nat.add_sub_cancel]

theorem dumpLines_node {inner : List WalkEvent} (nested : WalkEvent.Nested inner) (level n : Nat)
    (more : List WalkEvent) :
    t.dumpLines level (.enter n :: inner ++ .leave n :: more) =
      ⟨level, t.showNode n⟩ :: (t.dumpLines (level + 1) inner ++ t.dumpLines level more) := by
  rw [List.cons_append, dumpLines, dumpLines_append nested, dumpLines, Nat.add_sub_cancel]

end SyntaxTree

namespace Printer

variable {t : SyntaxTree}

def printed (printer : Printer) (lines : List SyntaxTree.DumpLine) : Printer :=
  ⟨printer.out ++ String.join (lines.map SyntaxTree.DumpLine.render), printer.indent⟩

theorem printed_append (printer : Printer) (lines more : List SyntaxTree.DumpLine) :
    printer.printed (lines ++ more) = (printer.printed lines).printed more := by
  simp [printed, String.join_append, String.append_assoc]

theorem printed_cons (printer : Printer) (line : SyntaxTree.DumpLine)
    (more : List SyntaxTree.DumpLine) :
    printer.printed (line :: more) = (printer.printed [line]).printed more :=
  printer.printed_append [line] more

theorem line_eq_printed (out content : String) (level : Nat) :
    line ⟨out, 2 * level⟩ content = printed ⟨out, 2 * level⟩ [⟨level, content⟩] := by
  simp [line, printed, SyntaxTree.DumpLine.render]

theorem foldl_line (level : Nat) (contents : List String) (out : String) :
    contents.foldl line ⟨out, 2 * level⟩ = printed ⟨out, 2 * level⟩ (contents.map (⟨level, ·⟩)) := by
  induction contents generalizing out with
  | nil => simp [printed]
  | cons content contents ih =>
      rw [List.foldl_cons, line_eq_printed]
      exact (ih _).trans (printed_cons _ _ _).symm

theorem foldlM_step {events : List WalkEvent} (nested : WalkEvent.Nested events) (level : Nat)
    (out : String) :
    events.foldlM (step t) ⟨out, 2 * level⟩ =
      some (printed ⟨out, 2 * level⟩ (t.dumpLines level events)) := by
  induction nested generalizing level out with
  | nil => simp [SyntaxTree.dumpLines, printed]
  | @token events i _ ih =>
      have own := foldl_line level ((t.withTrivia i).map t.showToken) out
      rw [List.foldl_map, List.map_map] at own
      rw [List.foldlM_cons, step, own, SyntaxTree.dumpLines, printed_append]
      exact ih level _
  | @node inner events n nested _ within rest =>
      -- The counter is one level up while what is inside is printed.
      have entered : step t ⟨out, 2 * level⟩ (.enter n) =
          some ⟨(printed ⟨out, 2 * level⟩ [⟨level, t.showNode n⟩]).out, 2 * (level + 1)⟩ := by
        rw [step, line_eq_printed]
        rfl
      have left (out : String) :
          step t ⟨out, 2 * (level + 1)⟩ (.leave n) = some ⟨out, 2 * level⟩ := by
        have enough : ¬ 2 * (level + 1) < 2 := by omega
        rw [step]
        exact if_neg enough
      rw [SyntaxTree.dumpLines_node nested, printed_cons, printed_append, List.cons_append,
        List.foldlM_cons, entered, Option.bind_eq_bind, Option.bind_some, List.foldlM_append, within,
        Option.bind_eq_bind, Option.bind_some, List.foldlM_cons, printed, left, Option.bind_eq_bind,
        Option.bind_some, rest]
      rfl

end Printer

def Plain (c : Char) : Prop := c ≠ '"' ∧ c ≠ '\n'

theorem Kind.rawName_plain (k : Kind) : ∀ c ∈ k.rawName.toList, Plain c := by
  have apart : '"' ∉ k.rawName.toList ∧ '\n' ∉ k.rawName.toList := by cases k <;> simp [rawName]
  exact fun c mem => ⟨fun same => apart.1 (same ▸ mem), fun same => apart.2 (same ▸ mem)⟩

theorem toString_plain (n : Nat) : ∀ c ∈ (toString n).toList, Plain c := by
  intro c mem
  rw [Nat.toString_eq_ofList_toDigits, String.toList_ofList] at mem
  have digit := Nat.isDigit_of_mem_toDigits (by decide) (by decide) mem
  constructor
  all_goals
    rintro rfl
    exact absurd digit (by decide)

theorem plain_append {a b : String} (front : ∀ c ∈ a.toList, Plain c) (back : ∀ c ∈ b.toList, Plain c) :
    ∀ c ∈ (a ++ b).toList, Plain c := by
  rw [String.toList_append]
  exact List.forall_mem_append.mpr ⟨front, back⟩

theorem Kind.label_plain (k : Kind) (s : Span) : ∀ c ∈ (k.rawName ++ "@" ++ s.render).toList, Plain c :=
  plain_append (plain_append k.rawName_plain (by simp [Plain]))
    (plain_append (plain_append (toString_plain _) (by simp [Plain])) (toString_plain _))

theorem Kind.spacedLabel_plain (k : Kind) (s : Span) :
    ∀ c ∈ (k.rawName ++ "@" ++ s.render ++ " ").toList, Plain c :=
  plain_append (k.label_plain s) (by simp [Plain])

theorem dropWhile_plain {label : String} (plain : ∀ c ∈ label.toList, Plain c) (rest : Text) :
    (label.toList ++ rest).dropWhile (· != '"') = rest.dropWhile (· != '"') :=
  List.dropWhile_append_of_pos fun c mem => by simpa using (plain c mem).1

theorem pushn_eq_replicate (n : Nat) : ("".pushn ' ' n).toList = List.replicate n ' ' := by
  induction n with
  | zero => rfl
  | succ n ih =>
      have step : "".pushn ' ' (n + 1) = ("".pushn ' ' n).push ' ' := rfl
      rw [step, String.toList_push, ih, List.replicate_succ']

theorem splitOn_lines {lines : List Text} (plain : ∀ l ∈ lines, '\n' ∉ l) :
    (lines.flatMap (· ++ ['\n'])).splitOn '\n' = lines ++ [[]] := by
  have joined : ['\n'].intercalate (lines ++ [[]]) = lines.flatMap (· ++ ['\n']) := by
    clear plain
    induction lines with
    | nil => rfl
    | cons l lines ih =>
        rw [List.flatMap_cons, ← ih]
        cases lines <;> simp [List.intercalate]
  rw [← joined, List.splitOn_intercalate _ _ (by simp)]
  exact List.forall_mem_append.mpr ⟨plain, by simp⟩

namespace SyntaxTree

variable {t : SyntaxTree}

theorem shown_dumpLine (e : DumpEntry) : (t.dumpLine e).shown = e.token?.map t.tokenText := by
  obtain ⟨level, n | i⟩ := e
  · have label := dropWhile_plain (Kind.label_plain (t.kind n) (t.span n)) []
    rw [List.append_nil] at label
    exact congrArg Text.unquoted label
  · change Text.unquoted ((t.showToken i).toList.dropWhile _) = _
    rw [showToken, String.toList_append, String.toList_ofList, dropWhile_plain (Kind.spacedLabel_plain _ _)]
    exact Text.unquoted_quoted (t.tokenText i)

theorem showElement_oneLine (c : Child) : '\n' ∉ (t.showElement c).toList := by
  intro mem
  cases c with
  | node n => exact (Kind.label_plain _ _ _ mem).2 rfl
  | token i =>
      rw [showElement, showToken, String.toList_append, String.toList_ofList] at mem
      rcases List.mem_append.mp mem with label | quoted
      · exact (Kind.spacedLabel_plain _ _ _ label).2 rfl
      · exact Text.quoted_oneLine _ quoted

def lineText (t : SyntaxTree) (e : DumpEntry) : Text :=
  List.replicate (2 * e.level) ' ' ++ (t.showElement e.element).toList

theorem toList_render (e : DumpEntry) : (t.dumpLine e).render.toList = t.lineText e ++ ['\n'] := by
  rw [DumpLine.render, String.toList_append, String.toList_append, pushn_eq_replicate]
  rfl

theorem lineText_oneLine (e : DumpEntry) : '\n' ∉ t.lineText e := by
  rw [lineText, List.mem_append, List.mem_replicate, not_or]
  exact ⟨fun blank => absurd blank.2 (by decide), showElement_oneLine e.element⟩

theorem foldlM_step_walk {n : Nat} (nested : WalkEvent.Nested (t.walk .nodesAndTokens n)) :
    (t.walk .nodesAndTokens n).foldlM (Printer.step t) ⟨"", 0⟩ = some ⟨t.dump n, 0⟩ := by
  rw [Printer.foldlM_step nested 0 "", Printer.printed, String.empty_append]
  rfl

section Printed

variable {n : Nat} {entries : List DumpEntry}
  (printed : t.dumpLines 0 (t.walk .nodesAndTokens n) = entries.map t.dumpLine)
include printed

theorem dump_eq_join : t.dump n = String.join (entries.map fun e => (t.dumpLine e).render) := by
  rw [dump, printed, List.map_map]
  rfl

theorem splitOn_dump : (t.dump n).toList.splitOn '\n' = entries.map t.lineText ++ [[]] := by
  have lines : (t.dump n).toList = (entries.map t.lineText).flatMap (· ++ ['\n']) := by
    rw [dump_eq_join printed, String.toList_join, List.flatMap_map, List.flatMap_map]
    exact List.flatMap_congr fun e _ => toList_render e
  rw [lines, splitOn_lines]
  exact List.forall_mem_map.mpr fun e _ => lineText_oneLine e

end Printed

end SyntaxTree

end LosslessTree
