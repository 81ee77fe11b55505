import LosslessTree.Diagnostic.Excerpt
import LosslessTree.Unicode.Blank

set_option autoImplicit false

namespace LosslessTree

inductive WindowError where
  -- The marks and their label end before the indentation of the lines.
  | labelInIndentation
  deriving DecidableEq, Repr

def WindowError.message : WindowError → String
  | labelInIndentation => "attempt to subtract with overflow"

-- Characters that would move the text around them are left out, and tabs become blanks.
def shownChar (c : Char) : Text :=
  if c = '\t' then [' ', ' ', ' ', ' ']
  else if c.toNat = 0x200D ∨ (0x202A ≤ c.toNat ∧ c.toNat ≤ 0x202E)
      ∨ (0x2066 ≤ c.toNat ∧ c.toNat ≤ 0x2069) then []
  else [c]

def SourceLine.shown (l : SourceLine) : Text := l.text.flatMap shownChar

-- Characters between the start of a line and its first character that is no blank, if it has one.
-- A tab counts as four.
def SourceLine.indentation? (l : SourceLine) : Option Nat :=
  if l.text.all Unicode.isBlank then none
  else some (total (fun c => if c = '\t' then 4 else 1) (l.text.takeWhile Unicode.isBlank))

def Text.cellWidth (t : Text) : Nat := total Unicode.cellWidth t

def Text.fitting : Nat → Text → Text
  | _, [] => []
  | columns, c :: t =>
      if Unicode.cellWidth c ≤ columns then c :: fitting (columns - Unicode.cellWidth c) t else []

theorem Text.fitting_isPrefix (columns : Nat) (t : Text) : fitting columns t <+: t := by
  fun_induction fitting columns t with
  | case1 => simp
  | case2 columns c t fits ih => exact List.cons_prefix_cons.mpr ⟨rfl, ih⟩
  | case3 => simp

theorem Text.cellWidth_fitting (columns : Nat) (t : Text) :
    (fitting columns t).cellWidth ≤ columns := by
  fun_induction fitting columns t with
  | case1 => simp [Text.cellWidth]
  | case2 columns c t fits ih =>
    simp only [Text.cellWidth, total_cons] at ih ⊢
    omega
  | case3 => simp [Text.cellWidth]

structure Window where
  columns : Nat
  left : Nat
  right : Nat
  uncut : Nat
  deriving DecidableEq, Repr

namespace Window

def rowWidth : Nat := 140

def room : Nat := 6

def labelWidth : Nat := 5

def shallow : Nat := 20

def shallowed : Nat := 16

def between (columns left right : Nat) : Window := ⟨columns, left, right, left + columns⟩

def fullFrom (columns left : Nat) : Window := between columns left (left + columns)

/-- The window for lines that share an indentation. If cutting deep indentation is not enough, the
first of these that is possible is taken: the window starts at the indentation; it shows the marks
and their label; it shows the marks; it is as wide as the marks. -/
def fit (columns longest indentation : Nat) (marks : Marks) : Except WindowError Window :=
  let indent := indentation - room
  let left := if shallow < indent then indent - shallowed else 0
  let right := max longest left
  let first := marks.first - room
  let stop := marks.stop + room
  let labelStop := marks.stop + labelWidth + room
  if right - left ≤ columns then .ok (between columns left right)
  else if labelStop < indent then .error .labelInIndentation
  else if labelStop - indent ≤ columns then .ok (fullFrom columns indent)
  else if labelStop - first ≤ columns then
    .ok (fullFrom columns (first - (columns - (labelStop - first)) / 2))
  else if stop - first ≤ columns then
    .ok (fullFrom columns (first - (columns - (stop - first)) / 5 * 2))
  else .ok ⟨columns, first, stop, max (first + columns) marks.stop⟩

def behind (columns longest : Nat) : Window :=
  let left := 4 * longest + 1
  between columns left left

def columnsFor (e : Excerpt) : Nat :=
  let first := (e.lines.head?.map SourceLine.number).getD 0
  rowWidth - (3 + (toString (first + e.lines.length)).length)

def around (e : Excerpt) : Except WindowError Window :=
  let longest := ((e.lines.map fun l => l.text.byteLength).max?).getD 0
  match (e.lines.filterMap SourceLine.indentation?).min? with
  | none => .ok (behind (columnsFor e) longest)
  | some indentation => fit (columnsFor e) longest indentation e.marks

def skipped (w : Window) (shown : Text) : Nat := min w.left shown.byteLength

def hidden (w : Window) (shown : Text) : Nat := Text.cellWidth (shown.take (w.skipped shown))

def visible (w : Window) (shown : Text) : Text :=
  let length := shown.byteLength
  let stop := if length - w.left ≤ w.columns then length else min length w.right
  Text.fitting (stop - w.skipped shown) (shown.drop (w.skipped shown))

theorem visible_isInfix (w : Window) (shown : Text) : w.visible shown <:+: shown :=
  (Text.fitting_isPrefix _ _).isInfix.trans (List.drop_suffix _ _).isInfix

def cutsLeft (w : Window) : Bool := 0 < w.left

def cutsRight (w : Window) (shown : Text) : Bool := w.uncut < shown.byteLength

end Window

end LosslessTree
