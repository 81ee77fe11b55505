import LosslessTree.Text.Span
import LosslessTree.Unicode.Width

set_option autoImplicit false

namespace LosslessTree

def Text.width (t : Text) : Nat := total Unicode.width t

structure SourceLine where
  number : Nat
  start : Nat
  text : Text
  ending : Nat
  deriving DecidableEq, Repr

namespace SourceLine

def stop (l : SourceLine) : Nat := l.start + l.text.byteLength

def reach (l : SourceLine) : Nat := l.stop + max l.ending 1

def before (l : SourceLine) (offset : Nat) : Text := l.text.takeBytes (offset - l.start)

def column (l : SourceLine) (offset : Nat) : Nat := (l.before offset).width

def ofBody (number start : Nat) (body : Text) : SourceLine :=
  if body.getLast? = some '\r' then ⟨number, start, body.dropLast, 2⟩
  else ⟨number, start, body, 1⟩

-- The lines of a text. There is none behind a line feed at its end.
def split (number start : Nat) (t : Text) : List SourceLine :=
  match _rest : t.dropWhile (· != '\n') with
  | [] => if t.isEmpty then [] else [⟨number, start, t, 0⟩]
  | _ :: more =>
      let body : Text := t.takeWhile (· != '\n')
      ofBody number start body :: split (number + 1) (start + body.byteLength + 1) more
termination_by t.length
decreasing_by
  have shorter := (List.dropWhile_suffix (· != '\n') (l := t)).length_le
  rw [_rest, List.length_cons] at shorter
  omega

end SourceLine

structure Excerpt where
  lines : List SourceLine
  span : Span
  deriving DecidableEq, Repr

-- The excerpt around a span: up to the first line feed at or behind its end.
def Excerpt.around (t : Text) (s : Span) : Excerpt :=
  let before := t.takeBytes s.start
  let lead : Text := (before.reverse.takeWhile (· != '\n')).reverse
  let inside := t.slice s
  let behind := (t.dropBytes s.stop).takeWhile (· != '\n')
  ⟨SourceLine.split (before.count '\n' + 1) 0 (lead ++ inside ++ behind),
    ⟨lead.byteLength, lead.byteLength + inside.byteLength⟩⟩

inductive Coverage where
  | nothing
  | one (line : SourceLine)
  | several (opening : SourceLine) (inner : List SourceLine) (closing : SourceLine)
  deriving DecidableEq, Repr

namespace Coverage

def cons (l : SourceLine) : Coverage → Coverage
  | nothing => nothing
  | one closing => several l [] closing
  | several opening inner closing => several l (opening :: inner) closing

def ofLines (s : Span) : List SourceLine → Coverage
  | [] => nothing
  | l :: lines => if s.stop ≤ l.reach then one l else cons l (ofLines s lines)

def lastNumber : Coverage → Nat
  | nothing => 0
  | one l => l.number
  | several _ _ closing => closing.number

end Coverage

structure Marks where
  first : Nat
  stop : Nat
  deriving DecidableEq, Repr

namespace SourceLine

-- The marks of a span inside one line. At least one column is marked.
def marks (l : SourceLine) (s : Span) : Marks :=
  ⟨l.column s.start, max (l.column s.stop) (l.column s.start + 1)⟩

def openingMark (l : SourceLine) (s : Span) : Nat := l.column s.start

-- The mark under the last character of a span, or behind the line if the span ends there.
def closingMark (l : SourceLine) (s : Span) : Nat :=
  l.column s.stop - 1 + if l.stop < s.stop then 1 else 0

end SourceLine

namespace Excerpt

def coverage (e : Excerpt) : Coverage := .ofLines e.span e.lines

def marks (e : Excerpt) : Marks :=
  match e.coverage with
  | .nothing => ⟨0, 0⟩
  | .one l => l.marks e.span
  | .several opening _ closing =>
      let start := opening.openingMark e.span
      let stop := closing.closingMark e.span
      ⟨min start stop, max start stop + 1⟩

def position (e : Excerpt) : Nat × Nat :=
  match e.lines with
  | [] => (1, 1)
  | l :: _ => (l.number, (l.before e.span.start).length + 1)

end Excerpt

end LosslessTree
