import LosslessTree.Diagnostic.Basic
import LosslessTree.Diagnostic.Canvas
import LosslessTree.Diagnostic.Window

set_option autoImplicit false

namespace LosslessTree

structure Sheet where
  margin : Nat
  codeColumn : Nat
  window : Window
  deriving DecidableEq, Repr

namespace Sheet

def sideColumn (s : Sheet) : Nat := s.margin + 3

def bar (s : Sheet) : Row := Row.put [] (s.margin + 1) .frame ['|']

def numbered (s : Sheet) (l : SourceLine) : Row :=
  let digits := toString l.number
  Row.inked .frame ("".pushn ' ' (s.margin - digits.length) ++ digits ++ " |").toList

def ellipsis : Text := ['.', '.', '.']

-- Draws the part of a line that the window shows into a row. Where the line is cut, an ellipsis
-- stands over the code.
def draw (s : Sheet) (l : SourceLine) (row : Row) : Row :=
  let code := s.window.visible l.shown
  let row := row.put s.codeColumn .plain code
  let row := if s.window.cutsLeft then row.put s.codeColumn .frame ellipsis else row
  if s.window.cutsRight l.shown then
    row.put (s.codeColumn + code.cellWidth - 3) .frame ellipsis
  else row

def codeRow (s : Sheet) (l : SourceLine) : Row := s.draw l (s.numbered l)

def innerRow (s : Sheet) (l : SourceLine) : Row :=
  s.draw l ((s.numbered l).put s.sideColumn .fault ['|'])

def place (s : Sheet) (l : SourceLine) (column : Nat) : Nat :=
  s.codeColumn + column - s.window.hidden l.shown

def labelled (s : Sheet) (l : SourceLine) (stop : Nat) (row : Row) : Row :=
  row.put (s.codeColumn + (stop + 1 - s.window.hidden l.shown)) .fault "here".toList

def underline (s : Sheet) (place : Nat) (row : Row) : Row :=
  let start := s.sideColumn + 1
  row.put start .fault (List.replicate (place + 1 - start) '_')

def singleRows (s : Sheet) (l : SourceLine) (marks : Marks) : List Row :=
  let columns := List.range' marks.first (marks.stop - marks.first)
  [s.codeRow l,
    columns.foldl (fun row c => row.put (s.place l c) .fault ['^'])
      (s.labelled l marks.stop s.bar)]

-- The first line of a span of several lines. The span is opened by a row of its own if it starts
-- behind the indentation of the line, and else beside the line.
def openingRows (s : Sheet) (l : SourceLine) (mark : Nat) : List Row :=
  if (l.shown.take mark).all Unicode.isBlank then
    [(s.codeRow l).put s.sideColumn .fault ['/']]
  else
    let place := s.place l mark
    [s.codeRow l, (s.underline place s.bar).put place .fault ['^']]

def closingRows (s : Sheet) (l : SourceLine) (mark : Nat) : List Row :=
  let place := s.place l mark
  let markRow := s.labelled l (mark + 1) ((s.underline place s.bar).put s.sideColumn .fault ['|'])
  [(s.codeRow l).put s.sideColumn .fault ['|'], markRow.put place .fault ['^']]

def foldRow (s : Sheet) : Row := (Row.inked .frame ellipsis).put s.sideColumn .fault ['|']

-- Lines between the first and the last; of more than three the middle ones are left out.
def innerRows (s : Sheet) (lines : List SourceLine) : List Row :=
  match lines with
  | first :: _ :: _ :: _ :: _ =>
      [s.innerRow first, s.foldRow] ++ (lines.getLast?.map s.innerRow).toList
  | _ => lines.map s.innerRow

def rows (s : Sheet) (span : Span) : Coverage → List Row
  | .nothing => []
  | .one l => s.singleRows l (l.marks span)
  | .several opening inner closing =>
      s.openingRows opening (opening.openingMark span) ++ s.innerRows inner
        ++ s.closingRows closing (closing.closingMark span)

end Sheet

namespace Excerpt

def margin (e : Excerpt) : Nat :=
  match e.coverage with
  | .nothing => 0
  | coverage => (toString coverage.lastNumber).length

def codeColumn (e : Excerpt) : Nat :=
  match e.coverage with
  | .several _ _ _ => e.margin + 5
  | _ => e.margin + 3

def sheet (e : Excerpt) : Except WindowError Sheet :=
  (Window.around e).map fun window => ⟨e.margin, e.codeColumn, window⟩

end Excerpt

namespace Diagnostic

def titleRow (d : Diagnostic) : Row :=
  Row.inked .fault "error".toList ++
    if d.message.isEmpty then []
    else Row.inked .plain [':', ' '] ++ Row.inked .strong d.message.toList

def placeRow (margin : Nat) (path : String) (position : Nat × Nat) : Row :=
  let name := if path.isEmpty then "" else " " ++ path
  Row.put [] margin .frame "-->".toList
    ++ Row.inked .plain
      (name ++ ":" ++ toString position.1 ++ ":" ++ toString position.2).toList

def rows (d : Diagnostic) (path : String) (text : Text) : Except WindowError (List Row) :=
  let excerpt := Excerpt.around text d.span
  excerpt.sheet.map fun sheet =>
    [d.titleRow, placeRow sheet.margin path excerpt.position, sheet.bar]
      ++ sheet.rows excerpt.span excerpt.coverage ++ [sheet.bar]

def render (palette : Palette) (d : Diagnostic) (path : String) (text : Text) :
    Except WindowError Text :=
  (d.rows path text).map (writeRows palette)

end Diagnostic

end LosslessTree
