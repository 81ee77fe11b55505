import LosslessTree.Text.Basic

set_option autoImplicit false

namespace LosslessTree

inductive Ink where
  | plain
  | fault
  | strong
  | frame
  deriving DecidableEq, Repr

inductive Palette where
  | plain | styled
  deriving DecidableEq, Repr

namespace Ink

def start : Ink → Text
  | plain => []
  | fault => "\x1b[1m\x1b[91m".toList
  | strong => "\x1b[1m".toList
  | frame => "\x1b[1m\x1b[94m".toList

def stop : Ink → Text
  | plain => []
  | _ => "\x1b[0m".toList

end Ink

structure Cell where
  ink : Ink
  char : Char
  deriving DecidableEq, Repr

abbrev Row := List Cell

namespace Row

def inked (ink : Ink) (t : Text) : Row := t.map (Cell.mk ink)

def blanks (n : Nat) : Row := List.replicate n ⟨.plain, ' '⟩

def put (row : Row) (column : Nat) (ink : Ink) (t : Text) : Row :=
  if t.isEmpty then row
  else
    row.take column ++ blanks (column - row.length) ++ inked ink t ++ row.drop (column + t.length)

theorem length_put (row : Row) (column : Nat) (ink : Ink) (t : Text) (some_text : t ≠ []) :
    (row.put column ink t).length = max row.length (column + t.length) := by
  simp [put, some_text, blanks, inked]
  omega

def writeAfter : Ink → Row → Text
  | ink, [] => ink.stop
  | ink, c :: row =>
      (if c.ink = ink then [] else ink.stop ++ c.ink.start) ++ c.char :: writeAfter c.ink row

def write : Palette → Row → Text
  | .plain, row => row.map Cell.char
  | .styled, row => writeAfter .plain row

theorem write_inked (ink : Ink) (t : Text) : write .plain (inked ink t) = t := by
  simp [write, inked, Function.comp_def]

end Row

def writeRows (palette : Palette) (rows : List Row) : Text :=
  ['\n'].intercalate (rows.map (Row.write palette))

end LosslessTree
