import LosslessTree.Text.Basic

set_option autoImplicit false

namespace LosslessTree

structure Position where
  line : Nat
  column : Nat
  deriving DecidableEq, Repr

inductive PositionError where
  | invalidOffset
  deriving DecidableEq, Repr

def PositionError.message : PositionError → String
  | invalidOffset => "invalid offset"

namespace Position

def start : Position := ⟨0, 0⟩

def after (p : Position) (c : Char) : Position :=
  if c = '\n' then ⟨p.line + 1, 0⟩ else ⟨p.line, p.column + c.utf8Size⟩

end Position

namespace Text

def positionFrom? (p : Position) : Text → Nat → Option Position
  | _, 0 => some p
  | [], _ + 1 => none
  | c :: rest, n =>
      if c.utf8Size ≤ n then positionFrom? (p.after c) rest (n - c.utf8Size) else none

-- The line and column of an offset: none past the end or inside a character.
def position? (t : Text) (offset : Nat) : Option Position := positionFrom? .start t offset

theorem positionFrom?_isSome (p : Position) (t : Text) (n : Nat) :
    (positionFrom? p t n).isSome = t.isBoundary n := by
  induction t generalizing p n with
  | nil => cases n <;> simp [positionFrom?, isBoundary]
  | cons c rest ih =>
      cases n with
      | zero => simp [positionFrom?, isBoundary]
      | succ n =>
          by_cases h : c.utf8Size ≤ n + 1 <;> simp [positionFrom?, isBoundary, h, ih]

theorem position?_isSome (t : Text) (n : Nat) : (t.position? n).isSome = t.isBoundary n :=
  positionFrom?_isSome .start t n

end Text

end LosslessTree
