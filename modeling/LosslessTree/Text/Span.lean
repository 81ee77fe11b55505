import LosslessTree.Text.Basic

set_option autoImplicit false

namespace LosslessTree

structure Span where
  start : Nat
  stop : Nat
  deriving DecidableEq, Repr, Inhabited

inductive SpanError where
  | reversed
  deriving DecidableEq, Repr

def SpanError.message : SpanError → String
  | reversed => "assertion failed: start.raw <= end.raw"

namespace Span

def empty (offset : Nat) : Span := ⟨offset, offset⟩

def length (s : Span) : Nat := s.stop - s.start

-- The inner span lies inside the outer one; touching the ends is allowed.
def contains (outer inner : Span) : Bool :=
  outer.start ≤ inner.start && inner.stop ≤ outer.stop

theorem contains_iff (outer inner : Span) :
    outer.contains inner = true ↔ outer.start ≤ inner.start ∧ inner.stop ≤ outer.stop := by
  simp [contains]

def shift (s : Span) (n : Nat) : Span := ⟨s.start + n, s.stop + n⟩

-- The span between two offsets, which may not end before it starts.
def between (start stop : Nat) : Except SpanError Span :=
  if start ≤ stop then .ok ⟨start, stop⟩ else .error .reversed

def render (s : Span) : String := toString s.start ++ ".." ++ toString s.stop

end Span

def Text.slice (t : Text) (s : Span) : Text := (t.dropBytes s.start).takeBytes s.length

theorem Text.slice_append (a b c : Text) :
    Text.slice (a ++ (b ++ c)) ⟨a.byteLength, a.byteLength + b.byteLength⟩ = b := by
  simp only [Text.slice, Text.dropBytes_byteLength, Span.length, Nat.add_sub_cancel_left]
  exact Text.takeBytes_byteLength b c

end LosslessTree
