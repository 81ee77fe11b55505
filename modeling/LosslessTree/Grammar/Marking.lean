import LosslessTree.Grammar.Parse
import LosslessTree.Tree.Assembly

/-!
# Parsing by events

Rules run on a list of events with markers: a node starts without a kind, gets it when it is
completed, and may be named later as a child of a node that starts behind it. The events are then
replayed into an assembly. What would be a defect of the rules stops the parse with a panic.

A marker keeps the position of its start. The programs take the function that says what is kept of a
position.
-/

set_option autoImplicit false

namespace LosslessTree

inductive Mark where
  -- The start of a node, and how far behind it the node around it starts.
  | start (kind : Kind) (forward : Option Nat)
  | token (token : Token)
  | finish
  deriving DecidableEq, Repr

-- The start of a node that is still open, or that was given up.
def Mark.open : Mark := .start .tombstone none

inductive Panic where
  -- A marker or a forward parent stands where no node starts.
  | unreachable
  | outOfBounds
  -- A position is behind the one that it is taken from.
  | underflow
  -- A node goes around another one, but none was completed.
  | unmarked
  -- A loop or a rule inside itself goes on without taking a token.
  | endless
  -- The current token is not one that the rule is for.
  | unexpected
  -- Tokens are left behind the rule for a file.
  | notAtEnd
  | assembly (error : AssemblyError)
  deriving DecidableEq, Repr

structure Marking where
  marks : List Mark
  -- Where the node starts that was completed last.
  completed : Option Nat
  reports : List Diagnostic
  rest : List Token
  deriving DecidableEq, Repr

namespace Marking

-- What is kept of a position, in 32 bits.
def narrow (position : Nat) : Nat := position % Assembly.offsetLimit

def start (keep : Nat → Nat) (m : Marking) : Nat × Marking :=
  (keep m.marks.length, { m with marks := m.marks ++ [.open] })

def complete (m : Marking) (position : Nat) (kind : Kind) : Except Panic Marking :=
  match m.marks[position]? with
  | none => .error .outOfBounds
  | some (.start _ forward) =>
      .ok { m with
        marks := m.marks.set position (.start kind forward) ++ [.finish]
        completed := some position }
  | some _ => .error .unreachable

-- Gives up the node that starts at the position. A start with nothing behind it is taken back.
def abandon (m : Marking) (position : Nat) : Except Panic Marking :=
  if m.marks = [] then .error .underflow
  else if position = m.marks.length - 1 then
    match m.marks.getLast? with
    | some (.start .tombstone none) => .ok { m with marks := m.marks.dropLast }
    | _ => .error .unreachable
  else .ok m

def precede (keep : Nat → Nat) (m : Marking) : Except Panic (Nat × Marking) :=
  match m.completed with
  | none => .error .unmarked
  | some position =>
      let (around, m) := m.start keep
      match m.marks[position]? with
      | none => .error .outOfBounds
      | some (.start kind _) =>
          if around < position then .error .underflow
          else
            let forward := some (around - position)
            .ok (around, { m with marks := m.marks.set position (.start kind forward) })
      | some _ => .error .unreachable

def push (m : Marking) (t : Token) : Marking := { m with marks := m.marks ++ [.token t] }

def ahead (eof : Token) (m : Marking) : Lookahead := (m.rest.headD eof).lookahead

def advance (m : Marking) : Marking :=
  match m.rest with
  | [] => m
  | t :: tokens => { m.push t with rest := tokens }

def report (eof : Token) (m : Marking) (problem : Problem) : Marking :=
  let span := (m.rest.headD eof).span
  { m with reports := m.reports ++ [⟨problem.message, span⟩] }

abbrev Run (α : Type) := Marking → Except Panic (α × Marking)

-- Runs a program behind a start, which becomes that of a node if the program names a kind.
def wrapping {α : Type} (keep : Nat → Nat) (body : Run (Option Kind × α)) : Run α := fun m => do
  let (position, m) := m.start keep
  let ((kind, a), m) ← body m
  match kind with
  | some k => return (a, ← m.complete position k)
  | none => return (a, ← m.abandon position)

def repeating (body : Run Bool) : Nat → Run Unit
  | 0, _ => .error .endless
  | n + 1, m => do
      let (again, m) ← body m
      if again then repeating body n m else return ((), m)

def growing {α β : Type} (keep : Nat → Nat) (more : α → Marking → Option β)
    (step : β → Run (Kind × α)) : Nat → α → Run α
  | 0, a, m => if (more a m).isSome then .error .endless else .ok (a, m)
  | n + 1, a, m =>
      match more a m with
      | none => .ok (a, m)
      | some b => do
          let (position, m) ← m.precede keep
          let ((kind, a), m) ← step b m
          growing keep more step n a (← m.complete position kind)

def grown {α β : Type} (keep : Nat → Nat) (first : Run α) (more : α → Marking → Option β)
    (step : β → Run (Kind × α)) : Run α := fun m => do
  let bound := m.rest.length + 1
  let (a, m) ← first m
  growing keep more step bound a m

end Marking

def Rule.mark (keep : Nat → Nat) (eof : Token) (calls : Production → Marking.Run (Option Kind)) :
    {α : Type} → Rule α → Marking.Run α
  | _, .pure a, m => .ok (a, m)
  | _, .bind first next, m => do
      let (a, m) ← first.mark keep eof calls m
      (next a).mark keep eof calls m
  | _, .peek, m => .ok (m.ahead eof, m)
  | _, .ensure kinds, m =>
      if kinds.contains (m.ahead eof).kind then .ok ((), m) else .error .unexpected
  | _, .take, m => .ok ((), m.advance)
  | _, .report problem, m => .ok ((), m.report eof problem)
  | _, .wrap body, m => Marking.wrapping keep (body.mark keep eof calls) m
  | _, .grow first more step, m =>
      Marking.grown keep (first.mark keep eof calls) (fun a m => more a (m.ahead eof))
        (fun b => (step b).mark keep eof calls) m
  | _, .loop body, m => Marking.repeating (body.mark keep eof calls) (m.rest.length + 1) m
  | _, .call production, m => calls production m

def Marking.upTo (keep : Nat → Nat) (eof : Token) : Nat → Production → Marking.Run (Option Kind)
  | 0 => fun _ _ => .error .endless
  | n + 1 => fun production => production.rule.mark keep eof (upTo keep eof n)

namespace Mark

/-- Follows forward parents from a distance on: gives the kinds on the way, and the events with
those starts given up. -/
def climb : Nat → List Mark → Except Panic (List Kind × List Mark)
  | _, [] => .error .outOfBounds
  | 0, .start kind (some (distance + 1)) :: marks =>
      (climb distance marks).map fun (kinds, marks) => (kind :: kinds, .open :: marks)
  -- A start that names itself has been given up when it is looked at again.
  | 0, .start kind _ :: marks => .ok ([kind], .open :: marks)
  | 0, _ :: _ => .error .unreachable
  | distance + 1, mark :: marks =>
      (climb distance marks).map fun (kinds, marks) => (kinds, mark :: marks)

def climbFrom (forward : Option Nat) (marks : List Mark) : Except Panic (List Kind × List Mark) :=
  match forward with
  | none | some 0 => .ok ([], marks)
  | some (distance + 1) => climb distance marks

theorem climb_length {distance : Nat} {marks : List Mark} {climbed : List Kind × List Mark}
    (h : climb distance marks = .ok climbed) : climbed.2.length = marks.length := by
  fun_induction climb distance marks generalizing climbed with
  | case1 => cases h
  | case2 kind distance marks ih =>
      cases further : climb distance marks with
      | error => simp [further, Except.map] at h
      | ok climbed' =>
          rw [further] at h
          cases h
          simp [ih further]
  | case3 =>
      cases h
      rfl
  | case4 => cases h
  | case5 distance mark marks ih =>
      cases further : climb distance marks with
      | error => simp [further, Except.map] at h
      | ok climbed' =>
          rw [further] at h
          cases h
          simp [ih further]

theorem climbFrom_length {forward : Option Nat} {marks : List Mark}
    {climbed : List Kind × List Mark} (h : climbFrom forward marks = .ok climbed) :
    climbed.2.length = marks.length := by
  unfold climbFrom at h
  split at h
  · cases h
    rfl
  · cases h
    rfl
  · exact climb_length h

/-- The events of the tree. A start opens its forward parents first, the last one outermost. -/
def replay (marks : List Mark) : Except Panic (List TreeEvent) :=
  match marks with
  | [] => .ok []
  | .finish :: marks => (replay marks).map (.closeNode :: ·)
  | .token t :: marks => (replay marks).map (.token t.leaf :: ·)
  | .start kind forward :: marks =>
      if kind = .tombstone then replay marks
      else
        match _climbed : climbFrom forward marks with
        | .error panic => .error panic
        | .ok climbed =>
            let opened := (climbed.1.filter (· ≠ .tombstone)).reverse ++ [kind]
            (replay climbed.2).map (opened.map .openNode ++ ·)
termination_by marks.length
decreasing_by
  all_goals simp only [List.length_cons]
  · omega
  · omega
  · omega
  · have := climbFrom_length _climbed
    omega

end Mark

-- The events of a text, with the node for the file around all others.
def Marking.record (text : Text) : Except Panic Marking := do
  let stream := TokenStream.ofText text
  let (root, begun) := start narrow ⟨[], none, [], stream.tokens⟩
  let calls := upTo narrow stream.eof (stream.tokens.length + 1)
  let (_, m) ← Rule.file.mark narrow stream.eof calls begun
  if m.rest.isEmpty then (m.push stream.eof).complete root .sourceFile else .error .notAtEnd

def parseByEvents (text : Text) : Except Panic Parse := do
  let m ← Marking.record text
  match Assembly.run text (← Mark.replay m.marks) with
  | .ok tree => return ⟨tree, m.reports⟩
  | .error e => .error (.assembly e)

end LosslessTree
