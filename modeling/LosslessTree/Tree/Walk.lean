import LosslessTree.Tree.Navigation

set_option autoImplicit false

namespace LosslessTree

inductive WalkEvent where
  | enter (node : Nat)
  | leave (node : Nat)
  | token (index : Nat)
  deriving DecidableEq, Repr

inductive WalkScope where
  | nodes | nodesAndTokens
  deriving DecidableEq, Repr

/-- The walk has not begun, or it has its entered nodes, innermost first, each with the children
that are left. -/
structure Walk where
  pending : Option Nat
  entered : List (Nat × List Child)
  deriving Repr

namespace Walk

inductive SkipError where
  | nothingEntered
  deriving DecidableEq, Repr

def SkipError.message : SkipError → String
  | nothingEntered => "no entered node to skip"

def start (n : Nat) : Walk := ⟨some n, []⟩

def childrenIn (t : SyntaxTree) (scope : WalkScope) (n : Nat) : List Child :=
  match scope with
  | .nodesAndTokens => t.children n
  | .nodes => (t.childNodes n).map Child.node

-- The next event; none once the first node has been left or dropped.
def next (t : SyntaxTree) (scope : WalkScope) (w : Walk) : Option (WalkEvent × Walk) :=
  match w.entered with
  | [] => w.pending.map fun n => (.enter n, ⟨none, [(n, childrenIn t scope n)]⟩)
  | (n, []) :: outer => some (.leave n, ⟨w.pending, outer⟩)
  | (n, .node m :: rest) :: outer =>
      some (.enter m, ⟨w.pending, (m, childrenIn t scope m) :: (n, rest) :: outer⟩)
  | (n, .token i :: rest) :: outer => some (.token i, ⟨w.pending, (n, rest) :: outer⟩)

def ahead (w : Walk) : Nat :=
  match w.entered with
  | [] => 0
  | (_, children) :: _ => children.length

theorem ahead_of_token {t : SyntaxTree} {scope : WalkScope} {w more : Walk} {i : Nat}
    (found : w.next t scope = some (.token i, more)) : more.ahead < w.ahead := by
  obtain ⟨pending, entered⟩ := w
  match entered with
  | [] => cases pending <;> simp [next] at found
  | (_, []) :: _ => simp [next] at found
  | (_, .node _ :: _) :: _ => simp [next] at found
  | (_, .token _ :: rest) :: _ =>
      obtain ⟨-, rfl⟩ : _ ∧ _ = more := by simpa [next] using found
      exact Nat.lt_succ_self rest.length

def nextNode (t : SyntaxTree) (w : Walk) : Option (WalkEvent × Walk) :=
  match _ : w.next t .nodesAndTokens with
  | some (.token _, more) => nextNode t more
  | answer => answer
termination_by w.ahead
decreasing_by exact ahead_of_token ‹_›

-- Drops what is left of the innermost entered node, its end included.
def skip (w : Walk) : Except SkipError Walk :=
  match w.entered with
  | [] => .error .nothingEntered
  | _ :: outer => .ok ⟨w.pending, outer⟩

def take (t : SyntaxTree) (scope : WalkScope) : Nat → Walk → List WalkEvent
  | 0, _ => []
  | k + 1, w =>
      match w.next t scope with
      | none => []
      | some (event, more) => event :: take t scope k more

end Walk

namespace SyntaxTree

-- More events than a walk can have: each node is entered and left, each token is met once.
def walkBound (t : SyntaxTree) : Nat := 2 * t.nodes.size + t.tokens.size

def walk (t : SyntaxTree) (scope : WalkScope) (n : Nat) : List WalkEvent :=
  (Walk.start n).take t scope t.walkBound

end SyntaxTree

end LosslessTree
