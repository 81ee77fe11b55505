import LosslessTree.Proofs.Tree.Touring

/-!
# Dropping parts of a walk

A walk keeps the nodes that it has entered with the children that are left. What it does next, and what
is left of it when a node is dropped, is told by the events that are still to come.
-/

set_option autoImplicit false

namespace LosslessTree

def WalkEvent.opens (opened : List Nat) : WalkEvent → List Nat
  | enter n => n :: opened
  | leave n => opened.erase n
  | token _ => opened

def WalkEvent.behindLeave (n : Nat) (events : List WalkEvent) : List WalkEvent :=
  (events.dropWhile (· ≠ .leave n)).tail

theorem WalkEvent.behindLeave_append {n : Nat} {inner rest : List WalkEvent} (once : .leave n ∉ inner) :
    behindLeave n (inner ++ .leave n :: rest) = rest := by
  have passed : ∀ e ∈ inner, decide (e ≠ .leave n) = true := by
    intro e mem
    rw [decide_eq_true_iff]
    rintro rfl
    exact once mem
  rw [behindLeave, List.dropWhile_append_of_pos passed, List.dropWhile_cons_of_neg (by simp)]
  rfl

theorem WalkEvent.behindLeave_filter (n : Nat) (events : List WalkEvent) :
    (behindLeave n events).filter isNode = behindLeave n (events.filter isNode) := by
  induction events with
  | nil => rfl
  | cons e events ih =>
      by_cases here : e = .leave n
      · have first (events : List WalkEvent) : behindLeave n (.leave n :: events) = events :=
          @behindLeave_append n [] events List.not_mem_nil
        rw [here, first, List.filter_cons_of_pos rfl, first]
      · have passed (events : List WalkEvent) : behindLeave n (e :: events) = behindLeave n events := by
          rw [behindLeave, List.dropWhile_cons_of_pos (by simpa using here), behindLeave]
        rw [passed, ih]
        cases kept : e.isNode with
        | true => rw [List.filter_cons_of_pos kept, passed]
        | false => rw [List.filter_cons_of_neg (by simp [kept])]

namespace Walk

inductive Request where
  | next | skip
  deriving DecidableEq, Repr

inductive Answer where
  | event (event : Option WalkEvent)
  | skipped
  | refused (error : SkipError)
  deriving DecidableEq, Repr

-- What a walk answers, and the walk from there on. It stays as it is where there is no event, and
-- where there is nothing to drop.
def turn (step : Walk → Option (WalkEvent × Walk)) (w : Walk) : Request → Answer × Walk
  | .next =>
      match step w with
      | none => (.event none, w)
      | some (event, more) => (.event (some event), more)
  | .skip =>
      match w.skip with
      | .error e => (.refused e, w)
      | .ok more => (.skipped, more)

def answers (step : Walk → Option (WalkEvent × Walk)) : Walk → List Request → List Answer
  | _, [] => []
  | w, request :: requests =>
      (w.turn step request).1 :: answers step (w.turn step request).2 requests

def reach (step : Walk → Option (WalkEvent × Walk)) (w : Walk) (requests : List Request) : Walk :=
  requests.foldl (fun w request => (w.turn step request).2) w

/-- A walk as the nodes that are entered and neither left nor dropped, innermost first, and the events
still to come. -/
structure Plan where
  opened : List Nat
  rest : List WalkEvent

namespace Plan

-- The next event is the first one to come. The innermost open node is dropped with all that comes
-- up to the event that leaves it.
def turn (p : Plan) : Request → Answer × Plan
  | .next =>
      match p.rest with
      | [] => (.event none, p)
      | event :: rest => (.event (some event), ⟨event.opens p.opened, rest⟩)
  | .skip =>
      match p.opened with
      | [] => (.refused .nothingEntered, p)
      | n :: outer => (.skipped, ⟨outer, WalkEvent.behindLeave n p.rest⟩)

def answers : Plan → List Request → List Answer
  | _, [] => []
  | p, request :: requests => (p.turn request).1 :: answers (p.turn request).2 requests

end Plan

def Keeps (step : Walk → Option (WalkEvent × Walk)) (R : Walk → Plan → Prop) : Prop :=
  ∀ w p request, R w p →
    (w.turn step request).1 = (p.turn request).1 ∧ R (w.turn step request).2 (p.turn request).2

theorem Keeps.answers {step : Walk → Option (WalkEvent × Walk)} {R : Walk → Plan → Prop}
    (keeps : Keeps step R) {w : Walk} {p : Plan} (h : R w p) (requests : List Request) :
    w.answers step requests = p.answers requests := by
  induction requests generalizing w p with
  | nil => rfl
  | cons request requests ih =>
      obtain ⟨same, further⟩ := keeps w p request h
      rw [Walk.answers, Plan.answers, same, ih further]

section Shows

variable (t : SyntaxTree) (scope : WalkScope)

-- The entered nodes with the children that are left, and the events from there on.
inductive Unfolds : List (Nat × List Child) → List Nat → List WalkEvent → Prop where
  | nil : Unfolds [] [] []
  | cons {n : Nat} {children : List Child} {inner rest : List WalkEvent}
      {entered : List (Nat × List Child)} {opened : List Nat} (tour : t.Tours scope children inner)
      (once : .leave n ∉ inner) (outer : Unfolds entered opened rest) :
      Unfolds ((n, children) :: entered) (n :: opened) (inner ++ .leave n :: rest)

-- A walk that has not begun shows all of its node, and any other what its entered nodes unfold to.
inductive Shows : Walk → Plan → Prop where
  | pending {n : Nat} {inner : List WalkEvent} (tour : t.Tours scope (childrenIn t scope n) inner)
      (once : .leave n ∉ inner) : Shows (start n) ⟨[], .enter n :: inner ++ [.leave n]⟩
  | begun {entered : List (Nat × List Child)} {opened : List Nat} {rest : List WalkEvent}
      (unfolds : Unfolds t scope entered opened rest) : Shows ⟨none, entered⟩ ⟨opened, rest⟩

variable {t scope} {w : Walk} {p : Plan}

theorem Shows.next (h : Shows t scope w p) :
    (p.rest = [] ∧ w.next t scope = none) ∨
      ∃ event rest more, p.rest = event :: rest ∧ w.next t scope = some (event, more) ∧
        Shows t scope more ⟨event.opens p.opened, rest⟩ := by
  cases h with
  | pending tour once =>
      exact .inr ⟨_, _, _, rfl, rfl, .begun (.cons tour once .nil)⟩
  | begun unfolds =>
      cases unfolds with
      | nil => exact .inl ⟨rfl, rfl⟩
      | @cons n children inner rest entered opened tour once outer =>
          -- The innermost node goes on with its next child, or is left when there is none.
          right
          cases tour with
          | nil =>
              refine ⟨_, _, _, rfl, rfl, ?_⟩
              rw [WalkEvent.opens, List.erase_cons_head]
              exact .begun outer
          | token tour =>
              exact ⟨_, _, _, rfl, rfl, .begun (.cons tour (fun mem => once (.tail _ mem)) outer)⟩
          | @node m children inner events within once' tour =>
              refine ⟨.enter m, inner ++ .leave m :: (events ++ .leave n :: rest), _, by simp, rfl, ?_⟩
              refine .begun (.cons within once' (.cons tour (fun mem => once ?_) outer))
              exact List.mem_append_right _ (.tail _ mem)

theorem Shows.skip (h : Shows t scope w p) :
    (p.opened = [] ∧ w.skip = .error .nothingEntered) ∨
      ∃ n outer more, p.opened = n :: outer ∧ w.skip = .ok more ∧
        Shows t scope more ⟨outer, WalkEvent.behindLeave n p.rest⟩ := by
  cases h with
  | pending tour once => exact .inl ⟨rfl, rfl⟩
  | begun unfolds =>
      cases unfolds with
      | nil => exact .inl ⟨rfl, rfl⟩
      | cons tour once outer =>
          refine .inr ⟨_, _, _, rfl, rfl, ?_⟩
          rw [WalkEvent.behindLeave_append once]
          exact .begun outer

theorem shows_keeps : Keeps (Walk.next t scope) (Shows t scope) := by
  intro w p request h
  cases request with
  | next =>
      rcases h.next with ⟨none, found⟩ | ⟨event, rest, more, some_, found, further⟩
      · simpa only [turn, Plan.turn, none, found, true_and] using h
      · simpa only [turn, Plan.turn, some_, found, true_and] using further
  | skip =>
      rcases h.skip with ⟨none, found⟩ | ⟨n, outer, more, some_, found, further⟩
      · simpa only [turn, Plan.turn, none, found, true_and] using h
      · simpa only [turn, Plan.turn, some_, found, true_and] using further

theorem Shows.take (h : Shows t scope w p) (k : Nat) : w.take t scope k = p.rest.take k := by
  induction k generalizing w p with
  | zero => rfl
  | succ k ih =>
      rw [Walk.take]
      rcases h.next with ⟨none, found⟩ | ⟨event, rest, more, some_, found, further⟩
      · rw [found, none, List.take_nil]
      · rw [found, some_, List.take_succ_cons]
        exact congrArg _ (ih further)

end Shows

section Nodes

variable {t : SyntaxTree} {w more : Walk}

theorem nextNode_of_token {i : Nat} (found : w.next t .nodesAndTokens = some (.token i, more)) :
    nextNode t w = nextNode t more := by
  rw [nextNode]
  split
  · next found' =>
      rw [found] at found'
      cases found'
      rfl
  · next other => exact absurd found (other i more)

theorem nextNode_of_isNode {event : WalkEvent} (isNode : event.isNode = true)
    (found : w.next t .nodesAndTokens = some (event, more)) : nextNode t w = some (event, more) := by
  rw [nextNode]
  split
  · next found' =>
      rw [found] at found'
      cases found'
      cases isNode
  · exact found

theorem nextNode_of_none (found : w.next t .nodesAndTokens = none) : nextNode t w = none := by
  rw [nextNode]
  split
  · next found' =>
      rw [found] at found'
      cases found'
  · exact found

def ShowsNodes (t : SyntaxTree) (w : Walk) (p : Plan) : Prop :=
  ∃ whole, Shows t .nodesAndTokens w ⟨p.opened, whole⟩ ∧ p.rest = whole.filter WalkEvent.isNode

theorem Shows.nextNode {opened : List Nat} {whole : List WalkEvent}
    (h : Shows t .nodesAndTokens w ⟨opened, whole⟩) :
    (whole.filter WalkEvent.isNode = [] ∧ nextNode t w = none) ∨
      ∃ event rest more, whole.filter WalkEvent.isNode = event :: rest.filter WalkEvent.isNode ∧
        nextNode t w = some (event, more) ∧ Shows t .nodesAndTokens more ⟨event.opens opened, rest⟩ := by
  -- A token is passed over, which leaves the same nodes open and one event less to come.
  induction whole generalizing w with
  | nil =>
      rcases h.next with ⟨-, found⟩ | ⟨event, rest, more, some_, -⟩
      · exact .inl ⟨rfl, nextNode_of_none found⟩
      · cases some_
  | cons first whole ih =>
      rcases h.next with ⟨none, -⟩ | ⟨event, rest, more, some_, found, further⟩
      · cases none
      cases some_
      cases first with
      | token i =>
          rw [nextNode_of_token found]
          exact ih further
      | enter n => exact .inr ⟨_, whole, more, rfl, nextNode_of_isNode rfl found, further⟩
      | leave n => exact .inr ⟨_, whole, more, rfl, nextNode_of_isNode rfl found, further⟩

theorem showsNodes_keeps : Keeps (nextNode t) (ShowsNodes t) := by
  rintro w ⟨opened, rest⟩ request ⟨whole, h, kept⟩
  simp only at h kept
  subst kept
  cases request with
  | next =>
      rcases h.nextNode with ⟨none, found⟩ | ⟨event, rest, more, some_, found, further⟩
      · simp only [turn, Plan.turn, none, found, true_and]
        exact ⟨whole, h, none.symm⟩
      · simp only [turn, Plan.turn, some_, found, true_and]
        exact ⟨rest, further, rfl⟩
  | skip =>
      rcases h.skip with ⟨none, found⟩ | ⟨n, outer, more, some_, found, further⟩
      · simp only at none
        simp only [turn, Plan.turn, none, found, true_and]
        exact ⟨whole, none ▸ h, rfl⟩
      · simp only at some_
        simp only [turn, Plan.turn, some_, found, true_and]
        exact ⟨_, further, (WalkEvent.behindLeave_filter n whole).symm⟩

end Nodes

end Walk

end LosslessTree
