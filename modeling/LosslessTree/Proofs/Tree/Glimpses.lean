import LosslessTree.Proofs.Token.Joining
import LosslessTree.Proofs.Tree.Carrying
import LosslessTree.Proofs.Tree.RoundTrip
import LosslessTree.Proofs.Tree.Skeleton

set_option autoImplicit false

namespace LosslessTree

inductive Glimpse where
  | enter (kind : Kind)
  | leave (kind : Kind)
  | token (kind : Kind) (span : Span) (text : Text)
  deriving DecidableEq, Repr

def Glimpse.shift (n : Nat) : Glimpse → Glimpse
  | enter k => enter k
  | leave k => leave k
  | token k span text => token k (span.shift n) text

theorem Glimpse.shift_comm (g : Glimpse) (n m : Nat) : (g.shift n).shift m = (g.shift m).shift n := by
  cases g <;> simp [shift, Span.shift, Nat.add_right_comm]

def SyntaxTree.glimpse (t : SyntaxTree) : WalkEvent → Glimpse
  | .enter n => .enter (t.kind n)
  | .leave n => .leave (t.kind n)
  | .token i => .token (t.tokenKind i) (t.tokenSpan i) (t.tokenText i)

def SyntaxTree.glimpses (t : SyntaxTree) (n : Nat) : List Glimpse :=
  (t.walk .nodesAndTokens n).map t.glimpse

def SyntaxTree.scenes (t : SyntaxTree) : List (List Glimpse) := (t.childNodes 0).map t.glimpses

def Token.glimpse (t : Token) : Glimpse := .token t.kind t.span t.text

namespace Forest

def glimpses : Forest → List Token → List Glimpse
  | nil, _ => []
  | leaf _ _, [] => []
  | leaf _ rest, t :: tokens => t.glimpse :: rest.glimpses tokens
  | node k inner rest, tokens =>
      .enter k :: inner.glimpses tokens ++
        .leave k :: rest.glimpses (tokens.drop inner.leaves.length)

def scenes : Forest → List Token → List (List Glimpse)
  | nil, _ => []
  | leaf _ rest, tokens => rest.scenes tokens.tail
  | node k inner rest, tokens =>
      (.enter k :: inner.glimpses tokens ++ [.leave k]) ::
        rest.scenes (tokens.drop inner.leaves.length)

theorem glimpses_bare (f : Forest) (tokens : List Token) :
    f.bare.glimpses tokens = f.glimpses tokens := by
  induction f generalizing tokens with
  | nil => rfl
  | leaf l rest ih => cases tokens <;> simp [bare, glimpses, ih]
  | node k inner rest hi hr => simp [bare, glimpses, hi, hr, leaves_bare]

theorem scenes_bare (f : Forest) (tokens : List Token) : f.bare.scenes tokens = f.scenes tokens := by
  induction f generalizing tokens with
  | nil => rfl
  | leaf l rest ih => simp [bare, scenes, ih]
  | node k inner rest _ ih => simp [bare, scenes, ih, leaves_bare, glimpses_bare]

theorem scenes_append (f g : Forest) (tokens : List Token) :
    (f ++ g).scenes tokens = f.scenes tokens ++ g.scenes (tokens.drop f.leaves.length) := by
  induction f generalizing tokens with
  | nil => rfl
  | leaf l rest ih => simp [scenes, leaves, ih]
  | node k inner rest _ ih => simp [scenes, leaves, ih]

theorem glimpses_prefix {f : Forest} {tokens : List Token} (enough : f.leaves.length ≤ tokens.length)
    (later : List Token) : f.glimpses (tokens ++ later) = f.glimpses tokens := by
  induction f generalizing tokens with
  | nil => rfl
  | leaf l rest ih =>
      cases tokens with
      | nil => cases enough
      | cons t tokens =>
          have less : rest.leaves.length ≤ tokens.length := by simpa [leaves] using enough
          simp [glimpses, ih less]
  | node k inner rest hi hr =>
      simp only [leaves, List.length_append] at enough
      have first : inner.leaves.length ≤ tokens.length := by omega
      have less : rest.leaves.length ≤ (tokens.drop inner.leaves.length).length := by
        rw [List.length_drop]
        omega
      simp only [glimpses, hi first, List.drop_append_of_le_length first, hr less]

theorem scenes_prefix {f : Forest} {tokens : List Token} (enough : f.leaves.length ≤ tokens.length)
    (later : List Token) : f.scenes (tokens ++ later) = f.scenes tokens := by
  induction f generalizing tokens with
  | nil => rfl
  | leaf l rest ih =>
      cases tokens with
      | nil => cases enough
      | cons t tokens =>
          have less : rest.leaves.length ≤ tokens.length := by simpa [leaves] using enough
          exact ih less
  | node k inner rest _ ih =>
      simp only [leaves, List.length_append] at enough
      have first : inner.leaves.length ≤ tokens.length := by omega
      have less : rest.leaves.length ≤ (tokens.drop inner.leaves.length).length := by
        rw [List.length_drop]
        omega
      simp only [scenes, glimpses_prefix first, List.drop_append_of_le_length first, ih less]

end Forest

section Moves

variable {n : Nat} {t t' : Token} {tokens tokens' : List Token}

theorem Token.Moved.glimpse (h : t.Moved n t') : t'.glimpse = t.glimpse.shift n := by
  rw [Token.glimpse, h.kind, h.span, h.text]
  rfl

theorem Token.Moved.map_glimpse (h : List.Forall₂ (Token.Moved n) tokens tokens') :
    tokens'.map Token.glimpse = tokens.map fun t => t.glimpse.shift n := by
  rw [eq_comm, ← List.forall₂_eq_eq_eq, List.forall₂_map_left_iff, List.forall₂_map_right_iff]
  exact h.imp fun _ _ moved => moved.glimpse.symm

end Moves

namespace Forest

variable {n : Nat} {tokens tokens' : List Token}

theorem glimpses_moved (f : Forest) (moved : List.Forall₂ (Token.Moved n) tokens tokens') :
    f.glimpses tokens' = (f.glimpses tokens).map (Glimpse.shift n) := by
  induction f generalizing tokens tokens' with
  | nil => rfl
  | leaf l rest ih =>
      cases moved with
      | nil => rfl
      | cons first behind =>
          simp only [glimpses, List.map_cons, ih behind, first.glimpse]
  | node k inner rest hi hr =>
      simp [glimpses, hi moved, hr (List.forall₂_drop _ moved), Glimpse.shift]

theorem scenes_moved (f : Forest) (moved : List.Forall₂ (Token.Moved n) tokens tokens') :
    f.scenes tokens' = (f.scenes tokens).map (List.map (Glimpse.shift n)) := by
  induction f generalizing tokens tokens' with
  | nil => rfl
  | leaf l rest ih =>
      rw [scenes, scenes, ← List.drop_one, ← List.drop_one]
      exact ih (List.forall₂_drop 1 moved)
  | node k inner rest _ ih =>
      simp [scenes, glimpses_moved inner moved, ih (List.forall₂_drop _ moved), Glimpse.shift]

end Forest

theorem Glimpse.shift_zero : Glimpse.shift 0 = id := by
  funext g
  cases g <;> rfl

def Token.Tiled : Nat → List Token → Prop
  | _, [] => True
  | offset, t :: tokens =>
      t.start = offset + Trivia.lengthOf t.leading ∧ Tiled (offset + t.leaf.byteLength) tokens

theorem Token.Tiled.drop {offset : Nat} {tokens : List Token} (h : Tiled offset tokens) (n : Nat) :
    Tiled (offset + total Leaf.byteLength ((tokens.take n).map leaf)) (tokens.drop n) := by
  induction n generalizing offset tokens with
  | zero => exact h
  | succ n ih =>
      cases tokens with
      | nil => trivial
      | cons t tokens =>
          have more := ih h.2
          rwa [Nat.add_assoc] at more

theorem TokenStream.ofTextAt_tiled (offset : Nat) (t : Text) :
    Token.Tiled offset (ofTextAt offset t).tokens := by
  fun_induction ofTextAt offset t with
  | case1 offset t first more rest ih =>
      have stop : first.1.fullSpan.stop = offset + first.1.leaf.byteLength := by
        rw [Token.leaf_byteLength, Token.scan_fullSpan]
      refine ⟨Token.scan_start offset t, ?_⟩
      rw [← stop]
      exact ih
  | case2 => trivial

namespace SyntaxTree

variable {t : SyntaxTree} {parent : Nat} {p : Place} {f : Forest} {tokens : List Token}

theorem Embeds.walk {k : Kind} {inner rest : Forest} (h : t.Embeds parent p (.node k inner rest)) :
    t.walk .nodesAndTokens p.node = .enter p.node :: inner.walk p.inside ++ [.leave p.node] := by
  have nodes := h.nodes.length_le
  have tokens := h.tokens.length_le
  rw [Forest.layout_nodes_length, List.length_drop, Array.length_toList] at nodes
  rw [Forest.layout_tokens_length, List.length_drop, Array.length_toList] at tokens
  simp only [Forest.nodeCount, Forest.tokenCount] at nodes tokens
  have events := inner.length_events_le
  have enough : inner.events.length + 2 ≤ t.walkBound := by
    rw [walkBound]
    omega
  obtain ⟨more, bound⟩ := Nat.exists_eq_add_of_le enough
  rw [SyntaxTree.walk, bound]
  exact h.site.take_walk more

theorem Carries.tiled_behind {k : Kind} {inner rest : Forest}
    (h : t.Carries parent p (.node k inner rest) tokens) (tiled : Token.Tiled p.offset tokens) :
    Token.Tiled (p.inside.after inner).offset (tokens.drop inner.leaves.length) := by
  have taken : inner.leaves = (tokens.take inner.leaves.length).map Token.leaf := by
    obtain ⟨more, leaves⟩ := h.leaves
    rw [List.map_take, ← leaves, Forest.leaves, List.append_assoc, List.take_left]
  have behind := tiled.drop inner.leaves.length
  rwa [← taken, ← Forest.byteLength_leaves] at behind

theorem Carries.leaf_span {token : Token} {rest : Forest}
    (h : t.Carries parent p (.leaf token.leaf rest) (token :: tokens))
    (tiled : Token.Tiled p.offset (token :: tokens)) :
    t.tokenSpan (p.token + token.leaf.leading.length) = token.span := by
  rw [tokenSpan, leaf_token h.embeds.leaf.1, Token.span, Token.stop, tiled.1, ← Token.lengthOf_pieces]
  rfl

theorem Carries.map_glimpse (h : t.Carries parent p f tokens) (tiled : Token.Tiled p.offset tokens) :
    (f.walk p).map t.glimpse = f.glimpses tokens := by
  induction f generalizing parent p tokens with
  | nil => rfl
  | leaf l rest ih =>
      obtain ⟨token, behind, rfl, rfl, text, further⟩ := h.leaf
      have kind : t.tokenKind (p.token + token.leaf.leading.length) = token.kind := by
        rw [tokenKind, leaf_token h.embeds.leaf.1]
        rfl
      rw [Forest.walk, List.map_cons, glimpse, kind, h.leaf_span tiled, text, ih further tiled.2]
      rfl
  | node k inner rest hi hr =>
      obtain ⟨within, behind⟩ := h.node
      have kind : t.kind p.node = k := h.embeds.site.kind
      simp only [Forest.walk, List.map_append, List.map_cons, glimpse, kind, Forest.glimpses,
        hi within tiled, hr behind (h.tiled_behind tiled)]

theorem Carries.glimpses_node {k : Kind} {inner rest : Forest}
    (h : t.Carries parent p (.node k inner rest) tokens) (tiled : Token.Tiled p.offset tokens) :
    t.glimpses p.node = .enter k :: inner.glimpses tokens ++ [.leave k] := by
  have kind : t.kind p.node = k := h.embeds.site.kind
  have inside : (inner.walk p.inside).map t.glimpse = inner.glimpses tokens :=
    h.node.1.map_glimpse tiled
  rw [glimpses, h.embeds.walk]
  simp [glimpse, kind, inside]

theorem Carries.map_glimpses (h : t.Carries parent p f tokens) (tiled : Token.Tiled p.offset tokens) :
    ((f.layout parent p).children.filterMap fun | .node m => some m | .token _ => none).map t.glimpses =
      f.scenes tokens := by
  induction f generalizing parent p tokens with
  | nil => rfl
  | leaf l rest ih =>
      obtain ⟨token, behind, rfl, rfl, text, further⟩ := h.leaf
      exact ih further tiled.2
  | node k inner rest _ ih =>
      obtain ⟨within, behind⟩ := h.node
      simp only [Forest.layout, List.filterMap_cons, List.map_cons, h.glimpses_node tiled, Forest.scenes,
        ih behind (h.tiled_behind tiled)]

theorem parse_scenes (text : Text) :
    (parse text).tree.scenes =
      ((TokenStream.ofText text).run .file).parts.scenes (TokenStream.ofText text).tokens := by
  have carries := parse_carries text
  have tiled : Token.Tiled (Place.mk 1 0 0).offset (TokenStream.ofText text).tokens :=
    TokenStream.ofTextAt_tiled 0 text
  have children : (parse text).tree.children 0 =
      ((TokenStream.ofText text).forest.layout 0 ⟨1, 0, 0⟩).children :=
    (ofRoot_site text .sourceFile (TokenStream.ofText text).forest).children
  -- The root has one child more, which is the end of the file.
  rw [← carries.map_glimpses tiled, scenes, childNodes, children, TokenStream.forest,
    Forest.layout_append, List.filterMap_append]
  exact congrArg (List.map (parse text).tree.glimpses) (List.append_nil _)

end SyntaxTree

end LosslessTree
