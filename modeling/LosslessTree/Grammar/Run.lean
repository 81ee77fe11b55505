import LosslessTree.Diagnostic.Basic
import LosslessTree.Grammar.Rule
import LosslessTree.Tree.Forest

/-!
# Running rules

A rule runs on the tokens that are left and gives back those that it left, with what it built
and reported. Every repetition is bounded by the tokens that are left: a round of a loop, or a
call inside a call, that takes none would be the last.
-/

set_option autoImplicit false

namespace LosslessTree

structure Step (α : Type) where
  value : α
  parts : Forest
  reports : List Diagnostic
  rest : List Token

namespace Step

def andThen {α β : Type} (s : Step α) (next : α → List Token → Step β) : Step β :=
  let more := next s.value s.rest
  ⟨more.value, s.parts ++ more.parts, s.reports ++ more.reports, more.rest⟩

def wrapped {α : Type} (s : Step (Option Kind × α)) : Step α :=
  match s.value with
  | (some k, a) => { s with value := a, parts := .node k s.parts .nil }
  | (none, a) => { s with value := a }

def repeating (body : List Token → Step Bool) : Nat → List Token → Step Unit
  | 0, tokens => ⟨(), .nil, [], tokens⟩
  | n + 1, tokens =>
      (body tokens).andThen fun again rest =>
        if again then repeating body n rest else ⟨(), .nil, [], rest⟩

def around {α β : Type} (built : Step α) (step : List Token → Step (Kind × β)) : Step β :=
  let all := built.andThen fun _ rest => step rest
  ⟨all.value.2, .node all.value.1 all.parts .nil, all.reports, all.rest⟩

def growing {α β : Type} (more : α → List Token → Option β)
    (step : β → List Token → Step (Kind × α)) : Nat → Step α → Step α
  | 0, built => built
  | n + 1, built =>
      match more built.value built.rest with
      | none => built
      | some b => growing more step n (built.around (step b))

end Step

abbrev Productions := Production → List Token → Step (Option Kind)

-- Runs a rule. `eof` stands behind the last token.
def Rule.run (eof : Token) (productions : Productions) :
    {α : Type} → Rule α → List Token → Step α
  | _, .pure a, tokens => ⟨a, .nil, [], tokens⟩
  | _, .bind first next, tokens =>
      (first.run eof productions tokens).andThen fun a => (next a).run eof productions
  | _, .peek, tokens => ⟨(tokens.headD eof).lookahead, .nil, [], tokens⟩
  | _, .ensure _, tokens => ⟨(), .nil, [], tokens⟩
  | _, .take, [] => ⟨(), .nil, [], []⟩
  | _, .take, t :: tokens => ⟨(), .leaf t.leaf .nil, [], tokens⟩
  | _, .report problem, tokens =>
      ⟨(), .nil, [⟨problem.message, (tokens.headD eof).span⟩], tokens⟩
  | _, .wrap body, tokens => (body.run eof productions tokens).wrapped
  | _, .grow first more step, tokens =>
      Step.growing (fun a rest => more a (rest.headD eof).lookahead)
        (fun b => (step b).run eof productions) (tokens.length + 1)
        (first.run eof productions tokens)
  | _, .loop body, tokens =>
      Step.repeating (body.run eof productions) (tokens.length + 1) tokens
  | _, .call production, tokens => productions production tokens

def Productions.upTo (rules : Production → Rule (Option Kind)) (eof : Token) : Nat → Productions
  | 0 => fun _ tokens => ⟨none, .nil, [], tokens⟩
  | n + 1 => fun production => (rules production).run eof (upTo rules eof n)

end LosslessTree
