import LosslessTree.Grammar.Parse

/-!
# Parsing by the tokens that are left

Rules run with no bound on rounds or depth, and are given up where they do not get on: in a round that
takes no token and asks for another one, or in a production that is called again before a token was
taken. What is left is the measure.
-/

set_option autoImplicit false

namespace LosslessTree

namespace Step

variable {α β : Type}

-- Rounds as long as they answer `true`. Each of those has to take a token.
def rounds (body : List Token → Option (Step Bool)) (tokens : List Token) : Option (Step Unit) :=
  (body tokens).bind fun s =>
    if s.value then
      if s.rest.length < tokens.length then
        (rounds body s.rest).map fun s' => s.andThen fun _ _ => s'
      else none
    else some ⟨(), s.parts, s.reports, s.rest⟩
termination_by tokens.length

-- Nodes around what was built as long as there is more. Each step has to take a token, unless it
-- is the last.
def grown (more : α → List Token → Option β) (step : β → List Token → Option (Step (Kind × α)))
    (built : Step α) : Option (Step α) :=
  match more built.value built.rest with
  | none => some built
  | some b =>
      (step b built.rest).bind fun s =>
        if (built.around fun _ => s).rest.length < built.rest.length then
          grown more step (built.around fun _ => s)
        else if (more s.value.2 s.rest).isNone then some (built.around fun _ => s)
        else none
termination_by built.rest.length

end Step

/-- Runs a rule by productions that may be called at fewer tokens than the bound. -/
def Rule.descend (eof : Token) (bound : Nat)
    (calls : (p : Production) → (tokens : List Token) → tokens.length < bound →
      Option (Step (Option Kind))) :
    {α : Type} → Rule α → List Token → Option (Step α)
  | _, .pure a, tokens => some ⟨a, .nil, [], tokens⟩
  | _, .bind first next, tokens =>
      (first.descend eof bound calls tokens).bind fun s =>
        ((next s.value).descend eof bound calls s.rest).map fun s' => s.andThen fun _ _ => s'
  | _, .peek, tokens => some ⟨(tokens.headD eof).lookahead, .nil, [], tokens⟩
  | _, .ensure _, tokens => some ⟨(), .nil, [], tokens⟩
  | _, .take, [] => some ⟨(), .nil, [], []⟩
  | _, .take, t :: tokens => some ⟨(), .leaf t.leaf .nil, [], tokens⟩
  | _, .report problem, tokens =>
      some ⟨(), .nil, [⟨problem.message, (tokens.headD eof).span⟩], tokens⟩
  | _, .wrap body, tokens => (body.descend eof bound calls tokens).map Step.wrapped
  | _, .grow first more step, tokens =>
      (first.descend eof bound calls tokens).bind
        (Step.grown (fun a rest => more a (rest.headD eof).lookahead) fun b =>
          (step b).descend eof bound calls)
  | _, .loop body, tokens => Step.rounds (body.descend eof bound calls) tokens
  | _, .call p, tokens => if less : tokens.length < bound then calls p tokens less else none

def Production.descend (eof : Token) (p : Production) (tokens : List Token) :
    Option (Step (Option Kind)) :=
  p.rule.descend eof tokens.length (fun p' tokens' _ => p'.descend eof tokens') tokens
termination_by tokens.length

def TokenStream.descend {α : Type} (s : TokenStream) (rule : Rule α) : Option (Step α) :=
  rule.descend s.eof (s.tokens.length + 1) (fun p tokens _ => p.descend s.eof tokens) s.tokens

def parseByDescent (text : Text) : Option Parse :=
  let stream := TokenStream.ofText text
  (stream.descend .file).map fun s =>
    ⟨.ofRoot text .sourceFile (s.parts ++ .leaf stream.eof.leaf .nil), s.reports⟩

end LosslessTree
