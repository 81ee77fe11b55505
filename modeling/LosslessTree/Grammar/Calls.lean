import LosslessTree.Grammar.Parse

set_option autoImplicit false

namespace LosslessTree

structure Call where
  production : Production
  tokens : List Token
  step : Step (Option Kind)

namespace Step

variable {α β : Type}

def callsRepeating (body : List Token → Step Bool) (calls : List Token → List Call) :
    Nat → List Token → List Call
  | 0, _ => []
  | n + 1, tokens =>
      calls tokens ++
        if (body tokens).value then callsRepeating body calls n (body tokens).rest else []

def callsGrowing (more : α → List Token → Option β) (step : β → List Token → Step (Kind × α))
    (calls : β → List Token → List Call) : Nat → Step α → List Call
  | 0, _ => []
  | n + 1, built =>
      match more built.value built.rest with
      | none => []
      | some b => calls b built.rest ++ callsGrowing more step calls n (built.around (step b))

end Step

-- The calls of a rule, and behind each of them those inside it.
def Rule.calls (eof : Token) (productions : Productions)
    (inside : Production → List Token → List Call) : {α : Type} → Rule α → List Token → List Call
  | _, .bind first next, tokens =>
      let s := first.run eof productions tokens
      first.calls eof productions inside tokens ++ (next s.value).calls eof productions inside s.rest
  | _, .wrap body, tokens => body.calls eof productions inside tokens
  | _, .grow first more step, tokens =>
      first.calls eof productions inside tokens ++
        Step.callsGrowing (fun a rest => more a (rest.headD eof).lookahead)
          (fun b => (step b).run eof productions) (fun b => (step b).calls eof productions inside)
          (tokens.length + 1) (first.run eof productions tokens)
  | _, .loop body, tokens =>
      Step.callsRepeating (body.run eof productions) (body.calls eof productions inside)
        (tokens.length + 1) tokens
  | _, .call p, tokens => ⟨p, tokens, productions p tokens⟩ :: inside p tokens
  | _, .pure _, _ | _, .peek, _ | _, .ensure _, _ | _, .take, _ | _, .report _, _ => []

def Productions.callsUpTo (rules : Production → Rule (Option Kind)) (eof : Token) :
    Nat → Production → List Token → List Call
  | 0 => fun _ _ => []
  | n + 1 => fun p => (rules p).calls eof (upTo rules eof n) (callsUpTo rules eof n)

def TokenStream.calls {α : Type} (s : TokenStream) (rule : Rule α) : List Call :=
  rule.calls s.eof (.upTo Production.rule s.eof (s.tokens.length + 1))
    (Productions.callsUpTo Production.rule s.eof (s.tokens.length + 1)) s.tokens

end LosslessTree
