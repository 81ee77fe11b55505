import LosslessTree.Token.Stream

set_option autoImplicit false

namespace LosslessTree

structure Lexer where
  current : Token
  offset : Nat
  rest : Text

namespace Lexer

def scan (offset : Nat) (t : Text) : Lexer :=
  let first := Token.scan offset t
  ⟨first.1, first.1.fullSpan.stop, first.2⟩

def start (t : Text) : Lexer := scan 0 t

def take (l : Lexer) : Token × Lexer := (l.current, scan l.offset l.rest)

-- Like `take`, but stays at the end of the file and gives nothing there.
def next? (l : Lexer) : Option Token × Lexer :=
  if l.current.kind == .eof then (none, l)
  else
    let step := l.take
    (some step.1, step.2)

inductive Call where
  | peek
  | take
  | next
  deriving DecidableEq, Repr

def answer : Call → Lexer → Option Token × Lexer
  | .peek, l => (some l.current, l)
  | .take, l => (some l.take.1, l.take.2)
  | .next, l => l.next?

def answers : List Call → Lexer → List (Option Token)
  | [], _ => []
  | c :: calls, l => (answer c l).1 :: answers calls (answer c l).2

end Lexer

end LosslessTree
