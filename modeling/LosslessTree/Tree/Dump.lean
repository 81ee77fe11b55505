import LosslessTree.Text.Quoted
import LosslessTree.Kind.Name
import LosslessTree.Tree.Walk

set_option autoImplicit false

namespace LosslessTree.SyntaxTree

variable (t : SyntaxTree)

def showNode (n : Nat) : String := (t.kind n).rawName ++ "@" ++ (t.span n).render

def showToken (i : Nat) : String :=
  (t.tokenKind i).rawName ++ "@" ++ (t.tokenSpan i).render ++ " "
    ++ String.ofList (t.tokenText i).quoted

def describe : String :=
  "SyntaxTree \x7b text_len: " ++ toString t.text.byteLength ++ ", nodes: "
    ++ toString t.nodes.size ++ ", .. \x7d"

structure DumpLine where
  depth : Nat
  content : String
  deriving DecidableEq, Repr

def DumpLine.render (l : DumpLine) : String :=
  "".pushn ' ' (2 * l.depth) ++ l.content ++ "\n"

def withTrivia (i : Nat) : List Nat := t.leadingTrivia i ++ i :: t.trailingTrivia i

def dumpLines (depth : Nat) : List WalkEvent → List DumpLine
  | [] => []
  | .enter n :: events => ⟨depth, t.showNode n⟩ :: dumpLines (depth + 1) events
  | .leave _ :: events => dumpLines (depth - 1) events
  | .token i :: events =>
      (t.withTrivia i).map (fun j => ⟨depth, t.showToken j⟩) ++ dumpLines depth events

def dump (n : Nat) : String :=
  String.join ((t.dumpLines 0 (t.walk .nodesAndTokens n)).map DumpLine.render)

end LosslessTree.SyntaxTree
