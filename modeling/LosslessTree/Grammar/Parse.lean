import LosslessTree.Grammar.Item
import LosslessTree.Grammar.Run
import LosslessTree.Token.Stream
import LosslessTree.Tree.Dump

set_option autoImplicit false

namespace LosslessTree

def Production.rule : Production → Rule (Option Kind)
  | item => .item
  | pattern => .pattern
  | type => .type
  | unary => .unary
  | expression level => .expression level

namespace TokenStream

def run {α : Type} (s : TokenStream) (rule : Rule α) : Step α :=
  rule.run s.eof (.upTo Production.rule s.eof (s.tokens.length + 1)) s.tokens

def forest (s : TokenStream) : Forest := (s.run .file).parts ++ .leaf s.eof.leaf .nil

end TokenStream

structure Parse where
  tree : SyntaxTree
  errors : List Diagnostic
  deriving DecidableEq

def parse (text : Text) : Parse :=
  let stream := TokenStream.ofText text
  ⟨.ofRoot text .sourceFile stream.forest, (stream.run .file).reports⟩

namespace Parse

def hasErrors (p : Parse) : Bool := !p.errors.isEmpty

def dump (p : Parse) : String :=
  p.tree.dump 0 ++ "Errors:\n"
    ++ String.join (p.errors.map fun e => "  " ++ e.span.render ++ ": " ++ e.message ++ "\n")

def isLossless (p : Parse) (text : Text) : Bool := p.tree.nodeText 0 == text

end Parse

end LosslessTree
