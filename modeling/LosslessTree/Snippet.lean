import LosslessTree.Grammar.Parse
import LosslessTree.Text.Trim
import LosslessTree.Tree.Address
import LosslessTree.View.Basic

set_option autoImplicit false

namespace LosslessTree

structure Snippet where
  file : Parse
  address : Address
  deriving DecidableEq

namespace Snippet

def kind (s : Snippet) : Kind := s.address.kind

def node (s : Snippet) : Except Address.Unresolved Nat := s.file.tree.resolve 0 s.address

structure Template where
  lead : Text
  tail : Text
  deriving DecidableEq, Repr

def Template.fill (template : Template) (snippet : Text) : Text :=
  template.lead ++ snippet ++ template.tail

-- A node of the kinds that starts behind the template's lead and has just the snippet's text.
def isWhole (t : SyntaxTree) (template : Template) (snippet : Text) (kinds : KindSet)
    (n : Nat) : Bool :=
  kinds.contains (t.kind n) && (t.trimmedSpan n).start == template.lead.byteLength
    && t.trimmedText n == snippet

def read (template : Template) (snippet : Text) (kinds : KindSet) : Option Snippet :=
  let snippet := snippet.trim
  let p := parse (template.fill snippet)
  if p.hasErrors then none
  else
    ((p.tree.descendants 0).find? (isWhole p.tree template snippet kinds)).map fun n =>
      ⟨p, p.tree.address n⟩

def inInitializer : Template := ⟨"fn f() \x7b let _ = ".toList, "; \x7d".toList⟩

def inBlock : Template := ⟨"fn f() \x7b ".toList, " \x7d".toList⟩

def inLetPattern : Template := ⟨"fn f() \x7b let ".toList, " = x; \x7d".toList⟩

def beforeItem : Template := ⟨[], "\nfn f() \x7b\x7d".toList⟩

def alone : Template := ⟨[], []⟩

def expression (text : Text) : Option Snippet :=
  read inInitializer text Category.expr.members

def statement (text : Text) : Option Snippet := read inBlock text Category.stmt.members

def letStatement (pattern : Text) (initializer : Option Text) : Option Snippet :=
  match initializer with
  | some value =>
      statement ("let ".toList ++ pattern ++ " = ".toList ++ value ++ ";".toList)
  | none => statement ("let ".toList ++ pattern ++ ";".toList)

def pattern (text : Text) : Option Snippet := read inLetPattern text Category.pat.members

def blockExpression (statements : Text) : Option Snippet :=
  (expression ("\x7b ".toList ++ statements ++ " \x7d".toList)).filter fun s =>
    s.kind == .blockExpr

def item (text : Text) (kind : Kind) : Option Snippet := read alone text (.ofList [kind])

def fnItem (text : Text) : Option Snippet := item text .fnItem

def useItem (path : Text) : Option Snippet :=
  item ("use ".toList ++ path ++ ";".toList) .useItem

def modItem (name : Text) (items : Option Text) : Option Snippet :=
  match items with
  | some items =>
      item ("mod ".toList ++ name ++ " \x7b ".toList ++ items ++ " \x7d".toList) .modItem
  | none => item ("mod ".toList ++ name ++ ";".toList) .modItem

def outerAttribute (path : Text) : Option Snippet :=
  read beforeItem ("#[".toList ++ path ++ "]".toList) (.ofList [.attr])

end Snippet

end LosslessTree
