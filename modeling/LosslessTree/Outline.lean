import LosslessTree.Grammar.Parse
import LosslessTree.View.Item

set_option autoImplicit false

namespace LosslessTree

namespace Outline

structure Entry where
  depth : Nat
  keyword : String
  name : Text
  span : Span
  deriving DecidableEq, Repr

variable (t : SyntaxTree)

def missing : Text := ['?']

def nameText : Option (View.Name t) → Text
  | some name => name.text
  | none => missing

def textOr {v : View} : Option (Typed t v) → Text
  | some x => t.trimmedText x.node
  | none => missing

def signature (f : View.FnItem t) : Text :=
  nameText t f.name?
    ++ (f.paramList?.map fun x => t.trimmedText x.node).getD []
    ++ (f.retType?.map fun x => ' ' :: t.trimmedText x.node).getD []

def entry {v : View} (depth : Nat) (keyword : String) (name : Text) (x : Typed t v) : Entry :=
  ⟨depth, keyword, name, t.trimmedSpan x.node⟩

def fieldEntry (depth : Nat) (f : View.Field t) : Entry :=
  entry t depth "field" (nameText t f.name? ++ [':', ' '] ++ textOr t f.type?) f

def fields (s : View.StructItem t) : List (View.Field t) :=
  match s.fieldList? with
  | some list => list.fields
  | none => []

def items (m : View.ModItem t) : List (View.Item t) :=
  match m.itemList? with
  | some list => list.items
  | none => []

def itemEntries (inner : Nat → View.Item t → List Entry) (depth : Nat) (x : View.Item t) :
    List Entry :=
  match x.form with
  | .fn f => [entry t depth "fn" (signature t f) x]
  | .struct s =>
      entry t depth "struct" (nameText t s.name?) x
        :: (fields t s).map (fieldEntry t (depth + 1))
  | .const c => [entry t depth "const" (nameText t c.name?) x]
  | .use u => [entry t depth "use" (textOr t u.path?) x]
  | .mod m => entry t depth "mod" (nameText t m.name?) x :: (items t m).flatMap (inner (depth + 1))

def levels : Nat → Nat → View.Item t → List Entry
  | 0 => fun _ _ => []
  | n + 1 => itemEntries t (levels n)

end Outline

-- The outline of a file, which has fewer levels than nodes.
def SyntaxTree.outline (t : SyntaxTree) : List Outline.Entry :=
  (t.childrenAs (.category .item) 0).flatMap (Outline.levels t t.nodes.size 0)

end LosslessTree
