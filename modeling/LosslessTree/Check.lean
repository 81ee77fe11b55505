import LosslessTree.Grammar.Parse
import LosslessTree.View.Item

set_option autoImplicit false

namespace LosslessTree

namespace SyntaxTree

variable (t : SyntaxTree)

def duplicateName (name : View.Name t) : Diagnostic where
  message := "the name `" ++ String.ofList name.text ++ "` is defined multiple times"
  span := t.trimmedSpan name.node

def repeatedNames (seen : List Text) : List (View.Name t) → List (View.Name t)
  | [] => []
  | name :: names =>
      if seen.contains name.text then name :: repeatedNames seen names
      else repeatedNames (name.text :: seen) names

def declaredNames (scope : Nat) : List (View.Name t) :=
  (t.childrenAs (.category .item) scope).filterMap View.Item.name?

def duplicatesIn (scope : Nat) : List Diagnostic :=
  (t.repeatedNames [] (t.declaredNames scope)).map t.duplicateName

def moduleScopes : List Nat :=
  (t.descendantsAs (.production .modItem) 0).filterMap
    fun (m : View.ModItem t) => m.itemList?.map Typed.node

end SyntaxTree

/-- All diagnostics of a file by the start of their span. At equal starts those of the parse come
first, then those of the outermost scope. -/
def Parse.check (p : Parse) : List Diagnostic :=
  (p.errors ++ (0 :: p.tree.moduleScopes).flatMap p.tree.duplicatesIn).mergeSort
    fun a b => a.span.start ≤ b.span.start

end LosslessTree
