import LosslessTree.Check
import LosslessTree.Outline
import LosslessTree.Text.Position

set_option autoImplicit false

namespace LosslessTree

structure SourceFile where
  path : String
  text : Text
  deriving DecidableEq, Repr

namespace SourceFile

def parse (f : SourceFile) : Parse := LosslessTree.parse f.text

def check (f : SourceFile) : List Diagnostic := f.parse.check

def outline (f : SourceFile) : List Outline.Entry := f.parse.tree.outline

def position (f : SourceFile) (offset : Nat) : Except PositionError Position :=
  match f.text.position? offset with
  | some p => .ok p
  | none => .error .invalidOffset

end SourceFile

structure Database where
  files : List SourceFile
  deriving DecidableEq, Repr

namespace Database

def empty : Database := ⟨[]⟩

def add (d : Database) (f : SourceFile) : Database := ⟨d.files ++ [f]⟩

def file? (d : Database) (n : Nat) : Option SourceFile := d.files[n]?

def setText (d : Database) (n : Nat) (text : Text) : Database :=
  ⟨d.files.modify n fun f => { f with text := text }⟩

def setPath (d : Database) (n : Nat) (path : String) : Database :=
  ⟨d.files.modify n fun f => { f with path := path }⟩

theorem file?_add (d : Database) (f : SourceFile) : (d.add f).file? d.files.length = some f := by
  simp [add, file?]

theorem file?_setText (d : Database) (n m : Nat) (text : Text) :
    (d.setText n text).file? m =
      (d.file? m).map fun f => if n = m then { f with text := text } else f := by
  simp only [setText, file?, List.getElem?_modify]
  by_cases h : n = m <;> simp [h]

end Database

-- Puts a new parse in the place of an old one, part by part where they differ, and says whether
-- anything did. Trees differ when their texts do.
def Parse.update (old new : Parse) : Parse × Bool :=
  let sameTree := old.tree.text == new.tree.text
  let sameErrors := old.errors == new.errors
  (⟨if sameTree then old.tree else new.tree, if sameErrors then old.errors else new.errors⟩,
    !(sameTree && sameErrors))

end LosslessTree
