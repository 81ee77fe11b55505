import LosslessTree.Text.Basic
import LosslessTree.Unicode.Blank

set_option autoImplicit false

namespace LosslessTree.Text

def trimStart (t : Text) : Text := t.dropWhile Unicode.isBlank

def trimEnd (t : Text) : Text := (trimStart t.reverse).reverse

def trim (t : Text) : Text := t.trimStart.trimEnd

end LosslessTree.Text
