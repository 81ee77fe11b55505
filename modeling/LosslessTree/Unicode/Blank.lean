import LosslessTree.Unicode.Ranges

set_option autoImplicit false

namespace LosslessTree.Unicode

-- The White_Space property.
def blankRanges : Ranges :=
  [(0x9, 0xD), (0x20, 0x20), (0x85, 0x85), (0xA0, 0xA0), (0x1680, 0x1680), (0x2000, 0x200A),
   (0x2028, 0x2029), (0x202F, 0x202F), (0x205F, 0x205F), (0x3000, 0x3000)]

theorem blankRanges_rising : blankRanges.rising 0 = true := by decide

def isBlank (c : Char) : Bool := blankRanges.holds c.toNat

end LosslessTree.Unicode
