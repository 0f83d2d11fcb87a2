/-! The Unicode property White_Space. -/
namespace StackAssembly.Text

/-- Ranges of code points with the property, both ends included. -/
def blankRanges : List (Nat × Nat) :=
  [(0x9, 0xD), (0x20, 0x20), (0x85, 0x85), (0xA0, 0xA0), (0x1680, 0x1680), (0x2000, 0x200A),
   (0x2028, 0x2029), (0x202F, 0x202F), (0x205F, 0x205F), (0x3000, 0x3000)]

def isBlank (c : Char) : Bool :=
  blankRanges.any fun (first, last) => first ≤ c.toNat && c.toNat ≤ last

/-- The visible characters of ASCII. -/
theorem isBlank_eq_false {c : Char} (hfirst : 0x21 ≤ c.toNat) (hlast : c.toNat ≤ 0x7E) :
    isBlank c = false := by
  simp [isBlank, blankRanges]
  omega

end StackAssembly.Text
