/-! Machine words: signed 64-bit integers whose arithmetic wraps around. -/
namespace StackAssembly

/-- Every cell of a program, of the operand stack and of the variable store holds one word. -/
abbrev Word := Int64

namespace Word

/-- The greatest word, 2^63 - 1. -/
def greatest : Nat := 9223372036854775807

/-- The word that stands for an integer, if the integer fits. -/
def ofInt? (i : Int) : Option Word :=
  if -greatest - 1 ≤ i ∧ i ≤ greatest then some (Int64.ofInt i) else none

/-- A word read as an address or a slot number. A negative word names none. -/
def address? (w : Word) : Option Nat :=
  if w.toInt < 0 then none else some w.toInt.toNat

/-- Truth values are the words 1 and 0. -/
def ofBool (b : Bool) : Word := if b then 1 else 0

theorem toInt_le_greatest (w : Word) : w.toInt ≤ greatest := Int.le_of_lt_add_one w.toInt_lt

theorem toInt_ofNat {n : Nat} (h : n ≤ greatest) : (Int64.ofNat n).toInt = n :=
  Int64.toInt_ofNat_of_lt (Nat.lt_succ_of_le h)

theorem ofInt?_toInt (w : Word) : ofInt? w.toInt = some w := by
  rw [ofInt?, if_pos ⟨w.le_toInt, w.toInt_le_greatest⟩, Int64.ofInt_toInt]

theorem toInt_of_ofInt? {i : Int} {w : Word} (h : ofInt? i = some w) : w.toInt = i := by
  unfold ofInt? at h
  split at h
  · rename_i hi
    cases h
    exact Int64.toInt_ofInt_of_le hi.1 (Int.lt_add_one_of_le hi.2)
  · cases h

theorem address?_eq_none_iff {w : Word} : address? w = none ↔ w.toInt < 0 := by
  simp [address?]

theorem address?_eq_some_iff {w : Word} {a : Nat} : address? w = some a ↔ w.toInt = a := by
  unfold address?
  split
  · simp only [reduceCtorEq, false_iff]
    omega
  · rw [Option.some_inj]
    omega

/-- No address is above the greatest word, so the next address still has a 64-bit form. -/
theorem address?_le {w : Word} {a : Nat} (h : address? w = some a) : a ≤ greatest := by
  have hu := w.toInt_le_greatest
  unfold address? at h
  split at h
  · cases h
  · cases h
    omega

end Word

end StackAssembly
