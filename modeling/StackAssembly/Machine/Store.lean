import StackAssembly.Word

/-! The variable store: slots that hold 0 until they are written. It grows with zeros up to the
highest slot written and never shrinks. -/
namespace StackAssembly

structure Store where
  cells : Array Word
  deriving DecidableEq, Repr

namespace Store

def empty : Store := ⟨#[]⟩

/-- No store can grow to hold a slot of 2^56 or above. -/
def inReach (slot : Nat) : Bool := slot < 72057594037927936

def size (s : Store) : Nat := s.cells.size

def toList (s : Store) : List Word := s.cells.toList

/-- Slots that were never written read as 0. -/
def read (s : Store) (slot : Nat) : Word := s.cells.getD slot 0

/-- Fills up with zeros until the slot exists. -/
def growTo (s : Store) (slot : Nat) : Store :=
  ⟨s.cells ++ Array.replicate (slot + 1 - s.size) 0⟩

/-- The store after a write to a slot in reach. -/
def write (s : Store) (slot : Nat) (w : Word) : Store :=
  ⟨(s.growTo slot).cells.setIfInBounds slot w⟩

theorem size_growTo (s : Store) (slot : Nat) : (s.growTo slot).size = max s.size (slot + 1) := by
  simp only [growTo, size, Array.size_append, Array.size_replicate]
  omega

/-- A write always lands inside the grown store. -/
theorem lt_size_growTo (s : Store) (slot : Nat) : slot < (s.growTo slot).size := by
  rw [size_growTo]
  omega

theorem read_growTo (s : Store) (slot k : Nat) : (s.growTo slot).read k = s.read k := by
  simp only [read, growTo, Array.getD_eq_getD_getElem?, Array.getElem?_append]
  split
  · rfl
  · rename_i h
    have hn : s.cells[k]? = none := Array.getElem?_eq_none (by omega)
    rw [hn, Array.getElem?_replicate]
    split <;> rfl

theorem size_write (s : Store) (slot : Nat) (w : Word) :
    (s.write slot w).size = max s.size (slot + 1) := by
  simpa [write, size] using size_growTo s slot

theorem read_write (s : Store) (slot : Nat) (w : Word) (k : Nat) :
    (s.write slot w).read k = if k = slot then w else s.read k := by
  have hlt := lt_size_growTo s slot
  have hg := read_growTo s slot k
  simp only [write, read, size, Array.getD_eq_getD_getElem?, Array.getElem?_setIfInBounds] at *
  by_cases hk : k = slot
  · subst hk
    simp [hlt]
  · simp only [if_neg hk, if_neg (Ne.symm hk)]
    exact hg

end Store

end StackAssembly
