import StackAssembly.Word

/-! The operand stack. It is read from the top by `pop?` and from the bottom by `get?`. -/
namespace StackAssembly

/-- The words from the bottom up. -/
structure Stack where
  words : Array Word
  deriving DecidableEq, Repr

namespace Stack

def empty : Stack := ⟨#[]⟩

def ofList (words : List Word) : Stack := ⟨words.toArray⟩

/-- Bottom first. -/
def toList (s : Stack) : List Word := s.words.toList

def size (s : Stack) : Nat := s.words.size

def isEmpty (s : Stack) : Bool := s.words.isEmpty

def push (s : Stack) (w : Word) : Stack := ⟨s.words.push w⟩

/-- The top word. -/
def peek? (s : Stack) : Option Word := s.words.back?

/-- The top word and the word beneath it; none if there is only one. -/
def peek2? (s : Stack) : Option (Word × Word) :=
  if s.size < 2 then none
  else do
    let top ← s.peek?
    let beneath ← s.words[s.size - 2]?
    return (top, beneath)

/-- The word at a distance from the bottom. -/
def get? (s : Stack) (i : Nat) : Option Word := s.words[i]?

/-- The stack without its top word; an empty stack stays empty. -/
def pop (s : Stack) : Stack := ⟨s.words.pop⟩

/-- The top word and the stack without it. -/
def pop? (s : Stack) : Option (Word × Stack) := s.peek?.map fun top => (top, s.pop)

/-- The top word, the word beneath it and the stack without both. -/
def pop2? (s : Stack) : Option (Word × Word × Stack) :=
  s.peek2?.map fun (top, beneath) => (top, beneath, s.pop.pop)

/-- What is said of a stack that holds too few words. -/
def underflow : String := "stack underflow"

@[simp] theorem toList_ofList (words : List Word) : (ofList words).toList = words := rfl

@[simp] theorem toList_empty : empty.toList = [] := rfl

@[simp] theorem toList_push (s : Stack) (w : Word) : (s.push w).toList = s.toList ++ [w] := by
  simp [push, toList]

@[simp] theorem toList_pop (s : Stack) : s.pop.toList = s.toList.dropLast := by
  simp [pop, toList]

@[simp] theorem size_push (s : Stack) (w : Word) : (s.push w).size = s.size + 1 := by
  simp [push, size]

@[simp] theorem size_pop (s : Stack) : s.pop.size = s.size - 1 := by
  simp [pop, size]

theorem size_eq_length (s : Stack) : s.size = s.toList.length := by
  simp [size, toList]

@[simp] theorem pop_push (s : Stack) (w : Word) : (s.push w).pop = s := by
  simp [pop, push]

@[simp] theorem peek?_push (s : Stack) (w : Word) : (s.push w).peek? = some w := by
  simp [peek?, push]

theorem peek?_eq_none_iff {s : Stack} : s.peek? = none ↔ s.size = 0 := by
  simp [peek?, size]

/-- A stack with a top word is that word pushed on what is left. -/
theorem peek?_eq_some_iff {s : Stack} {w : Word} : s.peek? = some w ↔ s = s.pop.push w := by
  refine ⟨fun h => ?_, fun h => by rw [h, peek?_push]⟩
  obtain ⟨words⟩ := s
  obtain ⟨below, rfl⟩ := Array.back?_eq_some_iff.mp h
  simp [pop, push]

theorem get?_eq_none_iff {s : Stack} {i : Nat} : s.get? i = none ↔ s.size ≤ i := by
  simp [get?, size]

@[simp] theorem peek2?_push_push (s : Stack) (a b : Word) :
    ((s.push b).push a).peek2? = some (a, b) := by
  have hbeneath : ((s.push b).push a).words[((s.push b).push a).size - 2]? = some b := by
    rw [size_push, size_push]
    change ((s.words.push b).push a)[s.words.size]? = some b
    rw [Array.getElem?_push, if_neg (by simp), Array.getElem?_push, if_pos rfl]
  rw [peek2?, if_neg (by simp), peek?_push, hbeneath]
  rfl

/-- With two words on the stack, the second one is found as well. -/
theorem peek2?_eq_none_iff {s : Stack} : s.peek2? = none ↔ s.size < 2 := by
  refine ⟨fun h => ?_, fun h => by rw [peek2?, if_pos h]⟩
  by_cases hs : s.size < 2
  · exact hs
  · have hb : s.size - 2 < s.words.size := by unfold size at *; omega
    cases ht : s.peek? with
    | none => rw [peek?_eq_none_iff] at ht; omega
    | some top => simp [peek2?, hs, ht, hb] at h

theorem peek2?_eq_some_iff {s : Stack} {a b : Word} :
    s.peek2? = some (a, b) ↔ s = (s.pop.pop.push b).push a := by
  refine ⟨fun h => ?_, fun h => by rw [h, peek2?_push_push]⟩
  have hs : ¬ s.size < 2 := fun hlt => by rw [peek2?_eq_none_iff.mpr hlt] at h; cases h
  obtain ⟨c, hc⟩ := Option.ne_none_iff_exists'.mp (mt peek?_eq_none_iff.mp (by omega : s.size ≠ 0))
  obtain ⟨d, hd⟩ := Option.ne_none_iff_exists'.mp
    (mt peek?_eq_none_iff.mp (by rw [size_pop]; omega : s.pop.size ≠ 0))
  rw [peek?_eq_some_iff] at hc hd
  rw [hc, hd, peek2?_push_push] at h
  cases h
  rw [← hd, ← hc]

end Stack

end StackAssembly
