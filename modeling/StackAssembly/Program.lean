import StackAssembly.Instruction

/-! A program is a sequence of words. What a word means depends on the address execution reaches
it at: the same word may be an opcode or an operand. -/
namespace StackAssembly

structure Program where
  words : Array Word
  deriving DecidableEq, Repr

/-- What stands at an address when execution reaches it. -/
inductive Fetched where
  | pastEnd
  | unknown (word : Word)
  /-- An opcode whose operand would lie past the end of the program. -/
  | truncated (op : Opcode)
  | instruction (i : Instruction)
  deriving DecidableEq, Repr

namespace Program

def empty : Program := ⟨#[]⟩

def ofList (words : List Word) : Program := ⟨words.toArray⟩

def toList (p : Program) : List Word := p.words.toList

def size (p : Program) : Nat := p.words.size

def isEmpty (p : Program) : Bool := p.words.isEmpty

def push (p : Program) (w : Word) : Program := ⟨p.words.push w⟩

def get? (p : Program) (address : Nat) : Option Word := p.words[address]?

def fetch (p : Program) (address : Nat) : Fetched :=
  match p.get? address with
  | none => .pastEnd
  | some word =>
    match Opcode.ofWord? word with
    | none => .unknown word
    | some op =>
      match op.instruction? (p.get? (address + 1)) with
      | none => .truncated op
      | some i => .instruction i

@[simp] theorem toList_ofList (words : List Word) : (ofList words).toList = words := rfl

@[simp] theorem ofList_toList (p : Program) : ofList p.toList = p := rfl

@[simp] theorem toList_push (p : Program) (w : Word) : (p.push w).toList = p.toList ++ [w] := by
  simp [push, toList]

@[simp] theorem size_push (p : Program) (w : Word) : (p.push w).size = p.size + 1 := by
  simp [push, size]

theorem get?_eq_toList (p : Program) (address : Nat) : p.get? address = p.toList[address]? := by
  simp [get?, toList]

theorem get?_eq_none_iff {p : Program} {address : Nat} :
    p.get? address = none ↔ p.size ≤ address := by
  simp [get?, size]

theorem lt_size_of_get? {p : Program} {address : Nat} {word : Word} (h : p.get? address = some word) :
    address < p.size := by
  rw [← Nat.not_le, ← get?_eq_none_iff, h]
  exact Option.some_ne_none word

theorem fetch_eq_pastEnd_iff {p : Program} {address : Nat} :
    p.fetch address = .pastEnd ↔ p.size ≤ address := by
  rw [← get?_eq_none_iff, fetch]
  split
  · simp [*]
  · split
    · simp [*]
    · split <;> simp [*]

theorem fetch_eq_instruction_iff {p : Program} {address : Nat} {op : Opcode} {i : Instruction}
    (h : p.get? address = some op.word) :
    p.fetch address = .instruction i ↔ op.instruction? (p.get? (address + 1)) = some i := by
  simp only [fetch, h, Opcode.ofWord?_word]
  cases op.instruction? (p.get? (address + 1)) <;> simp

theorem fetch_eq_unknown_iff {p : Program} {address : Nat} {word : Word} :
    p.fetch address = .unknown word ↔ p.get? address = some word ∧ Opcode.ofWord? word = none := by
  constructor
  · intro h
    unfold fetch at h
    split at h
    · cases h
    rename_i found hfound
    split at h
    · rename_i hop
      cases h
      exact ⟨hfound, hop⟩
    · split at h <;> cases h
  · rintro ⟨hword, hop⟩
    simp only [fetch, hword, hop]

/-- Only the operand of the very last word can be missing. -/
theorem fetch_eq_truncated_iff {p : Program} {address : Nat} {op : Opcode} :
    p.fetch address = .truncated op ↔
      p.get? address = some op.word ∧ op.arity = 1 ∧ p.size = address + 1 := by
  constructor
  · intro h
    unfold fetch at h
    split at h
    · cases h
    rename_i word hword
    split at h
    · cases h
    rename_i found hop
    split at h
    · rename_i hnone
      cases h
      obtain ⟨harity, hend⟩ := Instruction.instruction?_eq_none_iff.mp hnone
      have hlast := lt_size_of_get? hword
      refine ⟨by rw [Opcode.ofWord?_eq_some_iff.mp hop, hword], harity, ?_⟩
      rw [get?_eq_none_iff] at hend
      omega
    · cases h
  · rintro ⟨hword, harity, hsize⟩
    have hnone := Instruction.instruction?_eq_none_iff.mpr
      ⟨harity, get?_eq_none_iff.mpr (Nat.le_of_eq hsize)⟩
    simp only [fetch, hword, Opcode.ofWord?_word, hnone]

/-- An instruction is made of the words at its address and behind it. -/
theorem get?_of_fetch {p : Program} {address : Nat} {i : Instruction}
    (h : p.fetch address = .instruction i) :
    p.get? address = some i.opcode.word ∧
      ∀ w, i.operand? = some w → p.get? (address + 1) = some w := by
  unfold fetch at h
  split at h
  · cases h
  rename_i word hword
  split at h
  · cases h
  rename_i op hop
  split at h
  · cases h
  rename_i found hfound
  cases h
  refine ⟨by rw [Instruction.opcode_of_instruction? hfound, Opcode.ofWord?_eq_some_iff.mp hop, hword], ?_⟩
  intro w hw
  rw [Instruction.operand?_of_instruction? hfound] at hw
  split at hw
  · cases hw
  · exact hw

end Program

end StackAssembly
