import StackAssembly.Proofs.InstructionEffects

/-! The variable store as a memory without end. Whatever stores a run has made, each slot holds the
value stored there last, and 0 if there was none. -/
namespace StackAssembly

/-- The value of the most recent store to a slot, in a history that begins with the latest store. -/
def lastStored (history : List (Nat × Word)) (slot : Nat) : Word := (history.lookup slot).getD 0

namespace Store

/-- The store after a run with this history: as large as the highest slot needs, with the last value
in every slot. -/
structure Recalls (history : List (Nat × Word)) (s : Store) : Prop where
  empty : history = [] → s.size = 0
  covers : ∀ write ∈ history, write.1 < s.size
  tight : history ≠ [] → ∃ write ∈ history, s.size = 1 + write.1
  read : ∀ slot, s.read slot = lastStored history slot

theorem Recalls.write {history : List (Nat × Word)} {s : Store} (h : Recalls history s) (slot : Nat)
    (value : Word) : Recalls ((slot, value) :: history) (s.write slot value) := by
  constructor
  · simp
  · intro write hwrite
    rw [size_write]
    rcases List.mem_cons.mp hwrite with rfl | hwrite
    · omega
    · have := h.covers write hwrite
      omega
  · intro _
    rw [size_write]
    -- Either the new slot is the highest one, or the one that was still is.
    by_cases hhigher : s.size ≤ slot + 1
    · exact ⟨(slot, value), List.mem_cons_self, by simp only; omega⟩
    · have hne : history ≠ [] := fun hnil => hhigher (by rw [h.empty hnil]; omega)
      obtain ⟨write, hwrite, hsize⟩ := h.tight hne
      exact ⟨write, List.mem_cons_of_mem _ hwrite, by omega⟩
  · intro k
    rw [read_write, h.read, lastStored, lastStored, List.lookup_cons]
    by_cases hk : k = slot
    · rw [if_pos hk, beq_iff_eq.mpr hk]
      rfl
    · rw [if_neg hk, beq_eq_false_iff_ne.mpr hk]

end Store

namespace Machine

variable {σ : Type} [Sink σ]

end Machine

end StackAssembly
