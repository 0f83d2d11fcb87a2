import StackAssembly.Proofs.InstructionEffects

/-! Stack balance. How many words are on the stack follows from the opcodes executed alone, and so does
whether the next one finds the words it wants. -/
namespace StackAssembly

/-- What executed opcodes leave on the stack: constants and loads add a word each, and everything that
takes words takes one more than it puts back. -/
def Opcode.balance (ops : List Opcode) : Int :=
  ops.countP (· ∈ [.iconst, .gload, .load]) -
    ops.countP (· ∈ [.iadd, .isub, .imul, .ilt, .ieq, .print, .jmpt, .jmpf, .gstore, .store])

theorem Opcode.balance_append (before after : List Opcode) :
    balance (before ++ after) = balance before + balance after := by
  simp only [balance, List.countP_append, Int.natCast_add]
  omega

/-- A store finds an address in its slot exactly if the operand is there and not negative; nothing else
looks at its operand before the stack. -/
theorem Instruction.storeSlot?_address_iff {op : Opcode} {operand : Option Word} {i : Instruction}
    (h : op.instruction? operand = some i) :
    (∀ slot, i.storeSlot? = some slot → Word.address? slot ≠ none) ↔
      (op.arity = 1 → ∃ w, operand = some w ∧ (op ∈ [.gstore, .store] → 0 ≤ w.toInt)) := by
  cases op with
  | iadd | isub | imul | ilt | ieq | print | halt =>
    cases h
    simp [storeSlot?, Opcode.arity]
  | iconst | jmp | jmpt | jmpf | gload | load =>
    obtain ⟨w, rfl, rfl⟩ := Option.map_eq_some_iff.mp h
    simp [storeSlot?]
  | gstore | store =>
    obtain ⟨w, rfl, rfl⟩ := Option.map_eq_some_iff.mp h
    simp [storeSlot?, Opcode.arity, Word.address?_eq_none_iff]

namespace Machine

variable {σ : Type} [Sink σ] {p : Program} {m : Machine σ}

/-- The opcodes that so many steps execute, in order. -/
def executed (p : Program) (m : Machine σ) : Nat → List Opcode
  | 0 => []
  | n + 1 => m.executed p n ++ ((m.after p n).nextOpcode? p).toList

/-- An instruction that goes on changes the size of the stack by the balance of its opcode. -/
theorem Executes.size_of_ok {address : Nat} {m' : Machine σ} {i : Instruction}
    (h : Executes address m i (.ok (), m')) :
    (m'.stack.size : Int) = m.stack.size + Opcode.balance [i.opcode] := by
  have hpushed (w : Word) : ((m.push w).stack.size : Int) = m.stack.size + 1 :=
    congrArg Int.ofNat (m.stack.size_push w)
  have hpopped {w : Word} (hstack : m.stack.peek? = some w) :
      (m.pop.stack.size : Int) = m.stack.size + -1 := by
    have hsize := congrArg Stack.size (Stack.peek?_eq_some_iff.mp hstack)
    rw [Stack.size_push] at hsize
    change (m.stack.pop.size : Int) = _
    omega
  cases h with
  | const | gload | load => exact hpushed _
  | @binary op a b hstack =>
    have hbalance : Opcode.balance [(Instruction.binary op).opcode] = -1 := by cases op <;> rfl
    have hsize := congrArg Stack.size (Stack.peek2?_eq_some_iff.mp hstack)
    rw [Stack.size_push, Stack.size_push] at hsize
    change ((m.stack.pop.pop.push (op.apply a b)).size : Int) = _
    rw [hbalance, Stack.size_push]
    omega
  | jump | halt => exact (Int.add_zero _).symm
  | @taken condition _ _ _ hstack | @passed condition _ _ hstack =>
    cases condition <;> exact hpopped hstack
  | stored hi _ hstack => cases i <;> cases hi <;> exact hpopped hstack
  | printed hstack => exact hpopped hstack

/-- A step that succeeds changes the size of the stack by the balance of what it executes. -/
theorem step_size (h : (m.step p).result.isOk = true) :
    ((m.step p).machine.stack.size : Int) =
      m.stack.size + Opcode.balance (m.nextOpcode? p).toList := by
  have hsteps := step_steps p m
  generalize m.step p = s at h hsteps
  cases hsteps with
  | idle hhalted =>
    rw [nextOpcode?, hhalted]
    exact (Int.add_zero _).symm
  | ranOff hrun hfetch =>
    rw [nextOpcode?, hrun, Program.get?_eq_none_iff.mpr (Program.fetch_eq_pastEnd_iff.mp hfetch)]
    exact (Int.add_zero _).symm
  | unknown | truncated | faulted => cases h
  | executed hrun hfetch hexecutes =>
    rw [nextOpcode?_eq_some_iff.mpr ⟨hrun, (Program.get?_of_fetch hfetch).1⟩]
    exact hexecutes.size_of_ok

/-- As long as steps succeed, the stack has grown by the balance of all they have executed. -/
theorem after_size {n : Nat} (h : ∀ k < n, ((m.after p k).step p).result.isOk = true) :
    ((m.after p n).stack.size : Int) = m.stack.size + Opcode.balance (m.executed p n) := by
  induction n with
  | zero => exact (Int.add_zero _).symm
  | succ n ih =>
    rw [after_succ, step_size (h n (Nat.lt_succ_self n)), ih fun k hk => h k (Nat.lt_succ_of_lt hk),
      executed, Opcode.balance_append, Int.add_assoc]

/-- An instruction underflows exactly if it wants more words than there are and, where it is a store, has
found an address in its slot. -/
theorem step_underflow_iff_of_fetch {i : Instruction} (hrun : m.status = .running)
    (hfetch : p.fetch m.ip = .instruction i) :
    (∃ address, (m.step p).result = .error (.stackUnderflow address)) ↔
      m.stack.size < i.opcode.pops ∧ ∀ slot, i.storeSlot? = some slot → Word.address? slot ≠ none := by
  constructor
  · rintro ⟨address, h⟩
    rw [step_of_fetch hrun hfetch] at h
    have hexecutes := execute_executes m.ip { m with ip := m.ip + i.size } i
    have herror := conclude_error h
    generalize { m with ip := m.ip + i.size }.execute m.ip i = done at hexecutes herror
    cases hexecutes with
    | underflow hstack hslot => exact ⟨hstack, hslot⟩
    | _ => cases herror
  · rintro ⟨hstack, hslot⟩
    exact ⟨m.ip, step_of_executes_error hrun hfetch (.underflow hstack hslot)⟩

theorem step_underflow_iff {op : Opcode} (hrun : m.status = .running)
    (hop : p.get? m.ip = some op.word) :
    (∃ address, (m.step p).result = .error (.stackUnderflow address)) ↔
      m.stack.size < op.pops ∧ (op.arity = 1 →
        ∃ w, p.get? (m.ip + 1) = some w ∧ (op ∈ [.gstore, .store] → 0 ≤ w.toInt)) := by
  cases hi : op.instruction? (p.get? (m.ip + 1)) with
  | some i =>
    rw [step_underflow_iff_of_fetch hrun ((Program.fetch_eq_instruction_iff hop).mpr hi),
      Instruction.opcode_of_instruction? hi, Instruction.storeSlot?_address_iff hi]
  | none =>
    obtain ⟨harity, hnone⟩ := Instruction.instruction?_eq_none_iff.mp hi
    have hfetch : p.fetch m.ip = .truncated op := by
      simp only [Program.fetch, hop, Opcode.ofWord?_word, hi]
    rw [step_of_truncated hrun hfetch, hnone]
    simp [fail, harity]

/-- The stack is balanced. Whatever the program and the sink, after any number of steps from the start
that all succeed, the size of the stack is the balance of the opcodes executed. If the machine still runs
and comes to an opcode, the next step underflows exactly if the balance is below what the opcode takes,
its operand is there if it has one and, for a store, is not negative. -/
theorem stack_balance (p : Program) (σ : Type) [Sink σ] (sink : σ) (n : Nat)
    (hok : ∀ k < n, (((start sink).after p k).step p).result.isOk = true) :
    (((start sink).after p n).stack.size : Int) = Opcode.balance ((start sink).executed p n) ∧
    ∀ op : Opcode, ((start sink).after p n).status = .running →
      p.get? ((start sink).after p n).ip = some op.word →
      ((∃ address, (((start sink).after p n).step p).result = .error (.stackUnderflow address)) ↔
        Opcode.balance ((start sink).executed p n) < op.pops ∧ (op.arity = 1 →
          ∃ w, p.get? (((start sink).after p n).ip + 1) = some w ∧
            (op ∈ [.gstore, .store] → 0 ≤ w.toInt))) := by
  have hsize := after_size hok
  rw [show (((start sink).stack.size : Nat) : Int) = 0 from rfl, Int.zero_add] at hsize
  refine ⟨hsize, fun op hrun hop => ?_⟩
  rw [step_underflow_iff hrun hop, ← hsize, Int.ofNat_lt]

/-- A difference decides a jump to a print, which finds nothing more on the stack. -/
theorem stack_balance_spent :
    let p : Program := .ofList [1, 5, 1, 7, 3, 8, 8, 15, 14]
    let m := start ({} : Transcript)
    m.executed p 4 = [.iconst, .iconst, .isub, .jmpt] ∧ (m.after p 4).stack.size = 0 ∧
    ∃ address, ((m.after p 4).step p).result = .error (.stackUnderflow address) := by
  intro p m
  obtain ⟨hsize, hunderflow⟩ := stack_balance p Transcript {} 4 (by decide)
  refine ⟨by decide, Int.ofNat.inj (hsize.trans (by decide)), ?_⟩
  exact (hunderflow .print (by decide) (by decide)).mpr ⟨by decide, fun h => absurd h (by decide)⟩

end Machine

end StackAssembly
