import StackAssembly.Proofs.InstructionEffects

/-! The machine with addresses of 64 bits. Here every sum, difference, write and pop that could go wrong is
checked on its own, and nothing is taken for granted by the operations after it. No check ever fails: on
every program that fits into memory this machine and the one with unbounded addresses are the same. -/
namespace StackAssembly

/-- What a check can find. -/
inductive Mishap where
  /-- `ip` was to be moved on without a word of the program under it. -/
  | pastEnd (ip : Nat)
  | overflow (address : Nat)
  | underflow (minuend subtrahend : Nat)
  | outOfBounds (slot size : Nat)
  | emptyStack
  deriving DecidableEq, Repr

/-- A store that has grown slot by slot, as far as stores can. -/
def Store.Grown (s : Store) : Prop := ∀ slot < s.size, inReach slot = true

theorem Store.Grown.write {s : Store} (h : s.Grown) {slot : Nat} (hslot : inReach slot = true) (w : Word) :
    (s.write slot w).Grown := by
  intro other hother
  rw [size_write] at hother
  rcases Nat.lt_or_ge other s.size with hheld | hbehind
  · exact h other hheld
  · have hle : other ≤ slot := by omega
    exact decide_eq_true (Nat.lt_of_le_of_lt hle (of_decide_eq_true hslot))

namespace Checked

/-- How many addresses there are, 2^64. -/
def addresses : Nat := 18446744073709551616

def successor (a : Nat) : Except Mishap Nat :=
  if a + 1 < addresses then .ok (a + 1) else .error (.overflow a)

def difference (a b : Nat) : Except Mishap Nat :=
  if b ≤ a then .ok (a - b) else .error (.underflow a b)

def pop (s : Stack) : Except Mishap (Word × Stack) :=
  match s.pop? with
  | none => .error .emptyStack
  | some popped => .ok popped

/-- The top word, the word beneath it and the rest; none at all if there are not two. Behind the look at
the size both words are popped without another. -/
def pop2 (s : Stack) : Except Mishap (Option (Word × Word × Stack)) :=
  if s.size < 2 then .ok none
  else do
    let (top, s) ← pop s
    let (beneath, s) ← pop s
    return some (top, beneath, s)

def put (s : Store) (slot : Nat) (w : Word) : Except Mishap Store :=
  if slot < s.size then .ok ⟨s.cells.setIfInBounds slot w⟩ else .error (.outOfBounds slot s.size)

/-- The store that holds the slot, grown only if it does not hold it yet; none if it cannot grow so far. -/
def grow (s : Store) (slot : Nat) : Except Mishap (Option Store) :=
  if slot < s.size then .ok (some s)
  else do
    let size ← successor slot
    let more ← difference size s.size
    return if Store.inReach slot then some ⟨s.cells ++ Array.replicate more 0⟩ else none

variable {σ : Type}

def storeTop (address : Nat) (m : Machine σ) (slot : Word) :
    Except Mishap (Except Fault Unit × Machine σ) :=
  match Word.address? slot with
  | none => .ok (.error (.addressOutOfRange address slot), m)
  | some k =>
    match m.stack.pop? with
    | none => .ok (.error (.stackUnderflow address), m)
    | some (value, stack) => do
      match ← grow m.store k with
      | none => return (.error (.addressOutOfRange address slot), { m with stack })
      | some store => return (.ok (), { m with stack, store := ← put store k value })

/-- Moves `ip` past a word of the program. -/
def advance (p : Program) (m : Machine σ) : Except Mishap (Machine σ) :=
  if m.ip < p.size then do return { m with ip := ← successor m.ip } else .error (.pastEnd m.ip)

/-- Behind the opcode there is one more word to move past, or none. -/
def advanceOperand (p : Program) (m : Machine σ) (i : Instruction) : Except Mishap (Machine σ) :=
  if i.operand?.isSome then advance p m else .ok m

variable [Sink σ]

/-- Only operations on two words and stores compute anything that has to be checked. -/
def execute (address : Nat) (m : Machine σ) :
    Instruction → Except Mishap (Except Fault Unit × Machine σ)
  | .binary op => do
    match ← pop2 m.stack with
    | none => return (.error (.stackUnderflow address), m)
    | some (a, b, stack) => return (.ok (), { m with stack := stack.push (op.apply a b) })
  | .gstore slot | .store slot => storeTop address m slot
  | i => .ok (m.execute address i)

/-- Carries out the opcode that `ip` is at. It moves `ip` word by word: past the opcode, and then past the
operand if there is one. -/
def perform (p : Program) (m : Machine σ) (op : Opcode) : Except Mishap (Step σ) := do
  let logged := .executing m.ip op m.stack.size
  let opened ← advance p m
  match op.instruction? (p.get? opened.ip) with
  | none => return opened.fail (.missingOperand m.ip) [logged]
  | some i =>
    let ready ← advanceOperand p opened i
    return Machine.conclude m.ip i logged (← execute m.ip ready i)

def step (p : Program) (m : Machine σ) : Except Mishap (Step σ) :=
  match m.status with
  | .halted => .ok ⟨m, .ok .halted, []⟩
  | .running =>
    match p.get? m.ip with
    | none => .ok ⟨{ m with status := .halted }, .ok .halted, [.ranOffEnd m.ip]⟩
    | some word =>
      match Opcode.ofWord? word with
      | none => .ok (m.fail (.unknownOpcode m.ip word) [])
      | some op => perform p m op

def after (p : Program) : Nat → Machine σ → Except Mishap (Machine σ)
  | 0, m => .ok m
  | n + 1, m => do after p n (← step p m).machine

theorem successor_eq {a : Nat} (h : a ≤ Word.greatest) : successor a = .ok (a + 1) := by
  have hlt : a + 1 < addresses := Nat.lt_of_le_of_lt (Nat.succ_le_succ h) (by decide)
  rw [successor, if_pos hlt]

theorem difference_eq {a b : Nat} (h : b ≤ a) : difference a b = .ok (a - b) := by
  rw [difference, if_pos h]

omit [Sink σ] in
theorem advance_eq {p : Program} (hp : p.size ≤ Word.greatest) {m : Machine σ} (hip : m.ip < p.size) :
    advance p m = .ok { m with ip := m.ip + 1 } := by
  rw [advance, if_pos hip, successor_eq (Nat.le_trans (Nat.le_of_lt hip) hp)]
  rfl

theorem pop_push (s : Stack) (w : Word) : pop (s.push w) = .ok (w, s) := by
  simp [pop, Stack.pop?]

/-- A stack of two words can be popped twice. -/
theorem pop2_eq (s : Stack) : pop2 s = .ok s.pop2? := by
  unfold pop2
  split
  · rename_i hsize
    rw [Stack.pop2?, Stack.peek2?_eq_none_iff.mpr hsize]
    rfl
  · rename_i hsize
    obtain ⟨⟨a, b⟩, htop⟩ := Option.ne_none_iff_exists'.mp (mt Stack.peek2?_eq_none_iff.mp hsize)
    rw [Stack.pop2?, htop, Option.map_some]
    rw [Stack.peek2?_eq_some_iff] at htop
    generalize s.pop.pop = rest at htop
    subst htop
    rw [pop_push]
    simp only [bind, Except.bind, pop_push]
    rfl

theorem put_eq {s : Store} {slot : Nat} (h : slot < s.size) (w : Word) :
    put s slot w = .ok ⟨s.cells.setIfInBounds slot w⟩ := by
  rw [put, if_pos h]

/-- A store that holds the slot need not grow, and one that does not has fewer cells than it asks for. -/
theorem grow_eq {s : Store} (hs : s.Grown) {slot : Nat} (hslot : slot ≤ Word.greatest) :
    grow s slot = .ok (if Store.inReach slot then some (s.growTo slot) else none) := by
  unfold grow
  split
  · rename_i hheld
    have hgrown : s.growTo slot = s := by
      rw [Store.growTo, Nat.sub_eq_zero_of_le hheld, Array.replicate_zero, Array.append_empty]
    rw [if_pos (hs slot hheld), hgrown]
  · rename_i hbehind
    rw [successor_eq hslot]
    simp only [bind, Except.bind, difference_eq (Nat.le_succ_of_le (Nat.le_of_not_lt hbehind))]
    rfl

omit [Sink σ] in
theorem storeTop_eq {m : Machine σ} (hm : m.store.Grown) (address : Nat) (slot : Word) :
    storeTop address m slot = .ok (m.storeTop address slot) := by
  unfold storeTop Machine.storeTop
  cases hslot : Word.address? slot with
  | none => rfl
  | some k =>
    simp only [Stack.pop?]
    cases m.stack.peek? with
    | none => rfl
    | some value =>
      simp only [Option.map_some, grow_eq hm (Word.address?_le hslot)]
      cases hreach : Store.inReach k with
      | false => rfl
      | true =>
        simp only [if_true, bind, Except.bind, put_eq (m.store.lt_size_growTo k)]
        rfl

theorem execute_eq {m : Machine σ} (hm : m.store.Grown) (address : Nat) (i : Instruction) :
    execute address m i = .ok (m.execute address i) := by
  cases i with
  | binary op =>
    simp only [execute, Machine.execute, pop2_eq, Stack.pop2?, bind, Except.bind]
    cases m.stack.peek2? <;> rfl
  | gstore slot | store slot => exact storeTop_eq hm address slot
  | _ => rfl

omit [Sink σ] in
theorem advanceOperand_eq {p : Program} (hp : p.size ≤ Word.greatest) {m : Machine σ} {i : Instruction}
    (hfetch : p.fetch m.ip = .instruction i) :
    advanceOperand p { m with ip := m.ip + 1 } i = .ok { m with ip := m.ip + i.size } := by
  unfold advanceOperand
  cases hoperand : i.operand? with
  | none => simp [Instruction.size, hoperand]
  | some w =>
    have hip := Program.lt_size_of_get? ((Program.get?_of_fetch hfetch).2 w hoperand)
    rw [Option.isSome_some, if_pos rfl, advance_eq hp hip, Instruction.size, hoperand]
    rfl

/-- As long as the store has grown as stores do, no check of a step fails, and it is the step of the
unchecked machine. -/
theorem step_eq {p : Program} (hp : p.size ≤ Word.greatest) {m : Machine σ} (hm : m.store.Grown) :
    step p m = .ok (m.step p) := by
  cases hrun : m.status with
  | halted => simp only [step, Machine.step_of_halted hrun, hrun]
  | running =>
    cases hfetch : p.fetch m.ip with
    | pastEnd =>
      have hend := Program.get?_eq_none_iff.mpr (Program.fetch_eq_pastEnd_iff.mp hfetch)
      simp only [step, Machine.step_of_pastEnd hrun hfetch, hrun, hend]
    | unknown word =>
      obtain ⟨hword, hop⟩ := Program.fetch_eq_unknown_iff.mp hfetch
      simp only [step, Machine.step_of_unknown hrun hfetch, hrun, hword, hop]
    | truncated op =>
      obtain ⟨hop, harity, hsize⟩ := Program.fetch_eq_truncated_iff.mp hfetch
      have hnone := Instruction.instruction?_eq_none_iff.mpr
        ⟨harity, Program.get?_eq_none_iff.mpr (Nat.le_of_eq hsize)⟩
      have hperform : step p m = perform p m op := by simp only [step, hrun, hop, Opcode.ofWord?_word]
      rw [hperform, perform, advance_eq hp (Program.lt_size_of_get? hop),
        Machine.step_of_truncated hrun hfetch]
      simp only [bind, Except.bind, hnone]
      rfl
    | instruction i =>
      have hop := (Program.get?_of_fetch hfetch).1
      have hi := (Program.fetch_eq_instruction_iff hop).mp hfetch
      have hready : { m with ip := m.ip + i.size }.store.Grown := hm
      have hperform : step p m = perform p m i.opcode := by
        simp only [step, hrun, hop, Opcode.ofWord?_word]
      rw [hperform, perform, advance_eq hp (Program.lt_size_of_get? hop), Machine.step_of_fetch hrun hfetch]
      simp only [bind, Except.bind, hi, advanceOperand_eq hp hfetch, execute_eq hready]
      rfl

end Checked

namespace Machine

variable {σ : Type} [Sink σ] {p : Program} {m : Machine σ}

/-- What holds of every machine that a program that fits into memory leads to. -/
structure Bounded (m : Machine σ) : Prop where
  ip : m.ip ≤ Word.greatest
  store : m.store.Grown

omit [Sink σ] in
/-- An instruction lies inside the program. -/
theorem ip_add_size_le {i : Instruction} (hfetch : p.fetch m.ip = .instruction i) :
    m.ip + i.size ≤ p.size := by
  obtain ⟨hop, hoperand⟩ := Program.get?_of_fetch hfetch
  cases hw : i.operand? with
  | none =>
    rw [Instruction.size, hw]
    exact Program.lt_size_of_get? hop
  | some w =>
    rw [Instruction.size, hw]
    exact Program.lt_size_of_get? (hoperand w hw)

theorem Executes.store_grown {address : Nat} {i : Instruction} {done : Except Fault Unit × Machine σ}
    (h : Executes address m i done) (hm : m.store.Grown) : done.2.store.Grown := by
  cases h with
  | stored _ _ _ hreach => exact hm.write hreach _
  | _ => exact hm

/-- `ip` goes on behind the instruction, inside the program or at its end, or to the address that a jump
names, which is a word. -/
theorem step_bounded (hp : p.size ≤ Word.greatest) (hm : m.Bounded) : (m.step p).machine.Bounded := by
  constructor
  · cases hrun : m.status with
    | halted =>
      rw [step_of_halted hrun]
      exact hm.ip
    | running =>
      cases hfetch : p.fetch m.ip with
      | pastEnd =>
        rw [step_of_pastEnd hrun hfetch]
        exact hm.ip
      | unknown word =>
        rw [step_of_unknown hrun hfetch]
        exact hm.ip
      | truncated op =>
        rw [step_of_truncated hrun hfetch]
        exact (Program.fetch_eq_truncated_iff.mp hfetch).2.2 ▸ hp
      | instruction i =>
        rcases step_ip hrun hfetch with hip | ⟨target, -, hip⟩
        · rw [hip]
          exact Nat.le_trans (ip_add_size_le hfetch) hp
        · exact Word.address?_le hip
  · have hsteps := step_steps p m
    generalize m.step p = s at hsteps
    cases hsteps with
    | idle | ranOff | unknown | truncated => exact hm.store
    | faulted _ _ hexecutes => exact hexecutes.store_grown hm.store
    | executed _ _ hexecutes => exact hexecutes.store_grown hm.store

theorem after_bounded (hp : p.size ≤ Word.greatest) (sink : σ) (n : Nat) :
    ((start sink).after p n).Bounded := by
  apply after_keeps fun m hm => step_bounded hp hm
  exact ⟨Nat.zero_le _, fun slot hslot => absurd hslot (Nat.not_lt_zero slot)⟩

/-- The checked machine goes where the unchecked one does. -/
theorem checked_after_eq (hp : p.size ≤ Word.greatest) (hm : m.Bounded) (n : Nat) :
    Checked.after p n m = .ok (m.after p n) := by
  induction n generalizing m with
  | zero => rfl
  | succ n ih =>
    rw [Checked.after, Checked.step_eq hp hm.store]
    exact ih (step_bounded hp hm)

/-- Addresses of 64 bits are enough. With a program of at most 2^63 - 1 words and any sink, however many
steps are made: the machine that checks every sum, difference, write and pop gets through each of them
and does what the unchecked one does; `ip` is at most 2^63 - 1, and so is the slot that a store is to
write, which therefore has a successor. -/
theorem addresses_never_wrap (p : Program) (hp : p.size ≤ Word.greatest) (σ : Type) [Sink σ] (sink : σ)
    (n : Nat) :
    Checked.after p n (start sink) = .ok ((start sink).after p n) ∧
    Checked.step p ((start sink).after p n) = .ok (((start sink).after p n).step p) ∧
    ((start sink).after p n).ip ≤ Word.greatest ∧
    ∀ i slot k, p.fetch ((start sink).after p n).ip = .instruction i → i.storeSlot? = some slot →
      Word.address? slot = some k → k ≤ Word.greatest ∧ Checked.successor k = .ok (k + 1) := by
  have hbounded := after_bounded hp sink n
  refine ⟨checked_after_eq hp (after_bounded hp sink 0) n, Checked.step_eq hp hbounded.store, hbounded.ip,
    fun i slot k _ _ hslot => ?_⟩
  have hk := Word.address?_le hslot
  exact ⟨hk, Checked.successor_eq hk⟩

/-- A jump to the greatest address, after a store that has grown the store and one that has not. -/
theorem addresses_never_wrap_greatest :
    let p : Program := .ofList [1, 5, 11, 2, 1, 6, 13, 0, 7, 9223372036854775807]
    p.size ≤ Word.greatest ∧ ((start ({} : Transcript)).after p 5).ip = 9223372036854775807 ∧
    Checked.after p 6 (start ({} : Transcript)) = .ok ((start {}).after p 6) := by
  intro p
  have hp : p.size ≤ Word.greatest := by decide
  exact ⟨hp, by decide, (addresses_never_wrap p hp Transcript {} 6).1⟩

end Machine

end StackAssembly
