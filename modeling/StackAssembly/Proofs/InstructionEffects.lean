import StackAssembly.Proofs.MachineSteps

/-! The instructions one by one: when each goes on, when it fails, and what it has changed by then; and
with them everything that a step can be. -/
namespace StackAssembly

/-- How many words an instruction takes from the stack. -/
def Opcode.pops : Opcode → Nat
  | iadd | isub | imul | ilt | ieq => 2
  | jmpt | jmpf | gstore | store | print => 1
  | iconst | jmp | gload | load | halt => 0

namespace Instruction

@[simp] theorem pops_binary (op : BinaryOp) : (binary op).opcode.pops = 2 := by
  cases op <;> rfl

@[simp] theorem pops_jumpIf (condition : Bool) (target : Word) :
    (jumpIf condition target).opcode.pops = 1 := by
  cases condition <;> rfl

/-- The operand that names a slot to store to. Both stores write to the same slots. -/
def storeSlot? : Instruction → Option Word
  | gstore slot | store slot => some slot
  | _ => none

/-- The operand that must be an address for the instruction to begin at all. A conditional jump looks
at its target only when it is taken. -/
def needsAddress? : Instruction → Option Word
  | jump w | gload w | gstore w | load w | store w => some w
  | const _ | binary _ | jumpIf .. | print | halt => none

/-- The operand that a jump goes to when it is taken. -/
def target? : Instruction → Option Word
  | jump target | jumpIf _ target => some target
  | _ => none

theorem operand?_of_target? {i : Instruction} {target : Word} (h : i.target? = some target) :
    i.operand? = some target ∧ i.opcode ∈ [.jmp, .jmpt, .jmpf] := by
  cases i with
  | jump w =>
    cases h
    exact ⟨rfl, by simp [opcode]⟩
  | jumpIf condition w =>
    cases h
    cases condition <;> exact ⟨rfl, by simp [opcode]⟩
  | _ => cases h

theorem pops_of_storeSlot? {i : Instruction} {slot : Word} (h : i.storeSlot? = some slot) :
    i.opcode.pops = 1 := by
  cases i <;> cases h <;> rfl

theorem needsAddress?_of_storeSlot? {i : Instruction} {slot : Word} (h : i.storeSlot? = some slot) :
    i.needsAddress? = some slot := by
  cases i <;> cases h <;> rfl

theorem operand?_of_needsAddress? {i : Instruction} {w : Word} (h : i.needsAddress? = some w) :
    i.operand? = some w := by
  cases i <;> cases h <;> rfl

end Instruction

namespace Machine

variable {σ : Type} [Sink σ]

/-- What an instruction at an address comes to, and the machine it leaves behind. -/
inductive Executes (address : Nat) (m : Machine σ) :
    Instruction → Except Fault Unit × Machine σ → Prop where
  | const {value : Word} : Executes address m (.const value) (.ok (), m.push value)
  | binary {op : BinaryOp} {a b : Word} (hstack : m.stack.peek2? = some (a, b)) :
    Executes address m (.binary op) (.ok (), m.pop.pop.push (op.apply a b))
  | jump {target : Word} {ip : Nat} (htarget : Word.address? target = some ip) :
    Executes address m (.jump target) (.ok (), { m with ip })
  | taken {condition : Bool} {target value : Word} {ip : Nat} (hstack : m.stack.peek? = some value)
    (htaken : (value != 0) = condition) (htarget : Word.address? target = some ip) :
    Executes address m (.jumpIf condition target) (.ok (), { m.pop with ip })
  | passed {condition : Bool} {target value : Word} (hstack : m.stack.peek? = some value)
    (hpassed : (value != 0) ≠ condition) :
    Executes address m (.jumpIf condition target) (.ok (), m.pop)
  | gload {slot : Word} {k : Nat} (hslot : Word.address? slot = some k) :
    Executes address m (.gload slot) (.ok (), m.push (m.store.read k))
  | stored {i : Instruction} {slot value : Word} {k : Nat} (hi : i.storeSlot? = some slot)
    (hslot : Word.address? slot = some k) (hstack : m.stack.peek? = some value)
    (hreach : Store.inReach k = true) : Executes address m i (.ok (), m.pop.assign k value)
  | load {slot value : Word} {k : Nat} (hslot : Word.address? slot = some k)
    (hstack : m.stack.get? k = some value) : Executes address m (.load slot) (.ok (), m.push value)
  | printed {value : Word} {sink : σ} (hstack : m.stack.peek? = some value)
    (hsink : Sink.printLine m.sink (Numeral.ofWord value) = (.ok (), sink)) :
    Executes address m .print (.ok (), { m.pop with sink })
  | halt : Executes address m .halt (.ok (), { m with status := .halted })
  /-- Too few words on the stack. A store has looked at its slot before. -/
  | underflow {i : Instruction} (hstack : m.stack.size < i.opcode.pops)
    (hslot : ∀ slot, i.storeSlot? = some slot → Word.address? slot ≠ none) :
    Executes address m i (.error (.stackUnderflow address), m)
  | noAddress {i : Instruction} {w : Word} (hi : i.needsAddress? = some w)
    (hw : Word.address? w = none) : Executes address m i (.error (.addressOutOfRange address w), m)
  | pastTop {slot : Word} {k : Nat} (hslot : Word.address? slot = some k)
    (hstack : m.stack.get? k = none) :
    Executes address m (.load slot) (.error (.addressOutOfRange address slot), m)
  | takenNowhere {condition : Bool} {target value : Word} (hstack : m.stack.peek? = some value)
    (htaken : (value != 0) = condition) (htarget : Word.address? target = none) :
    Executes address m (.jumpIf condition target)
      (.error (.addressOutOfRange address target), m.pop)
  | outOfReach {i : Instruction} {slot value : Word} {k : Nat} (hi : i.storeSlot? = some slot)
    (hslot : Word.address? slot = some k) (hstack : m.stack.peek? = some value)
    (hreach : Store.inReach k = false) :
    Executes address m i (.error (.addressOutOfRange address slot), m.pop)
  | refused {value : Word} {cause : String} {sink : σ} (hstack : m.stack.peek? = some value)
    (hsink : Sink.printLine m.sink (Numeral.ofWord value) = (.error cause, sink)) :
    Executes address m .print (.error (.outputFailed address cause), { m.pop with sink })

private theorem storeTop_executes {address : Nat} {m : Machine σ} {i : Instruction} {slot : Word}
    (hi : i.storeSlot? = some slot) : Executes address m i (m.storeTop address slot) := by
  unfold storeTop
  split
  · rename_i hslot
    exact .noAddress (Instruction.needsAddress?_of_storeSlot? hi) hslot
  rename_i k hslot
  split
  · rename_i hstack
    apply Executes.underflow
    · rw [Instruction.pops_of_storeSlot? hi, Stack.peek?_eq_none_iff.mp hstack]
      exact Nat.zero_lt_one
    · intro other hother
      rw [hi] at hother
      cases hother
      simp [hslot]
  rename_i value hstack
  split
  · rename_i hreach
    exact .stored hi hslot hstack hreach
  · rename_i hreach
    exact .outOfReach hi hslot hstack (by simpa using hreach)

/-- Every instruction comes to one of these ends. -/
theorem execute_executes (address : Nat) (m : Machine σ) (i : Instruction) :
    Executes address m i (m.execute address i) := by
  have hempty {i : Instruction} (hi : i.opcode.pops = 1) (hslot : i.storeSlot? = none)
      (hstack : m.stack.peek? = none) :
      Executes address m i (.error (.stackUnderflow address), m) := by
    apply Executes.underflow
    · rw [hi, Stack.peek?_eq_none_iff.mp hstack]
      exact Nat.zero_lt_one
    · simp [hslot]
  cases i with
  | const value => exact .const
  | binary op =>
    simp only [execute]
    split
    · rename_i hstack
      exact .underflow (by simpa using Stack.peek2?_eq_none_iff.mp hstack)
        (by simp [Instruction.storeSlot?])
    · rename_i a b hstack
      exact .binary hstack
  | jump target =>
    simp only [execute, jump]
    split
    · rename_i htarget
      exact .noAddress rfl htarget
    · rename_i ip htarget
      exact .jump htarget
  | jumpIf condition target =>
    simp only [execute]
    split
    · rename_i hstack
      exact hempty (Instruction.pops_jumpIf ..) rfl hstack
    rename_i value hstack
    split
    · rename_i htaken
      unfold jump
      split
      · rename_i htarget
        exact .takenNowhere hstack htaken htarget
      · rename_i ip htarget
        exact .taken hstack htaken htarget
    · rename_i hpassed
      exact .passed hstack hpassed
  | gload slot =>
    simp only [execute]
    split
    · rename_i hslot
      exact .noAddress rfl hslot
    · rename_i k hslot
      exact .gload hslot
  | gstore slot => exact storeTop_executes rfl
  | store slot => exact storeTop_executes rfl
  | load slot =>
    simp only [execute]
    cases hslot : Word.address? slot with
    | none => exact .noAddress rfl hslot
    | some k =>
      rw [Option.bind_some]
      split
      · rename_i hstack
        exact .pastTop hslot hstack
      · rename_i value hstack
        exact .load hslot hstack
  | print =>
    simp only [execute]
    split
    · rename_i hstack
      exact hempty rfl rfl hstack
    · rename_i value hstack
      unfold printWord
      split
      · rename_i sink hsink
        exact .printed hstack hsink
      · rename_i cause sink hsink
        exact .refused hstack hsink
  | halt => exact .halt

/-- An instruction has no other end than the one that `execute` finds. -/
theorem Executes.execute_eq {address : Nat} {m : Machine σ} {i : Instruction}
    {done : Except Fault Unit × Machine σ} (h : Executes address m i done) :
    m.execute address i = done := by
  cases h with
  | const => rfl
  | binary hstack => simp only [execute, hstack]
  | jump htarget => simp only [execute, Machine.jump, htarget]
  | taken hstack htaken htarget => simp only [execute, hstack, htaken, if_true, Machine.jump, htarget]
  | passed hstack hpassed => simp only [execute, hstack, if_neg hpassed]
  | gload hslot => simp only [execute, hslot]
  | load hslot hstack => simp only [execute, hslot, Option.bind_some, hstack]
  | printed hstack hsink =>
    simp only [execute, hstack, printWord]
    rw [show m.pop.sink = m.sink from rfl, hsink]
  | halt => rfl
  | pastTop hslot hstack => simp only [execute, hslot, Option.bind_some, hstack]
  | takenNowhere hstack htaken htarget =>
    simp only [execute, hstack, htaken, if_true, Machine.jump, htarget]
  | refused hstack hsink =>
    simp only [execute, hstack, printWord]
    rw [show m.pop.sink = m.sink from rfl, hsink]
  | stored hi hslot hstack hreach =>
    cases i <;> cases hi <;> simp only [execute, storeTop, hslot, hstack, hreach, if_true]
  | outOfReach hi hslot hstack hreach =>
    cases i <;> cases hi <;> simp [execute, storeTop, hslot, hstack, hreach]
  | noAddress hi hw =>
    cases i <;> cases hi <;> simp [execute, storeTop, Machine.jump, hw]
  | underflow hstack hslot =>
    have hempty (hsize : m.stack.size < 1) : m.stack.peek? = none :=
      Stack.peek?_eq_none_iff.mpr (by omega)
    cases i with
    | const value | jump target | gload slot | load slot | halt => cases hstack
    | binary op =>
      rw [Instruction.pops_binary] at hstack
      simp only [execute, Stack.peek2?_eq_none_iff.mpr hstack]
    | jumpIf condition target =>
      rw [Instruction.pops_jumpIf] at hstack
      simp only [execute, hempty hstack]
    | print => simp only [execute, hempty hstack]
    | gstore slot | store slot =>
      obtain ⟨k, hk⟩ := Option.ne_none_iff_exists'.mp (hslot slot rfl)
      simp only [execute, storeTop, hk, hempty hstack]

/-- An instruction leaves `ip` where it is, unless it is a jump to a valid address. -/
theorem Executes.ip {address : Nat} {m : Machine σ} {i : Instruction}
    {done : Except Fault Unit × Machine σ} (h : Executes address m i done) :
    done.2.ip = m.ip ∨ ∃ target, i.target? = some target ∧ Word.address? target = some done.2.ip := by
  cases h with
  | jump htarget => exact .inr ⟨_, rfl, htarget⟩
  | taken _ _ htarget => exact .inr ⟨_, rfl, htarget⟩
  | _ => exact .inl rfl

/-- The causes for which an instruction at an address can fail. An operand is refused if it names no
address, or by one of the instructions that may find its slot out of reach. -/
def Refuses (address : Nat) (i : Instruction) (fault : Fault) : Prop :=
  fault = .stackUnderflow address ∨ (∃ cause, fault = .outputFailed address cause) ∨
    ∃ w, fault = .addressOutOfRange address w ∧ i.operand? = some w ∧
      (Word.address? w = none ∨ i.opcode ∈ [.load, .gstore, .store])

theorem Executes.refuses {address : Nat} {m m' : Machine σ} {i : Instruction} {fault : Fault}
    (h : Executes address m i (.error fault, m')) : Refuses address i fault := by
  cases h with
  | underflow => exact .inl rfl
  | noAddress hi hw => exact .inr (.inr ⟨_, rfl, Instruction.operand?_of_needsAddress? hi, .inl hw⟩)
  | pastTop => exact .inr (.inr ⟨_, rfl, rfl, .inr (by simp [Instruction.opcode])⟩)
  | takenNowhere _ _ htarget => exact .inr (.inr ⟨_, rfl, rfl, .inl htarget⟩)
  | outOfReach hi =>
    cases i <;> cases hi <;> exact .inr (.inr ⟨_, rfl, rfl, .inr (by simp [Instruction.opcode])⟩)
  | refused => exact .inr (.inl ⟨_, rfl⟩)

/-- What a step of the machine comes to. It is idle once it has halted; otherwise it goes by what is
fetched. -/
inductive Steps (p : Program) (m : Machine σ) : Step σ → Prop where
  | idle (hhalted : m.status = .halted) : Steps p m ⟨m, .ok .halted, []⟩
  | ranOff (hrun : m.status = .running) (hfetch : p.fetch m.ip = .pastEnd) :
    Steps p m ⟨{ m with status := .halted }, .ok .halted, [.ranOffEnd m.ip]⟩
  | unknown {word : Word} (hrun : m.status = .running) (hfetch : p.fetch m.ip = .unknown word) :
    Steps p m (m.fail (.unknownOpcode m.ip word) [])
  | truncated {op : Opcode} (hrun : m.status = .running) (hfetch : p.fetch m.ip = .truncated op) :
    Steps p m ({ m with ip := m.ip + 1 }.fail (.missingOperand m.ip)
      [.executing m.ip op m.stack.size])
  | faulted {i : Instruction} {fault : Fault} {m' : Machine σ} (hrun : m.status = .running)
    (hfetch : p.fetch m.ip = .instruction i)
    (hexecutes : Executes m.ip { m with ip := m.ip + i.size } i (.error fault, m')) :
    Steps p m (m'.fail fault [.executing m.ip i.opcode m.stack.size])
  | executed {i : Instruction} {m' : Machine σ} (hrun : m.status = .running)
    (hfetch : p.fetch m.ip = .instruction i)
    (hexecutes : Executes m.ip { m with ip := m.ip + i.size } i (.ok (), m')) :
    Steps p m ⟨m', .ok m'.status, .executing m.ip i.opcode m.stack.size ::
      if i = .halt then [.halted m.ip] else []⟩

theorem step_steps (p : Program) (m : Machine σ) : Steps p m (m.step p) := by
  cases hrun : m.status with
  | halted =>
    rw [step_of_halted hrun]
    exact .idle hrun
  | running =>
    cases hfetch : p.fetch m.ip with
    | pastEnd =>
      rw [step_of_pastEnd hrun hfetch]
      exact .ranOff hrun hfetch
    | unknown word =>
      rw [step_of_unknown hrun hfetch]
      exact .unknown hrun hfetch
    | truncated op =>
      rw [step_of_truncated hrun hfetch]
      exact .truncated hrun hfetch
    | instruction i =>
      rw [step_of_fetch hrun hfetch]
      have hexecutes := execute_executes m.ip { m with ip := m.ip + i.size } i
      generalize { m with ip := m.ip + i.size }.execute m.ip i = done at hexecutes
      obtain ⟨result, m'⟩ := done
      cases result with
      | error fault => exact .faulted hrun hfetch hexecutes
      | ok _ => exact .executed hrun hfetch hexecutes

theorem Steps.step_eq {p : Program} {m : Machine σ} {s : Step σ} (h : Steps p m s) : m.step p = s := by
  cases h with
  | idle hhalted => exact step_of_halted hhalted
  | ranOff hrun hfetch => exact step_of_pastEnd hrun hfetch
  | unknown hrun hfetch => exact step_of_unknown hrun hfetch
  | truncated hrun hfetch => exact step_of_truncated hrun hfetch
  | faulted hrun hfetch hexecutes | executed hrun hfetch hexecutes =>
    rw [step_of_fetch hrun hfetch, hexecutes.execute_eq]
    rfl

theorem step_of_executes_error {p : Program} {m m' : Machine σ} {i : Instruction} {fault : Fault}
    (hrun : m.status = .running) (hfetch : p.fetch m.ip = .instruction i)
    (h : Executes m.ip { m with ip := m.ip + i.size } i (.error fault, m')) :
    (m.step p).result = .error fault :=
  congrArg Step.result (Steps.faulted hrun hfetch h).step_eq

theorem step_of_executes_ok {p : Program} {m m' : Machine σ} {i : Instruction}
    (hrun : m.status = .running) (hfetch : p.fetch m.ip = .instruction i)
    (h : Executes m.ip { m with ip := m.ip + i.size } i (.ok (), m')) :
    (m.step p).machine = m' ∧ (m.step p).result = .ok m'.status := by
  rw [(Steps.executed hrun hfetch h).step_eq]
  exact ⟨rfl, rfl⟩

/-- A step goes on behind its instruction or at the address that a jump names. -/
theorem step_ip {p : Program} {m : Machine σ} {i : Instruction} (hrun : m.status = .running)
    (hfetch : p.fetch m.ip = .instruction i) :
    (m.step p).machine.ip = m.ip + i.size ∨ ∃ target, i.target? = some target ∧
      Word.address? target = some (m.step p).machine.ip := by
  rw [step_of_fetch hrun hfetch, conclude_ip]
  exact (execute_executes m.ip { m with ip := m.ip + i.size } i).ip

theorem step_error {p : Program} {m : Machine σ} {i : Instruction} {fault : Fault}
    (hrun : m.status = .running) (hfetch : p.fetch m.ip = .instruction i)
    (h : (m.step p).result = .error fault) : Refuses m.ip i fault := by
  rw [step_of_fetch hrun hfetch] at h
  have hexecutes := execute_executes m.ip { m with ip := m.ip + i.size } i
  generalize { m with ip := m.ip + i.size }.execute m.ip i = done at h hexecutes
  obtain ⟨result, m'⟩ := done
  obtain rfl : result = .error fault := conclude_error h
  exact hexecutes.refuses

/-- A machine that still runs after a step ran before it, and has executed an instruction. -/
theorem fetch_of_step_running {p : Program} {m : Machine σ}
    (h : (m.step p).machine.status = .running) :
    m.status = .running ∧ ∃ i, p.fetch m.ip = .instruction i := by
  have hsteps := step_steps p m
  generalize m.step p = s at h hsteps
  cases hsteps with
  | idle hhalted => cases hhalted.symm.trans h
  | ranOff | unknown | truncated | faulted => cases h
  | executed hrun hfetch => exact ⟨hrun, _, hfetch⟩

end Machine

end StackAssembly
