import StackAssembly.Proofs.InstructionEffects

/-! What a failed step leaves behind. Every fault names the instruction and halts the machine; how far
the instruction had come shows in `ip` and in the stack. -/
namespace StackAssembly.Machine

variable {σ : Type} [Sink σ]

/-- The operand `w` was refused on a stack, and what was left of it then. Only a taken jump and a store
that finds its slot out of reach have popped a word. -/
def RefusedOperand (stack left : Stack) (w : Word) : Opcode → Prop
  | .jmp | .gload => w.toInt < 0 ∧ left = stack
  | .load => (w.toInt < 0 ∨ stack.size ≤ w.toInt) ∧ left = stack
  | .gstore | .store => w.toInt < 0 ∧ left = stack ∨
      0 ≤ w.toInt ∧ Store.inReach w.toInt.toNat = false ∧ ∃ value, stack = left.push value
  | .jmpt => w.toInt < 0 ∧ ∃ value, value ≠ 0 ∧ stack = left.push value
  | .jmpf => w.toInt < 0 ∧ stack = left.push 0
  | .iconst | .iadd | .isub | .imul | .ilt | .ieq | .print | .halt => False

/-- Where a step that failed has left `ip` and the stack, by the kind of its fault. -/
def LeftBehind (p : Program) (m m' : Machine σ) : Fault → Prop
  | .unknownOpcode _ word => p.get? m.ip = some word ∧ Opcode.ofWord? word = none ∧
      m'.ip = m.ip ∧ m'.stack = m.stack
  | .missingOperand _ => m'.ip = m.ip + 1 ∧ m.ip + 1 = p.size ∧ m'.stack = m.stack
  | .stackUnderflow _ => ∃ op : Opcode, p.get? m.ip = some op.word ∧ m.stack.size < op.pops ∧
      m'.ip = m.ip + 1 + op.arity ∧ m'.stack = m.stack
  | .addressOutOfRange _ target => ∃ op : Opcode, p.get? m.ip = some op.word ∧
      p.get? (m.ip + 1) = some target ∧ m'.ip = m.ip + 2 ∧
      RefusedOperand m.stack m'.stack target op
  | .outputFailed _ cause => p.get? m.ip = some Opcode.print.word ∧ m'.ip = m.ip + 1 ∧
      ∃ value, m.stack = m'.stack.push value ∧
        Sink.printLine m.sink (Numeral.ofWord value) = (.error cause, m'.sink)

/-- The step from `m` to `m'` has failed with the fault. -/
structure Failed (p : Program) (m m' : Machine σ) (fault : Fault) : Prop where
  address : fault.address = m.ip
  halted : m'.status = .halted
  store : m'.store = m.store
  sink : m'.sink = m.sink ∨ ∃ cause, fault = .outputFailed m.ip cause
  left : LeftBehind p m m' fault

/-- An instruction that refuses its operand has one, and has read it. -/
private theorem leftBehind_of_refused {p : Program} {m m' : Machine σ} {i : Instruction} {w : Word}
    (hfetch : p.fetch m.ip = .instruction i) (hoperand : i.operand? = some w)
    (hip : m'.ip = m.ip + i.size) (hstack : RefusedOperand m.stack m'.stack w i.opcode) :
    LeftBehind p m m' (.addressOutOfRange m.ip w) := by
  obtain ⟨hop, hnext⟩ := Program.get?_of_fetch hfetch
  rw [Instruction.size, hoperand] at hip
  exact ⟨i.opcode, hop, hnext w hoperand, hip, hstack⟩

private theorem refusedOperand_of_negative {i : Instruction} {w : Word} (stack : Stack)
    (hi : i.needsAddress? = some w) (hw : w.toInt < 0) : RefusedOperand stack stack w i.opcode := by
  cases i with
  | const value | binary op | jumpIf condition target | print | halt => cases hi
  | jump target | gload slot =>
    cases hi
    exact ⟨hw, rfl⟩
  | load slot =>
    cases hi
    exact ⟨.inl hw, rfl⟩
  | gstore slot | store slot =>
    cases hi
    exact .inl ⟨hw, rfl⟩

theorem Executes.failed {p : Program} {m m' : Machine σ} {i : Instruction} {fault : Fault}
    (hfetch : p.fetch m.ip = .instruction i)
    (h : Executes m.ip { m with ip := m.ip + i.size } i (.error fault, m')) :
    Failed p m { m' with status := .halted } fault := by
  cases h with
  | underflow hstack hslot =>
    refine ⟨rfl, rfl, rfl, .inl rfl, i.opcode, (Program.get?_of_fetch hfetch).1, hstack, ?_, rfl⟩
    change m.ip + i.size = _
    rw [i.size_eq_arity, Nat.add_assoc]
  | noAddress hi hw =>
    refine ⟨rfl, rfl, rfl, .inl rfl, leftBehind_of_refused hfetch
      (Instruction.operand?_of_needsAddress? hi) rfl ?_⟩
    exact refusedOperand_of_negative m.stack hi (Word.address?_eq_none_iff.mp hw)
  | pastTop hslot hstack =>
    refine ⟨rfl, rfl, rfl, .inl rfl, leftBehind_of_refused hfetch rfl rfl ?_⟩
    have hslot := Word.address?_eq_some_iff.mp hslot
    have hstack := Stack.get?_eq_none_iff.mp hstack
    exact ⟨.inr (by rw [hslot]; exact Int.ofNat_le.mpr hstack), rfl⟩
  | @takenNowhere condition target value hstack htaken htarget =>
    refine ⟨rfl, rfl, rfl, .inl rfl, leftBehind_of_refused hfetch rfl rfl ?_⟩
    have htarget := Word.address?_eq_none_iff.mp htarget
    have hstack := Stack.peek?_eq_some_iff.mp hstack
    cases condition with
    | true => exact ⟨htarget, value, by simpa using htaken, hstack⟩
    | false =>
      have hzero : value = 0 := by simpa using htaken
      exact ⟨htarget, hzero ▸ hstack⟩
  | @outOfReach _ slot value k hi hslot hstack hreach =>
    refine ⟨rfl, rfl, rfl, .inl rfl, leftBehind_of_refused hfetch
      (Instruction.operand?_of_needsAddress? (Instruction.needsAddress?_of_storeSlot? hi)) rfl ?_⟩
    have hslot := Word.address?_eq_some_iff.mp hslot
    have hpopped : 0 ≤ slot.toInt ∧ Store.inReach slot.toInt.toNat = false ∧
        ∃ value, m.stack = m.stack.pop.push value :=
      ⟨by omega, by rwa [hslot, Int.toNat_natCast], value, Stack.peek?_eq_some_iff.mp hstack⟩
    cases i with
    | gstore _ | store _ => exact .inr hpopped
    | _ => cases hi
  | refused hstack hsink =>
    exact ⟨rfl, rfl, rfl, .inr ⟨_, rfl⟩, (Program.get?_of_fetch hfetch).1, rfl, _,
      Stack.peek?_eq_some_iff.mp hstack, hsink⟩

theorem failed_of_step {p : Program} {m : Machine σ} {fault : Fault}
    (h : (m.step p).result = .error fault) : Failed p m (m.step p).machine fault := by
  have hsteps := step_steps p m
  generalize m.step p = s at h hsteps
  cases hsteps with
  | idle | ranOff | executed => cases h
  | unknown _ hfetch =>
    cases h
    obtain ⟨hword, hop⟩ := Program.fetch_eq_unknown_iff.mp hfetch
    exact ⟨rfl, rfl, rfl, .inl rfl, hword, hop, rfl, rfl⟩
  | truncated _ hfetch =>
    cases h
    obtain ⟨-, -, hsize⟩ := Program.fetch_eq_truncated_iff.mp hfetch
    exact ⟨rfl, rfl, rfl, .inl rfl, rfl, hsize.symm, rfl⟩
  | faulted _ hfetch hexecutes =>
    cases h
    exact hexecutes.failed hfetch

/-- On an empty stack a store complains of its negative slot, and a conditional jump of the stack. -/
theorem step_negative_operand {p : Program} {m : Machine σ} {op : Opcode} {w : Word}
    (hrun : m.status = .running) (hop : p.get? m.ip = some op.word)
    (hoperand : p.get? (m.ip + 1) = some w) (hw : w.toInt < 0) (hstack : m.stack.size = 0) :
    (op ∈ [.gstore, .store] → (m.step p).result = .error (.addressOutOfRange m.ip w)) ∧
      (op ∈ [.jmpt, .jmpf] → (m.step p).result = .error (.stackUnderflow m.ip)) := by
  have hnone : Word.address? w = none := Word.address?_eq_none_iff.mpr hw
  have hfetch {i : Instruction} (hi : op.instruction? (some w) = some i) :
      p.fetch m.ip = .instruction i :=
    (Program.fetch_eq_instruction_iff hop).mpr (hoperand ▸ hi)
  have hjump {condition : Bool} (hi : op.instruction? (some w) = some (.jumpIf condition w)) :
      (m.step p).result = .error (.stackUnderflow m.ip) :=
    step_of_executes_error hrun (hfetch hi)
      (.underflow (by simp [hstack]) (by simp [Instruction.storeSlot?]))
  constructor
  · intro hmem
    simp only [List.mem_cons, List.not_mem_nil, or_false] at hmem
    rcases hmem with rfl | rfl
    · exact step_of_executes_error hrun (hfetch rfl) (.noAddress rfl hnone)
    · exact step_of_executes_error hrun (hfetch rfl) (.noAddress rfl hnone)
  · intro hmem
    simp only [List.mem_cons, List.not_mem_nil, or_false] at hmem
    rcases hmem with rfl | rfl
    · exact hjump rfl
    · exact hjump rfl

/-- Whatever the program, the sink and the machine, a step that fails names its own address, halts and
leaves the store alone, and the sink too unless the output failed; how far it has gone on and what it
has popped depends on the fault. Where several causes meet, a missing operand comes first; a store looks
at its slot before the stack, and a conditional jump at the stack before its target. -/
theorem step_failure (p : Program) (m : Machine σ) (hrun : m.status = .running) :
    (∀ fault, (m.step p).result = .error fault → Failed p m (m.step p).machine fault) ∧
    (∀ (op : Opcode) w, p.get? m.ip = some op.word → p.get? (m.ip + 1) = some w → w.toInt < 0 →
      m.stack.size = 0 →
        (op ∈ [.gstore, .store] → (m.step p).result = .error (.addressOutOfRange m.ip w)) ∧
        (op ∈ [.jmpt, .jmpf] → (m.step p).result = .error (.stackUnderflow m.ip))) ∧
    ∀ op : Opcode, p.get? m.ip = some op.word → op.arity = 1 → p.size = m.ip + 1 →
      (m.step p).result = .error (.missingOperand m.ip) := by
  refine ⟨fun fault => failed_of_step, ?_, ?_⟩
  · intro op w hop hoperand hw hstack
    exact step_negative_operand hrun hop hoperand hw hstack
  · intro op hop harity hend
    rw [step_of_truncated hrun (Program.fetch_eq_truncated_iff.mpr ⟨hop, harity, hend⟩)]
    rfl

/-- An addition that finds one word only. -/
theorem step_failure_lone_word :
    (({ ip := 2, stack := .ofList [5], store := ⟨#[9]⟩, sink := {} } : Machine Transcript).step
      (.ofList [1, 7, 2])).result = .error (.stackUnderflow 2) ∧
    Failed (.ofList [1, 7, 2])
      ({ ip := 2, stack := .ofList [5], store := ⟨#[9]⟩, sink := {} } : Machine Transcript)
      ({ ip := 3, status := .halted, stack := .ofList [5], store := ⟨#[9]⟩, sink := {} } : Machine Transcript)
      (.stackUnderflow 2) :=
  ⟨rfl, (step_failure _ _ rfl).1 _ rfl⟩

end StackAssembly.Machine
