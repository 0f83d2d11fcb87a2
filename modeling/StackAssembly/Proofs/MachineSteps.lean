import StackAssembly.Machine.Basic

/-! Steps made one after another, and what a single step comes to by what is found at `ip`. -/
namespace StackAssembly.Machine

variable {σ : Type} [Sink σ]

/-- The machine after so many steps. -/
def after (p : Program) : Nat → Machine σ → Machine σ
  | 0, m => m
  | n + 1, m => after p n (m.step p).machine

theorem after_add (p : Program) (n k : Nat) (m : Machine σ) :
    m.after p (n + k) = (m.after p n).after p k := by
  induction n generalizing m with
  | zero => rw [Nat.zero_add, after]
  | succ n ih =>
    rw [Nat.succ_add]
    exact ih (m.step p).machine

/-- The last of several steps is made from where those before it have led. -/
theorem after_succ (p : Program) (n : Nat) (m : Machine σ) :
    m.after p (n + 1) = ((m.after p n).step p).machine :=
  after_add p n 1 m

/-- What holds along some steps and along more behind them holds along all of them. -/
theorem forall_after_add {p : Program} {P : Machine σ → Prop} {m : Machine σ} (n k : Nat) :
    (∀ j < n + k, P (m.after p j)) ↔
      (∀ j < n, P (m.after p j)) ∧ ∀ j < k, P ((m.after p n).after p j) := by
  constructor
  · intro h
    refine ⟨fun j hj => h j (Nat.lt_add_right k hj), fun j hj => ?_⟩
    rw [← after_add]
    exact h (n + j) (Nat.add_lt_add_left hj n)
  · rintro ⟨hfirst, hmore⟩ j hj
    rcases Nat.lt_or_ge j n with hlt | hge
    · exact hfirst j hlt
    · obtain ⟨i, rfl⟩ := Nat.exists_eq_add_of_le hge
      rw [after_add]
      exact hmore i (Nat.lt_of_add_lt_add_left hj)

/-- What every step keeps holds after any number of steps. -/
theorem after_keeps {p : Program} {P : Machine σ → Prop}
    (hstep : ∀ m, P m → P (m.step p).machine) {m : Machine σ} (hm : P m) (n : Nat) :
    P (m.after p n) := by
  induction n generalizing m with
  | zero => exact hm
  | succ n ih => exact ih (hstep m hm)

/-- The opcode that the next step executes. There is none if the machine has halted, at the end of the
program and at a word that is no opcode. -/
def nextOpcode? (p : Program) (m : Machine σ) : Option Opcode :=
  match m.status with
  | .halted => none
  | .running => (p.get? m.ip).bind Opcode.ofWord?

omit [Sink σ] in
theorem nextOpcode?_eq_some_iff {p : Program} {m : Machine σ} {op : Opcode} :
    m.nextOpcode? p = some op ↔ m.status = .running ∧ p.get? m.ip = some op.word := by
  cases hstatus : m.status with
  | halted => simp [nextOpcode?, hstatus]
  | running =>
    simp only [nextOpcode?, hstatus, Option.bind_eq_some_iff, Opcode.ofWord?_eq_some_iff, true_and]
    exact ⟨fun ⟨_, hword, hop⟩ => by rw [hword, hop], fun hword => ⟨_, hword, rfl⟩⟩

omit [Sink σ] in
theorem conclude_ip (address : Nat) (i : Instruction) (logged : Event)
    (done : Except Fault Unit × Machine σ) :
    (conclude address i logged done).machine.ip = done.2.ip := by
  obtain ⟨result, m⟩ := done
  cases result <;> rfl

omit [Sink σ] in
theorem conclude_error {address : Nat} {i : Instruction} {logged : Event}
    {done : Except Fault Unit × Machine σ} {fault : Fault}
    (h : (conclude address i logged done).result = .error fault) : done.1 = .error fault := by
  obtain ⟨result, m⟩ := done
  cases result with
  | error cause =>
    cases h
    rfl
  | ok _ => cases h

theorem step_of_fetch {p : Program} {m : Machine σ} {i : Instruction} (hrun : m.status = .running)
    (hfetch : p.fetch m.ip = .instruction i) :
    m.step p = conclude m.ip i (.executing m.ip i.opcode m.stack.size)
      ({ m with ip := m.ip + i.size }.execute m.ip i) := by
  simp only [step, hrun, hfetch]

theorem step_of_halted {p : Program} {m : Machine σ} (h : m.status = .halted) :
    m.step p = ⟨m, .ok .halted, []⟩ := by
  simp only [step, h]

theorem step_of_pastEnd {p : Program} {m : Machine σ} (hrun : m.status = .running)
    (hfetch : p.fetch m.ip = .pastEnd) :
    m.step p = ⟨{ m with status := .halted }, .ok .halted, [.ranOffEnd m.ip]⟩ := by
  simp only [step, hrun, hfetch]

theorem step_of_unknown {p : Program} {m : Machine σ} {word : Word} (hrun : m.status = .running)
    (hfetch : p.fetch m.ip = .unknown word) :
    m.step p = m.fail (.unknownOpcode m.ip word) [] := by
  simp only [step, hrun, hfetch]

theorem step_of_truncated {p : Program} {m : Machine σ} {op : Opcode} (hrun : m.status = .running)
    (hfetch : p.fetch m.ip = .truncated op) :
    m.step p = { m with ip := m.ip + 1 }.fail (.missingOperand m.ip)
      [.executing m.ip op m.stack.size] := by
  simp only [step, hrun, hfetch]

theorem after_of_halted {p : Program} {m : Machine σ} (h : m.status = .halted) (n : Nat) :
    m.after p n = m := by
  induction n with
  | zero => rfl
  | succ n ih => rw [after_succ, ih, step_of_halted h]

/-- Once it has halted, the machine stays as it is. -/
theorem after_eq_of_halted {p : Program} {m : Machine σ} {k n : Nat}
    (h : (m.after p k).status = .halted) (hk : k ≤ n) : m.after p n = m.after p k := by
  obtain ⟨more, rfl⟩ := Nat.exists_eq_add_of_le hk
  rw [after_add, after_of_halted h]

end StackAssembly.Machine
