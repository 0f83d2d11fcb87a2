import StackAssembly.Proofs.InstructionEffects

/-! The stack frame law. What lies beneath the words that a run works with is neither looked at nor
touched, unless the run loads from the bottom of the stack or wants more words than there are. -/
namespace StackAssembly

namespace Stack

/-- The stack put on top of another one. -/
def onto (s base : Stack) : Stack := ⟨base.words ++ s.words⟩

@[simp] theorem toList_onto (s base : Stack) : (s.onto base).toList = base.toList ++ s.toList := by
  simp [onto, toList]

@[simp] theorem size_onto (s base : Stack) : (s.onto base).size = base.size + s.size := by
  simp [onto, size]

theorem push_onto (s base : Stack) (w : Word) : (s.push w).onto base = (s.onto base).push w := by
  simp [onto, push]

/-- A word that can be popped at all is popped from the upper stack. -/
theorem pop_onto {s : Stack} {w : Word} (h : s.peek? = some w) (base : Stack) :
    s.pop.onto base = (s.onto base).pop := by
  have hs := congrArg (Stack.onto · base) (peek?_eq_some_iff.mp h)
  rw [hs, push_onto, pop_push]

theorem peek?_onto {s : Stack} {w : Word} (h : s.peek? = some w) (base : Stack) :
    (s.onto base).peek? = some w := by
  rw [peek?_eq_some_iff.mp h, push_onto, peek?_push]

theorem peek2?_onto {s : Stack} {a b : Word} (h : s.peek2? = some (a, b)) (base : Stack) :
    (s.onto base).peek2? = some (a, b) ∧ s.pop.pop.onto base = (s.onto base).pop.pop := by
  have hs : s.onto base = ((s.pop.pop.onto base).push b).push a := by
    rw [← push_onto, ← push_onto, ← peek2?_eq_some_iff.mp h]
  rw [hs, peek2?_push_push, pop_push, pop_push]
  exact ⟨rfl, rfl⟩

end Stack

/-- The event as it is logged with more words beneath the stack. -/
def Event.deeper (more : Nat) : Event → Event
  | executing address op depth => executing address op (more + depth)
  | e => e

namespace Machine

variable {σ : Type}

/-- The same machine, with a base beneath its stack. -/
def onto (m : Machine σ) (base : Stack) : Machine σ := { m with stack := m.stack.onto base }

theorem push_onto (m : Machine σ) (w : Word) (base : Stack) :
    (m.push w).onto base = (m.onto base).push w :=
  congrArg (fun stack => { m with stack }) (Stack.push_onto m.stack base w)

theorem pop_onto {m : Machine σ} {w : Word} (h : m.stack.peek? = some w) (base : Stack) :
    m.pop.onto base = (m.onto base).pop :=
  congrArg (fun stack => { m with stack }) (Stack.pop_onto h base)

theorem pop_pop_onto {m : Machine σ} {a b : Word} (h : m.stack.peek2? = some (a, b)) (base : Stack) :
    m.pop.pop.onto base = (m.onto base).pop.pop :=
  congrArg (fun stack => { m with stack }) (Stack.peek2?_onto h base).2

/-- The next step loads from the bottom of the stack. -/
def loads (p : Program) (m : Machine σ) : Bool :=
  match m.status, p.fetch m.ip with
  | .running, .instruction (.load _) => true
  | _, _ => false

variable [Sink σ]

/-- An instruction that is no load and finds the words it wants does the same on any base. -/
theorem Executes.onto {address : Nat} {m : Machine σ} {i : Instruction}
    {done : Except Fault Unit × Machine σ} (h : Executes address m i done)
    (hload : ∀ slot, i ≠ .load slot) (hunderflow : done.1 ≠ .error (.stackUnderflow address))
    (base : Stack) : Executes address (m.onto base) i (done.1, done.2.onto base) := by
  have hpeek {w : Word} (hstack : m.stack.peek? = some w) : (m.onto base).stack.peek? = some w :=
    Stack.peek?_onto hstack base
  cases h with
  | const =>
    rw [push_onto]
    exact .const
  | binary hstack =>
    rw [push_onto, pop_pop_onto hstack]
    exact .binary (Stack.peek2?_onto hstack base).1
  | jump htarget => exact .jump htarget
  | @taken _ _ _ ip hstack htaken htarget =>
    change Executes _ _ _ (_, { m.pop.onto base with ip })
    rw [pop_onto hstack]
    exact .taken (hpeek hstack) htaken htarget
  | passed hstack hpassed =>
    rw [pop_onto hstack]
    exact .passed (hpeek hstack) hpassed
  | gload hslot =>
    rw [push_onto]
    exact .gload hslot
  | @stored _ _ value k hi hslot hstack hreach =>
    change Executes _ _ _ (_, (m.pop.onto base).assign k value)
    rw [pop_onto hstack]
    exact .stored hi hslot (hpeek hstack) hreach
  | load => exact absurd rfl (hload _)
  | @printed _ sink hstack hsink =>
    change Executes _ _ _ (_, { m.pop.onto base with sink })
    rw [pop_onto hstack]
    exact .printed (hpeek hstack) hsink
  | halt => exact .halt
  | underflow => exact absurd rfl hunderflow
  | noAddress hi hw => exact .noAddress hi hw
  | pastTop => exact absurd rfl (hload _)
  | takenNowhere hstack htaken htarget =>
    rw [pop_onto hstack]
    exact .takenNowhere (hpeek hstack) htaken htarget
  | outOfReach hi hslot hstack hreach =>
    rw [pop_onto hstack]
    exact .outOfReach hi hslot (hpeek hstack) hreach
  | @refused _ _ sink hstack hsink =>
    change Executes _ _ _ (_, { m.pop.onto base with sink })
    rw [pop_onto hstack]
    exact .refused (hpeek hstack) hsink

/-- The next step fails for want of words on the stack. -/
def underflows (p : Program) (m : Machine σ) : Bool :=
  match (m.step p).result with
  | .error (.stackUnderflow _) => true
  | _ => false

/-- A step that neither loads nor underflows is the same on any base: it returns the same, leaves the
same machine on that base, and logs the same but for the depth. -/
theorem step_onto {p : Program} {m : Machine σ} (hload : m.loads p = false)
    (hunderflow : m.underflows p = false) (base : Stack) :
    (m.onto base).step p = ⟨(m.step p).machine.onto base, (m.step p).result,
      (m.step p).events.map (Event.deeper base.size)⟩ := by
  have hdepth : (m.onto base).stack.size = base.size + m.stack.size := Stack.size_onto m.stack base
  have hinstruction {i : Instruction} (hrun : m.status = .running)
      (hfetch : p.fetch m.ip = .instruction i) : ∀ slot, i ≠ .load slot := by
    rintro slot rfl
    simp [loads, hrun, hfetch] at hload
  have hsteps := step_steps p m
  unfold underflows at hunderflow
  generalize m.step p = s at hsteps hunderflow
  cases hsteps with
  | idle hhalted => exact step_of_halted hhalted
  | ranOff hrun hfetch => exact step_of_pastEnd hrun hfetch
  | unknown hrun hfetch => exact step_of_unknown hrun hfetch
  | truncated hrun hfetch =>
    rw [step_of_truncated (m := m.onto base) hrun hfetch, hdepth]
    rfl
  | faulted hrun hfetch hexecutes =>
    have honto := hexecutes.onto (hinstruction hrun hfetch)
      (by rintro ⟨⟩; simp [fail] at hunderflow) base
    rw [(Steps.faulted (m := m.onto base) hrun hfetch honto).step_eq, hdepth]
    rfl
  | @executed i _ hrun hfetch hexecutes =>
    have honto := hexecutes.onto (hinstruction hrun hfetch) (by simp) base
    rw [(Steps.executed (m := m.onto base) hrun hfetch honto).step_eq, hdepth]
    by_cases hi : i = .halt
    · simp only [if_pos hi]
      rfl
    · simp only [if_neg hi]
      rfl

/-- As long as no step loads or underflows, a run on a base is the same run. -/
theorem after_onto {p : Program} {m : Machine σ} {n : Nat}
    (hload : ∀ k < n, (m.after p k).loads p = false)
    (hunderflow : ∀ k < n, (m.after p k).underflows p = false) (base : Stack) :
    ∀ k ≤ n, (m.onto base).after p k = (m.after p k).onto base := by
  intro k hk
  induction k with
  | zero => rfl
  | succ k ih =>
    rw [after_succ, after_succ, ih (Nat.le_of_succ_le hk), step_onto (hload k hk) (hunderflow k hk)]

/-- Words beneath the stack do not matter to a run. With any program, any sink and any base, from any
machine and for any number of steps of which none loads and none underflows: put on the base, the machine
goes through the same states step for step, with the base beneath the stack, and each step returns the
same, also if it fails for another reason. -/
theorem frame_law (p : Program) (base : Stack) (σ : Type) [Sink σ] (m : Machine σ) (n : Nat)
    (hload : ∀ k < n, (m.after p k).loads p = false)
    (hunderflow : ∀ k < n, (m.after p k).underflows p = false) :
    (∀ k < n, (((m.onto base).after p k).step p).result = ((m.after p k).step p).result) ∧
    ∀ k ≤ n, (m.onto base).after p k = (m.after p k).onto base := by
  refine ⟨fun k hk => ?_, after_onto hload hunderflow base⟩
  rw [after_onto hload hunderflow base k (Nat.le_of_lt hk), step_onto (hload k hk) (hunderflow k hk)]

/-- An addition, a print and a jump to no address use up what is on the stack, and leave the base. -/
theorem frame_law_spent :
    let p : Program := .ofList [2, 14, 1, 0, 9, -1]
    let m : Machine Transcript := { stack := .ofList [5, 6], sink := {} }
    (((m.onto (.ofList [8, 9])).after p 3).step p).result.isOk = false ∧
    (m.onto (.ofList [8, 9])).after p 4 =
      { ip := 6, status := .halted, stack := .ofList [8, 9], sink := { text := "11\n" } } := by
  intro p m
  have hlaw := frame_law p (.ofList [8, 9]) Transcript m 4 (by decide) (by decide)
  rw [hlaw.1 3 (by decide), hlaw.2 4 (by decide)]
  exact ⟨by decide, by decide⟩

end Machine

end StackAssembly
