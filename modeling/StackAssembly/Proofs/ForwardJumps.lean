import StackAssembly.Proofs.StepAndRun

/-! Programs that only jump forwards. Every step takes the machine further into such a program, so a run
is over after at most one step more than the program has words. -/
namespace StackAssembly

/-- Wherever the word of a jump stands, the word behind it is negative or names a later address. This is
asked of every address, also of those that no execution comes to. -/
def Program.ForwardOnly (p : Program) : Prop :=
  ∀ address < p.size, ∀ op ∈ [Opcode.jmp, .jmpt, .jmpf], p.get? address = some op.word →
    (p.get? (address + 1)).all fun target => target.toInt < 0 ∨ (address : Int) < target.toInt

instance (p : Program) : Decidable p.ForwardOnly :=
  inferInstanceAs (Decidable (∀ address < p.size, _))

/-- A jump that is taken goes on behind its own address. -/
theorem Program.ForwardOnly.lt_of_fetch {p : Program} (hp : p.ForwardOnly) {address next : Nat}
    {i : Instruction} {target : Word} (hfetch : p.fetch address = .instruction i)
    (htarget : i.target? = some target) (hnext : Word.address? target = some next) : address < next := by
  obtain ⟨hop, hoperand⟩ := Program.get?_of_fetch hfetch
  obtain ⟨hw, hjump⟩ := Instruction.operand?_of_target? htarget
  have hforward := hp address (Program.lt_size_of_get? hop) i.opcode hjump hop
  rw [hoperand target hw, Option.all_some, decide_eq_true_iff] at hforward
  rw [Word.address?_eq_some_iff] at hnext
  omega

namespace Machine

variable {σ : Type} [Sink σ] {p : Program} {m : Machine σ}

/-- A step that returns `running` leaves the machine running. -/
theorem running_of_step (h : (m.step p).result = .ok .running) : (m.step p).machine.status = .running := by
  have hsteps := step_steps p m
  generalize m.step p = s at h hsteps
  cases hsteps with
  | idle | ranOff | unknown | truncated | faulted => cases h
  | executed => exact Except.ok.inj h

/-- As long as the machine runs, a step takes it further. -/
theorem ip_lt_step (hp : p.ForwardOnly) (h : (m.step p).machine.status = .running) :
    m.ip < (m.step p).machine.ip := by
  obtain ⟨hrun, i, hfetch⟩ := fetch_of_step_running h
  rcases step_ip hrun hfetch with hip | ⟨target, htarget, hnext⟩
  · rw [hip, Instruction.size]
    omega
  · exact hp.lt_of_fetch hfetch htarget hnext

/-- So many steps take a machine at least so many words further. -/
theorem ip_add_le_after (hp : p.ForwardOnly) {n : Nat} (h : (m.after p n).status = .running) :
    m.ip + n ≤ (m.after p n).ip := by
  induction n with
  | zero => exact Nat.le_refl m.ip
  | succ n ih =>
    rw [after_succ] at h ⊢
    have hfurther := ip_lt_step hp h
    have hbefore := ih (fetch_of_step_running h).1
    omega

/-- With a program that has no words left to go on to, the machine stops. -/
theorem exists_stopsAt_le (hp : p.ForwardOnly) (m : Machine σ) : ∃ n ≤ p.size, StopsAt p m n := by
  rcases goes_or_stops p m (p.size + 1) with hgoes | ⟨n, hn, hstops⟩
  · obtain ⟨hrun, i, hfetch⟩ := fetch_of_step_running (running_of_step (hgoes p.size (Nat.lt_succ_self _)))
    have hip := ip_add_le_after hp hrun
    rw [Program.fetch_eq_pastEnd_iff.mpr (Nat.le_of_add_left_le hip)] at hfetch
    cases hfetch
  · exact ⟨n, Nat.le_of_lt_succ hn, hstops⟩

/-- Programs that only jump forwards always stop. Whatever the sink, a run from the start that may make
one step more than the program has words comes to its end, no run makes more steps, and every step that
leaves the machine running has moved it forwards. -/
theorem forward_run_stops (p : Program) (hp : p.ForwardOnly) (σ : Type) [Sink σ] (sink : σ)
    (keep : Event → Bool) :
    (∃ verdict, ((start sink).run p keep (p.size + 1)).verdict? = some verdict) ∧
    (∀ limit, ((start sink).run p keep limit).count ≤ p.size + 1) ∧
    ∀ n, ((start sink).after p (n + 1)).status = .running →
      ((start sink).after p n).ip < ((start sink).after p (n + 1)).ip := by
  obtain ⟨n, hn, hstops⟩ := exists_stopsAt_le hp (start sink)
  refine ⟨⟨_, (run_of_stopsAt keep hstops (Nat.lt_succ_of_le hn)).1⟩, fun limit => ?_, fun k hrun => ?_⟩
  · rw [hstops.count_run]
    omega
  · rw [after_succ] at hrun ⊢
    exact ip_lt_step hp hrun

/-- A jump over words that are no opcodes into the operand of another instruction, which is read as an
addition there, and then a jump past the end. -/
theorem forward_run_stops_detour :
    let p : Program := .ofList [1, 2, 1, 20, 1, 0, 9, 11, 99, 99, 1, 2, 7, 100]
    let run := (start ({} : Transcript)).run p (fun _ => true)
    p.ForwardOnly ∧ (∃ verdict, (run 15).verdict? = some verdict) ∧ ∀ limit, (run limit).count ≤ 15 := by
  intro p run
  have hp : p.ForwardOnly := by decide
  obtain ⟨hverdict, hcount, -⟩ := forward_run_stops p hp Transcript {} fun _ => true
  exact ⟨hp, hverdict, hcount⟩

end Machine

end StackAssembly
