import StackAssembly.Proofs.StepAndRun

/-! The log of an execution tells it again: every instruction in turn with its address and the depth of
the stack, and in the end why it stopped. -/
namespace StackAssembly

/-- An event as it is shown: level, message and fields. -/
def Event.shown (e : Event) : Level × String × List (String × String) := (e.level, e.message, e.fields)

theorem Opcode.word_injective {op other : Opcode} (h : op.word = other.word) : op = other := by
  have hop := congrArg ofWord? h
  rw [ofWord?_word, ofWord?_word] at hop
  exact Option.some_inj.mp hop

namespace Machine

variable {σ : Type} {p : Program} {m : Machine σ}

/-- What the next step says of the instruction before it executes it. -/
def announced? (p : Program) (m : Machine σ) : Option Event :=
  (m.nextOpcode? p).map fun op => .executing m.ip op m.stack.size

theorem announced?_of_halted (h : m.status = .halted) : m.announced? p = none := by
  rw [announced?, nextOpcode?, h]
  rfl

theorem announced?_of_opcode {op : Opcode} (hrun : m.status = .running)
    (hop : p.get? m.ip = some op.word) :
    m.announced? p = some (.executing m.ip op m.stack.size) := by
  rw [announced?, nextOpcode?_eq_some_iff.mpr ⟨hrun, hop⟩]
  rfl

/-- Only a running machine has anything to announce. -/
theorem running_of_announced? {e : Event} (h : m.announced? p = some e) : m.status = .running := by
  obtain ⟨op, hop, -⟩ := Option.map_eq_some_iff.mp h
  exact (nextOpcode?_eq_some_iff.mp hop).1

theorem of_announced? {address depth : Nat} {op : Opcode}
    (h : m.announced? p = some (.executing address op depth)) :
    m.status = .running ∧ address = m.ip ∧ depth = m.stack.size ∧ p.get? m.ip = some op.word := by
  obtain ⟨found, hfound, hevent⟩ := Option.map_eq_some_iff.mp h
  obtain ⟨hrun, hop⟩ := nextOpcode?_eq_some_iff.mp hfound
  cases hevent
  exact ⟨hrun, rfl, rfl, hop⟩

/-- The next instruction, if it has this opcode, is a jump that is taken. -/
def TakesJump (m : Machine σ) : Opcode → Prop
  | .jmp => True
  | .jmpt => ∃ value, m.stack.peek? = some value ∧ value ≠ 0
  | .jmpf => m.stack.peek? = some 0
  | _ => False

/-- Where the execution goes on after the instruction with an opcode at an address. -/
def GoesOn (p : Program) (m : Machine σ) (address : Nat) (op : Opcode) (next : Nat) : Prop :=
  (m.TakesJump op → ∃ w, p.get? (address + 1) = some w ∧ w.toInt = next) ∧
    (¬ m.TakesJump op → next = address + 1 + op.arity)

variable [Sink σ]

/-- What so many steps say of their instructions, in order. -/
def announcements (p : Program) (m : Machine σ) (n : Nat) : List Event :=
  (List.range n).filterMap fun k => (m.after p k).announced? p

theorem announcements_succ (p : Program) (m : Machine σ) (n : Nat) :
    m.announcements p (n + 1) = m.announcements p n ++ ((m.after p n).announced? p).toList := by
  rw [announcements, List.range_succ, List.filterMap_append, announcements]
  cases hlast : (m.after p n).announced? p with
  | none => simp [hlast]
  | some e => simp [hlast]

/-- How the log closes when the next step is the last one, and what that step has announced. -/
inductive Closes (p : Program) (m : Machine σ) : (announced : Option Event) → Event → Prop where
  | halt (hop : p.get? m.ip = some Opcode.halt.word) :
    Closes p m (some (.executing m.ip .halt m.stack.size)) (.halted m.ip)
  | ranOff (hend : p.size ≤ m.ip) : Closes p m none (.ranOffEnd m.ip)
  | unknown {word : Word} (hword : p.get? m.ip = some word) (hop : Opcode.ofWord? word = none)
    (hfault : (m.step p).result = .error (.unknownOpcode m.ip word)) :
    Closes p m none (.failed (.unknownOpcode m.ip word))
  | failed {op : Opcode} {fault : Fault} (hop : p.get? m.ip = some op.word)
    (hfault : (m.step p).result = .error fault) :
    Closes p m (some (.executing m.ip op m.stack.size)) (.failed fault)

/-- How the log of so many steps closes. It is open as long as the machine runs. -/
inductive Closing (p : Program) (m : Machine σ) (n : Nat) : Option Event → Prop where
  | running (hrun : (m.after p n).status = .running) : Closing p m n none
  | ended {k : Nat} {announced : Option Event} {e : Event} (hk : k < n)
    (hrun : (m.after p k).status = .running) (hhalted : (m.after p (k + 1)).status = .halted)
    (hlast : m.announcements p n = m.announcements p k ++ announced.toList)
    (hcloses : Closes p (m.after p k) announced e) : Closing p m n (some e)

/-- An instruction goes on at the address that it names if it is a jump that is taken, and behind itself
otherwise. -/
theorem Executes.goes_on {address : Nat} {m' : Machine σ} {i : Instruction}
    (h : Executes address m i (.ok (), m')) :
    (m.TakesJump i.opcode → ∃ target, i.target? = some target ∧ Word.address? target = some m'.ip) ∧
      (¬ m.TakesJump i.opcode → m'.ip = m.ip) := by
  cases h with
  | jump htarget => exact ⟨fun _ => ⟨_, rfl, htarget⟩, fun hnot => absurd trivial hnot⟩
  | @taken condition _ value _ hstack htaken htarget =>
    refine ⟨fun _ => ⟨_, rfl, htarget⟩, fun hnot => absurd ?_ hnot⟩
    cases condition with
    | true => exact ⟨value, hstack, by simpa using htaken⟩
    | false =>
      obtain rfl : value = 0 := by simpa using htaken
      exact hstack
  | @passed condition _ value hstack hpassed =>
    refine ⟨fun hjump => ?_, fun _ => rfl⟩
    cases condition with
    | true =>
      obtain ⟨other, hother, hne⟩ := hjump
      cases hstack.symm.trans hother
      exact absurd (bne_iff_ne.mpr hne) hpassed
    | false =>
      cases hstack.symm.trans hjump
      exact absurd (bne_self_eq_false (0 : Word)) hpassed
  | @binary op _ _ _ =>
    refine ⟨fun hjump => ?_, fun _ => rfl⟩
    cases op <;> exact hjump.elim
  | stored hi =>
    refine ⟨fun hjump => ?_, fun _ => rfl⟩
    cases i <;> cases hi <;> exact hjump.elim
  | const | gload | load | printed | halt => exact ⟨fun hjump => hjump.elim, fun _ => rfl⟩

/-- Only a halt stops a machine that does not fail. -/
theorem Executes.status_of_ok {address : Nat} {m' : Machine σ} {i : Instruction}
    (h : Executes address m i (.ok (), m')) :
    m'.status = if i = .halt then .halted else m.status := by
  cases h with
  | stored hi => cases i <;> cases hi <;> rfl
  | _ => rfl

theorem goesOn_of_step {op : Opcode} (hop : p.get? m.ip = some op.word)
    (h : (m.step p).machine.status = .running) : GoesOn p m m.ip op (m.step p).machine.ip := by
  have hsteps := step_steps p m
  generalize m.step p = s at h hsteps
  cases hsteps with
  | idle hhalted => cases hhalted.symm.trans h
  | ranOff | unknown | truncated | faulted => cases h
  | @executed i m' _ hfetch hexecutes =>
    obtain ⟨hword, hoperand⟩ := Program.get?_of_fetch hfetch
    obtain rfl : op = i.opcode := Opcode.word_injective (Option.some_inj.mp (hop.symm.trans hword))
    obtain ⟨htaken, hpassed⟩ := hexecutes.goes_on
    refine ⟨fun hjump => ?_, fun hnot => ?_⟩
    · obtain ⟨target, htarget, haddress⟩ := htaken hjump
      exact ⟨target, hoperand target (Instruction.operand?_of_target? htarget).1,
        Word.address?_eq_some_iff.mp haddress⟩
    · rw [Nat.add_assoc, ← i.size_eq_arity]
      exact hpassed hnot

/-- A running machine announces its instruction, and says one thing more if it halts or fails. -/
theorem step_log (hrun : m.status = .running) :
    (m.step p).machine.status = .running ∧ (m.step p).events = (m.announced? p).toList ∨
      (m.step p).machine.status = .halted ∧ ∃ e, (m.step p).events = (m.announced? p).toList ++ [e] ∧
        Closes p m (m.announced? p) e := by
  have hsteps := step_steps p m
  generalize hs : m.step p = s at hsteps ⊢
  cases hsteps with
  | idle hhalted => cases hrun.symm.trans hhalted
  | ranOff _ hfetch =>
    have hend := Program.fetch_eq_pastEnd_iff.mp hfetch
    have hnone : m.announced? p = none := by
      simp only [announced?, nextOpcode?, hrun, Program.get?_eq_none_iff.mpr hend, Option.bind_none,
        Option.map_none]
    rw [hnone]
    exact .inr ⟨rfl, _, rfl, .ranOff hend⟩
  | unknown _ hfetch =>
    obtain ⟨hword, hop⟩ := Program.fetch_eq_unknown_iff.mp hfetch
    have hnone : m.announced? p = none := by
      simp only [announced?, nextOpcode?, hrun, hword, Option.bind_some, hop, Option.map_none]
    rw [hnone]
    exact .inr ⟨rfl, _, rfl, .unknown hword hop (congrArg Step.result hs)⟩
  | truncated _ hfetch =>
    obtain ⟨hop, -, -⟩ := Program.fetch_eq_truncated_iff.mp hfetch
    rw [announced?_of_opcode hrun hop]
    exact .inr ⟨rfl, _, rfl, .failed hop (congrArg Step.result hs)⟩
  | faulted _ hfetch =>
    have hop := (Program.get?_of_fetch hfetch).1
    rw [announced?_of_opcode hrun hop]
    exact .inr ⟨rfl, _, rfl, .failed hop (congrArg Step.result hs)⟩
  | @executed i _ _ hfetch hexecutes =>
    have hop := (Program.get?_of_fetch hfetch).1
    rw [announced?_of_opcode hrun hop]
    have hstatus := hexecutes.status_of_ok
    by_cases hi : i = .halt
    · subst hi
      exact .inr ⟨hstatus, _, rfl, .halt hop⟩
    · rw [if_neg hi] at hstatus ⊢
      exact .inl ⟨hstatus.trans hrun, rfl⟩

/-- Up to a running machine every step has announced its instruction. -/
theorem length_announcements {n : Nat} (h : (m.after p n).status = .running) :
    (m.announcements p n).length = n := by
  induction n with
  | zero => rfl
  | succ n ih =>
    rw [after_succ] at h
    obtain ⟨hrun, i, hfetch⟩ := fetch_of_step_running h
    rw [announcements_succ, announced?_of_opcode hrun (Program.get?_of_fetch hfetch).1,
      List.length_append, ih hrun]
    rfl

/-- The announcements are those of the first steps, one by one. -/
theorem announced?_of_getElem? {n i : Nat} {e : Event} (h : (m.announcements p n)[i]? = some e) :
    (m.after p i).announced? p = some e := by
  induction n with
  | zero => cases h
  | succ n ih =>
    rw [announcements_succ] at h
    rcases Nat.lt_or_ge i (m.announcements p n).length with hlt | hge
    · rw [List.getElem?_append_left hlt] at h
      exact ih h
    · rw [List.getElem?_append_right hge] at h
      cases hlast : (m.after p n).announced? p with
      | none =>
        rw [hlast] at h
        cases h
      | some last =>
        -- The machine runs, so all steps before have announced something and this is number `n`.
        rw [length_announcements (running_of_announced? hlast)] at h hge
        rw [hlast] at h
        rcases Nat.eq_or_lt_of_le hge with rfl | hgt
        · rw [Nat.sub_self] at h
          exact hlast.trans h
        · have hpast : (some last).toList.length ≤ i - n := Nat.sub_pos_of_lt hgt
          rw [List.getElem?_eq_none hpast] at h
          cases h

/-- The log is the announcements, and one event more once the machine has stopped. -/
theorem exists_closing (hm : m.status = .running) (n : Nat) :
    ∃ closing, m.log p n = m.announcements p n ++ closing.toList ∧ Closing p m n closing := by
  induction n with
  | zero => exact ⟨none, rfl, .running hm⟩
  | succ n ih =>
    obtain ⟨closing, hlog, hclosing⟩ := ih
    rw [log_succ, hlog]
    cases hclosing with
    | running hrun =>
      rcases step_log (p := p) hrun with ⟨hnext, hevents⟩ | ⟨hnext, e, hevents, hcloses⟩
      · refine ⟨none, ?_, .running (by rw [after_succ]; exact hnext)⟩
        rw [hevents, announcements_succ]
        simp
      · refine ⟨some e, ?_, .ended (Nat.lt_succ_self n) hrun (by rw [after_succ]; exact hnext)
          (announcements_succ p m n) hcloses⟩
        rw [hevents, announcements_succ]
        simp
    | @ended k announced e hk hrun hhalted hlast hcloses =>
      have hrest : (m.after p n).status = .halted := by
        rw [after_eq_of_halted hhalted hk]
        exact hhalted
      have hsame : m.announcements p (n + 1) = m.announcements p n := by
        rw [announcements_succ, announced?_of_halted hrest]
        exact List.append_nil _
      refine ⟨some e, ?_, .ended (Nat.lt_succ_of_lt hk) hrun hhalted (hsame.trans hlast) hcloses⟩
      rw [hsame, step_of_halted hrest, List.append_nil]

/-- The event that closes a log is no announcement. -/
theorem Closing.ne_executing {n : Nat} {closing : Option Event} (h : Closing p m n closing)
    (address : Nat) (op : Opcode) (depth : Nat) : closing ≠ some (.executing address op depth) := by
  cases h with
  | running => simp
  | ended _ _ _ _ hcloses => cases hcloses <;> simp

theorem Closing.announced?_of_log {n : Nat} {closing : Option Event} (h : Closing p m n closing)
    {i address depth : Nat} {op : Opcode}
    (hi : (m.announcements p n ++ closing.toList)[i]? = some (.executing address op depth)) :
    (m.after p i).announced? p = some (.executing address op depth) := by
  rcases Nat.lt_or_ge i (m.announcements p n).length with hlt | hge
  · rw [List.getElem?_append_left hlt] at hi
    exact announced?_of_getElem? hi
  · rw [List.getElem?_append_right hge] at hi
    exact absurd (Option.mem_toList.mp (List.mem_of_getElem? hi)) (h.ne_executing address op depth)

/-- A log tells of so many steps of a fresh machine. -/
structure Replays (p : Program) (sink : σ) (n : Nat) (log : List Event) : Prop where
  events : ∃ closing, log = (start sink).announcements p n ++ closing.toList ∧
    Closing p (start sink) n closing
  first : ∀ address op depth, log.head? = some (.executing address op depth) →
    address = 0 ∧ depth = 0
  next : ∀ i address op depth address' op' depth', log[i]? = some (.executing address op depth) →
    log[i + 1]? = some (.executing address' op' depth') →
      GoesOn p ((start sink).after p i) address op address'

theorem replays_log (p : Program) (sink : σ) (n : Nat) : Replays p sink n ((start sink).log p n) := by
  obtain ⟨closing, hlog, hclosing⟩ := exists_closing (p := p) (m := start sink) rfl n
  refine ⟨⟨closing, hlog, hclosing⟩, fun address op depth hfirst => ?_,
    fun i address op depth address' op' depth' hi hnext => ?_⟩
  · rw [hlog, List.head?_eq_getElem?] at hfirst
    obtain ⟨-, haddress, hdepth, -⟩ := of_announced? (hclosing.announced?_of_log hfirst)
    exact ⟨haddress, hdepth⟩
  · rw [hlog] at hi hnext
    obtain ⟨-, rfl, -, hop⟩ := of_announced? (hclosing.announced?_of_log hi)
    obtain ⟨hrun, rfl, -, -⟩ := of_announced? (hclosing.announced?_of_log hnext)
    rw [after_succ] at hrun ⊢
    exact goesOn_of_step hop hrun

/-- The log of an execution replays it. Whatever calls have been made on a fresh machine with any program
and any sink, and however far a run has come that is still under way: the listener has heard of each of
the steps that were made, of the instruction with a known opcode in turn, with its address and the depth
of the stack before it, and then at most of a halt, of the end of the program or of a fault. The first
instruction is at address 0 on an empty stack, and each goes on where the one before it leads. -/
theorem log_replays_execution (p : Program) (σ : Type) [Sink σ] (sink : σ) (calls : List Call)
    (replies : List (Reply σ)) (m : Machine σ)
    (hsession : Session p (fun _ => true) (start sink) calls replies m) (limit : Nat) :
    (∃ n, (∀ k, Makes p (fun _ => true) (start sink) calls k ↔ k = n) ∧
      (m.run p (fun _ => true) limit).machine =
        (start sink).after p (n + (m.run p (fun _ => true) limit).count) ∧
      Replays p sink (n + (m.run p (fun _ => true) limit).count)
        (replies.flatMap Reply.events ++ (m.run p (fun _ => true) limit).events.toList)) ∧
    (∀ address op depth, (Event.executing address op depth).shown =
      (.trace, "exec", [("address", address.repr), ("op", op.mnemonic), ("depth", depth.repr)])) ∧
    (∀ address, (Event.halted address).shown = (.debug, "halt", [("address", address.repr)])) ∧
    (∀ address, (Event.ranOffEnd address).shown =
      (.debug, "ran off the end of the program", [("address", address.repr)])) ∧
    ∀ fault, (Event.failed fault).shown = (.warn, "runtime error", [("error", fault.message)]) := by
  refine ⟨?_, fun _ _ _ => rfl, fun _ => rfl, fun _ => rfl, fun _ => rfl⟩
  obtain ⟨n, hmakes, rfl, hreplies⟩ := hsession.steps
  have hmade := run_made p (fun _ => true) ((start sink).after p n) limit
  refine ⟨n, fun k => ⟨fun hk => hk.unique hmakes, fun hk => hk ▸ hmakes⟩, ?_, ?_⟩
  · rw [after_add]
    exact hmade.machine
  · rw [hreplies, hmade.events, ← List.filter_append, ← log_add, List.filter_eq_self.mpr fun _ _ => rfl]
    exact replays_log p sink _

/-- A conditional jump over a word that is no opcode, to a print that finds no value: four steps, the last
of which is idle. And a loop of one instruction, three times around. -/
theorem log_replays_detour :
    let p : Program := .ofList [1, 1, 8, 5, 99, 14]
    let loop : Program := .ofList [7, 0]
    (∃ replies m, Session p (fun _ => true) (start ({} : Transcript)) [.step, .run, .step] replies m ∧
      Makes p (fun _ => true) (start ({} : Transcript)) [.step, .run, .step] 4 ∧
      replies.flatMap Reply.events = [.executing 0 .iconst 0, .executing 2 .jmpt 1,
        .executing 5 .print 0, .failed (.stackUnderflow 5)] ∧
      Replays p ({} : Transcript) 4 (replies.flatMap Reply.events)) ∧
    ∃ replies m, Session loop (fun _ => true) (start ({} : Transcript)) [.step, .step] replies m ∧
      (m.run loop (fun _ => true) 1).count = 1 ∧
      replies.flatMap Reply.events ++ (m.run loop (fun _ => true) 1).events.toList =
        List.replicate 3 (.executing 0 .jmp 0) ∧
      Replays loop ({} : Transcript) 3
        (replies.flatMap Reply.events ++ (m.run loop (fun _ => true) 1).events.toList) := by
  intro p loop
  constructor
  · have hsession : Session p (fun _ => true) (start ({} : Transcript)) [.step, .run, .step] _ _ :=
      .cons .step (.cons (.run 2 (Option.some_get (by decide)).symm) (.cons .step .nil))
    have hmakes : Makes p (fun _ => true) (start ({} : Transcript)) [.step, .run, .step] 4 :=
      .step (.run 2 (Option.some_get (by decide)).symm (.step .nil))
    obtain ⟨n, hn, -, hreplays⟩ := (log_replays_execution p Transcript {} _ _ _ hsession 0).1
    obtain rfl := (hn 4).mp hmakes
    exact ⟨_, _, hsession, hmakes, by decide, by simpa [run, Run.advance] using hreplays⟩
  · have hsession : Session loop (fun _ => true) (start ({} : Transcript)) [.step, .step] _ _ :=
      .cons .step (.cons .step .nil)
    obtain ⟨n, hn, -, hreplays⟩ := (log_replays_execution loop Transcript {} _ _ _ hsession 1).1
    obtain rfl := (hn 2).mp (.step (.step .nil))
    exact ⟨_, _, hsession, by decide, by decide, hreplays⟩

end Machine

end StackAssembly
