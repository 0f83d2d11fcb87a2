import StackAssembly.Machine.Run
import StackAssembly.Proofs.InstructionEffects

/-! Steps and whole runs, called in any order on one machine. They all go along the same execution; the
call that comes to its end is the last to do anything. -/
namespace StackAssembly

/-- The two ways to set a machine going. -/
inductive Call where
  | step | run
  deriving DecidableEq, Repr

/-- What a call returns. -/
inductive Answer where
  /-- A step has been made and leaves the machine in this status. -/
  | stands (status : Status)
  /-- A run has come to its end. -/
  | finished
  | failed (fault : Fault)
  deriving DecidableEq, Repr

namespace Answer

def ofStep : Except Fault Status → Answer
  | .ok status => stands status
  | .error fault => failed fault

def ofRun : Except Fault Unit → Answer
  | .ok () => finished
  | .error fault => failed fault

def isFailure : Answer → Bool
  | failed _ => true
  | stands _ | finished => false

end Answer

/-- What a call leaves behind: the machine, the answer, and what has been logged, as far as the listener
cares for it. -/
structure Reply (σ : Type) where
  machine : Machine σ
  answer : Answer
  events : List Event

namespace Run

variable {σ : Type} (keep : Event → Bool)

/-- A run goes on after a step that has left the machine running. -/
theorem verdict?_record_of_running (r : Run σ) {s : Step σ} (h : s.result = .ok .running) :
    (r.record keep s).verdict? = none := by
  simp only [verdict?, record, h]

/-- Any other step is the last one, and the run ends as the step did. -/
theorem verdict?_record (r : Run σ) {s : Step σ} (h : s.result ≠ .ok .running) :
    (r.record keep s).verdict? = some (s.result.map fun _ => ()) := by
  simp only [verdict?, record]
  cases hresult : s.result with
  | error fault => rfl
  | ok status =>
    cases status with
    | running => exact absurd hresult h
    | halted => rfl

theorem toList_events_record (r : Run σ) (s : Step σ) :
    (r.record keep s).events.toList = r.events.toList ++ s.events.filter keep := by
  simp [record]

variable {keep : Event → Bool} [Sink σ] {p : Program}

theorem advance_of_verdict? {r : Run σ} {verdict : Except Fault Unit} (h : r.verdict? = some verdict)
    (limit : Nat) : r.advance p keep limit = r := by
  cases limit with
  | zero => rfl
  | succ limit => rw [advance, h, Option.isSome_some, if_pos rfl]

theorem advance_succ {r : Run σ} (h : r.verdict? = none) (limit : Nat) :
    r.advance p keep (limit + 1) = (r.record keep (r.machine.step p)).advance p keep limit := by
  rw [advance, h, Option.isSome_none, if_neg Bool.false_ne_true]

end Run

namespace Machine

variable {σ : Type} [Sink σ] {p : Program} {keep : Event → Bool} {m : Machine σ}

/-- The events of so many steps. -/
def log (p : Program) : Nat → Machine σ → List Event
  | 0, _ => []
  | n + 1, m => (m.step p).events ++ log p n (m.step p).machine

theorem log_add (p : Program) (n k : Nat) (m : Machine σ) :
    m.log p (n + k) = m.log p n ++ (m.after p n).log p k := by
  induction n generalizing m with
  | zero => rw [Nat.zero_add, log, after, List.nil_append]
  | succ n ih => rw [Nat.succ_add, log, ih, log, after, List.append_assoc]

theorem log_succ (p : Program) (n : Nat) (m : Machine σ) :
    m.log p (n + 1) = m.log p n ++ ((m.after p n).step p).events := by
  rw [log_add, log, log, List.append_nil]

theorem log_of_halted (h : m.status = .halted) (n : Nat) : m.log p n = [] := by
  induction n with
  | zero => rfl
  | succ n ih => rw [log_succ, ih, after_of_halted h, step_of_halted h, List.append_nil]

/-- A step that does not return `running` leaves a halted machine, however it ends. -/
theorem halted_of_step (h : (m.step p).result ≠ .ok .running) :
    (m.step p).machine.status = .halted := by
  have hsteps := step_steps p m
  generalize m.step p = s at h hsteps
  cases hsteps with
  | idle hhalted => exact hhalted
  | ranOff | unknown | truncated | faulted => rfl
  | @executed _ m' _ _ _ =>
    cases hstatus : m'.status with
    | halted => rfl
    | running => exact absurd (congrArg Except.ok hstatus) h

/-- The step after so many others is the first that does not return `running`: it finds the machine
halted, halts it or fails. -/
structure StopsAt (p : Program) (m : Machine σ) (n : Nat) : Prop where
  before : ∀ k < n, ((m.after p k).step p).result = .ok .running
  stops : ((m.after p n).step p).result ≠ .ok .running

theorem StopsAt.unique {n k : Nat} (hn : StopsAt p m n) (hk : StopsAt p m k) : n = k := by
  rcases Nat.lt_trichotomy n k with hlt | rfl | hlt
  · exact absurd (hk.before n hlt) hn.stops
  · rfl
  · exact absurd (hn.before k hlt) hk.stops

theorem StopsAt.halted {n : Nat} (h : StopsAt p m n) : (m.after p (n + 1)).status = .halted := by
  rw [after_succ]
  exact halted_of_step h.stops

theorem stopsAt_of_halted (h : m.status = .halted) : StopsAt p m 0 := by
  refine ⟨fun k hk => absurd hk (Nat.not_lt_zero k), ?_⟩
  rw [after, step_of_halted h]
  simp

/-- Either all of the first steps return `running`, or the machine stops at one of them. -/
theorem goes_or_stops (p : Program) (m : Machine σ) (limit : Nat) :
    (∀ k < limit, ((m.after p k).step p).result = .ok .running) ∨ ∃ n < limit, StopsAt p m n := by
  induction limit with
  | zero => exact .inl fun k hk => absurd hk (Nat.not_lt_zero k)
  | succ limit ih =>
    rcases ih with hgoes | ⟨n, hn, hstops⟩
    · by_cases hlast : ((m.after p limit).step p).result = .ok .running
      · left
        intro k hk
        rcases Nat.lt_succ_iff_lt_or_eq.mp hk with hk | rfl
        · exact hgoes k hk
        · exact hlast
      · exact .inr ⟨limit, Nat.lt_succ_self limit, hgoes, hlast⟩
    · exact .inr ⟨n, Nat.lt_succ_of_lt hn, hstops⟩

/-- A run has made so many steps of a machine, has counted them, and has been heard of as they are. -/
structure Made (p : Program) (keep : Event → Bool) (m : Machine σ) (n : Nat) (r : Run σ) : Prop where
  count : r.count = n
  machine : r.machine = m.after p n
  events : r.events.toList = (m.log p n).filter keep

theorem Made.record {n : Nat} {r : Run σ} (h : Made p keep m n r) :
    Made p keep m (n + 1) (r.record keep (r.machine.step p)) := by
  constructor
  · rw [Run.record, h.count]
  · rw [after_succ, ← h.machine]
    rfl
  · rw [Run.toList_events_record, h.events, log_succ, h.machine, List.filter_append]

/-- While steps return `running`, a run is on its way through them. -/
theorem run_add_of_running (keep : Event → Bool) {n : Nat}
    (h : ∀ k < n, ((m.after p k).step p).result = .ok .running) :
    ∃ r : Run σ, r.verdict? = none ∧ Made p keep m n r ∧
      ∀ limit, m.run p keep (n + limit) = r.advance p keep limit := by
  induction n with
  | zero => exact ⟨{ machine := m }, rfl, ⟨rfl, rfl, rfl⟩, fun limit => by rw [Nat.zero_add]; rfl⟩
  | succ n ih =>
    obtain ⟨r, hverdict, hmade, hrun⟩ := ih fun k hk => h k (Nat.lt_succ_of_lt hk)
    have hlast := h n (Nat.lt_succ_self n)
    rw [← hmade.machine] at hlast
    refine ⟨_, r.verdict?_record_of_running keep hlast, hmade.record, fun limit => ?_⟩
    rw [Nat.add_right_comm, Nat.add_assoc, hrun, Run.advance_succ hverdict]

/-- The reply of a run whose last step comes after so many others. -/
def stopped (p : Program) (keep : Event → Bool) (m : Machine σ) (n : Nat) : Reply σ where
  machine := m.after p (n + 1)
  answer := .ofRun (((m.after p n).step p).result.map fun _ => ())
  events := (m.log p (n + 1)).filter keep

/-- A call returns a reply. A step always does, a run if the machine halts or fails in the end. -/
inductive Returns (p : Program) (keep : Event → Bool) (m : Machine σ) : Call → Reply σ → Prop where
  | step : Returns p keep m .step
    ⟨(m.step p).machine, .ofStep (m.step p).result, (m.step p).events.filter keep⟩
  | run (limit : Nat) {verdict : Except Fault Unit}
    (hverdict : (m.run p keep limit).verdict? = some verdict) : Returns p keep m .run
    ⟨(m.run p keep limit).machine, .ofRun verdict, (m.run p keep limit).events.toList⟩

/-- With fewer steps than it takes to stop, a run gets no verdict. -/
theorem run_of_running (keep : Event → Bool) {limit : Nat}
    (h : ∀ k < limit, ((m.after p k).step p).result = .ok .running) :
    (m.run p keep limit).verdict? = none ∧ Made p keep m limit (m.run p keep limit) := by
  obtain ⟨r, hverdict, hmade, hadvance⟩ := run_add_of_running keep h
  have hrun : m.run p keep limit = r := hadvance 0
  rw [hrun]
  exact ⟨hverdict, hmade⟩

theorem run_of_stopsAt (keep : Event → Bool) {n limit : Nat} (h : StopsAt p m n) (hn : n < limit) :
    (m.run p keep limit).verdict? = some (((m.after p n).step p).result.map fun _ => ()) ∧
      Made p keep m (n + 1) (m.run p keep limit) := by
  obtain ⟨r, hverdict, hmade, hadvance⟩ := run_add_of_running keep h.before
  have hstops := h.stops
  rw [← hmade.machine] at hstops ⊢
  have hlast := r.verdict?_record keep hstops
  obtain ⟨more, rfl⟩ := Nat.exists_eq_add_of_lt hn
  have hrun : m.run p keep (n + more + 1) = r.record keep (r.machine.step p) := by
    rw [Nat.add_assoc, hadvance, Run.advance_succ hverdict, Run.advance_of_verdict? hlast]
  rw [hrun]
  exact ⟨hlast, hmade.record⟩

/-- However many steps a run may make, it has made those that it has counted. -/
theorem run_made (p : Program) (keep : Event → Bool) (m : Machine σ) (limit : Nat) :
    Made p keep m (m.run p keep limit).count (m.run p keep limit) := by
  rcases goes_or_stops p m limit with hgoes | ⟨n, hn, hstops⟩
  · have hmade := (run_of_running keep hgoes).2
    rwa [hmade.count]
  · have hmade := (run_of_stopsAt keep hstops hn).2
    rwa [hmade.count]

/-- A run that has come to its end has stopped where the machine does. -/
theorem exists_stopsAt_of_verdict? {limit : Nat} {verdict : Except Fault Unit}
    (h : (m.run p keep limit).verdict? = some verdict) : ∃ n < limit, StopsAt p m n := by
  rcases goes_or_stops p m limit with hgoes | hstops
  · cases (run_of_running keep hgoes).1.symm.trans h
  · exact hstops

/-- A run is steps up to the first that does not return `running`, and returns what that one does. -/
theorem returns_run_iff {reply : Reply σ} :
    Returns p keep m .run reply ↔ ∃ n, StopsAt p m n ∧ reply = m.stopped p keep n := by
  constructor
  · rintro (_ | @⟨limit, verdict, hverdict⟩)
    obtain ⟨n, hn, hstops⟩ := exists_stopsAt_of_verdict? hverdict
    obtain ⟨hlast, hmade⟩ := run_of_stopsAt keep hstops hn
    cases hlast.symm.trans hverdict
    exact ⟨n, hstops, by rw [hmade.machine, hmade.events, stopped]⟩
  · rintro ⟨n, hstops, rfl⟩
    obtain ⟨hlast, hmade⟩ := run_of_stopsAt keep hstops (Nat.lt_succ_self n)
    have hreturns := Returns.run (n + 1) hlast
    rwa [hmade.machine, hmade.events] at hreturns

theorem stopsAt_after_iff {k n : Nat}
    (hk : ∀ j < k, ((m.after p j).step p).result = .ok .running) :
    StopsAt p (m.after p k) n ↔ StopsAt p m (k + n) := by
  have hsteps := forall_after_add (p := p) (P := fun m => (m.step p).result = .ok .running) (m := m) k n
  constructor
  · intro h
    exact ⟨hsteps.mpr ⟨hk, h.before⟩, by rw [after_add]; exact h.stops⟩
  · intro h
    exact ⟨(hsteps.mp h.before).2, by rw [← after_add]; exact h.stops⟩

/-- A run makes the step at which the machine stops and none after it. -/
theorem StopsAt.count_run {n : Nat} (h : StopsAt p m n) (limit : Nat) :
    (m.run p keep limit).count = min limit (n + 1) := by
  rcases Nat.lt_or_ge n limit with hlt | hge
  · rw [(run_of_stopsAt keep h hlt).2.count, Nat.min_eq_right hlt]
  · have hgoes := run_of_running keep fun k hk => h.before k (Nat.lt_of_lt_of_le hk hge)
    rw [hgoes.2.count, Nat.min_eq_left (Nat.le_succ_of_le hge)]

theorem StopsAt.after_eq {n k : Nat} (h : StopsAt p m n) (hk : n < k) :
    m.after p k = m.after p (n + 1) :=
  after_eq_of_halted h.halted hk

/-- Only the step at which the machine stops can fail. -/
theorem StopsAt.eq_of_error {n j : Nat} {fault : Fault} (h : StopsAt p m n)
    (hj : ((m.after p j).step p).result = .error fault) : j = n := by
  rcases Nat.lt_trichotomy j n with hlt | rfl | hlt
  · cases (h.before j hlt).symm.trans hj
  · rfl
  · rw [h.after_eq hlt, step_of_halted h.halted] at hj
    cases hj

/-- What a run comes to after steps of which one may have failed: the same machine as a run at once, and
the same answer unless the fault is out already. -/
structure Resumes (p : Program) (m : Machine σ) (k : Nat) (atOnce later : Reply σ) : Prop where
  machine : later.machine = atOnce.machine
  answer : (∀ j < k, ∀ fault, ((m.after p j).step p).result ≠ .error fault) →
    later.answer = atOnce.answer
  failed : ∀ j < k, ∀ fault, ((m.after p j).step p).result = .error fault →
    atOnce.answer = .failed fault ∧ later.answer = .finished

theorem resumes_of_running {k n : Nat}
    (hk : ∀ j < k, ((m.after p j).step p).result = .ok .running) :
    Resumes p m k (m.stopped p keep (k + n)) ((m.after p k).stopped p keep n) := by
  constructor
  · exact (after_add p k (n + 1) m).symm
  · intro _
    simp only [stopped, after_add]
  · intro j hj fault hfault
    cases (hk j hj).symm.trans hfault

theorem resumes_of_stopsAt {n k : Nat} (h : StopsAt p m n) (hn : n < k) :
    Resumes p m k (m.stopped p keep n) ((m.after p k).stopped p keep 0) := by
  have hafter := h.after_eq hn
  have hidle : (m.after p k).step p = ⟨m.after p k, .ok .halted, []⟩ :=
    step_of_halted (hafter ▸ h.halted)
  have hlater : ((m.after p k).stopped p keep 0).answer = .finished := by
    rw [stopped, after, hidle]
    rfl
  constructor
  · change ((m.after p k).step p).machine = m.after p (n + 1)
    rw [hidle, hafter]
  · intro hfaultless
    rw [hlater, stopped]
    cases hresult : ((m.after p n).step p).result with
    | error fault => exact absurd hresult (hfaultless n hn fault)
    | ok status => rfl
  · intro j _ fault hfault
    rw [h.eq_of_error hfault] at hfault
    exact ⟨by rw [stopped, hfault]; rfl, hlater⟩

/-- Steps before a run do not matter to whether it returns, and little to what it returns. -/
theorem run_after_steps (p : Program) (keep : Event → Bool) (m : Machine σ) (k : Nat) :
    ((∃ reply, Returns p keep m .run reply) ↔ ∃ reply, Returns p keep (m.after p k) .run reply) ∧
      ∀ atOnce later, Returns p keep m .run atOnce → Returns p keep (m.after p k) .run later →
        Resumes p m k atOnce later := by
  simp only [returns_run_iff]
  rcases goes_or_stops p m k with hgoes | ⟨n, hn, hstops⟩
  · constructor
    · constructor
      · rintro ⟨_, n, hstops, -⟩
        rcases Nat.lt_or_ge n k with hlt | hge
        · exact absurd (hgoes n hlt) hstops.stops
        · obtain ⟨more, rfl⟩ := Nat.exists_eq_add_of_le hge
          exact ⟨_, more, (stopsAt_after_iff hgoes).mpr hstops, rfl⟩
      · rintro ⟨_, n, hstops, -⟩
        exact ⟨_, k + n, (stopsAt_after_iff hgoes).mp hstops, rfl⟩
    · rintro _ _ ⟨n, hstops, rfl⟩ ⟨more, hlater, rfl⟩
      rw [hstops.unique ((stopsAt_after_iff hgoes).mp hlater)]
      exact resumes_of_running hgoes
  · have hhalted : (m.after p k).status = .halted := hstops.after_eq hn ▸ hstops.halted
    constructor
    · exact iff_of_true ⟨_, n, hstops, rfl⟩ ⟨_, 0, stopsAt_of_halted hhalted, rfl⟩
    · rintro _ _ ⟨n', hstops', rfl⟩ ⟨more, hlater, rfl⟩
      rw [hlater.unique (stopsAt_of_halted hhalted), hstops'.unique hstops]
      exact resumes_of_stopsAt hstops hn

/-- Calls made one after another, each of which returns, lead from one machine to another. -/
inductive Session (p : Program) (keep : Event → Bool) :
    Machine σ → List Call → List (Reply σ) → Machine σ → Prop where
  | nil {m : Machine σ} : Session p keep m [] [] m
  | cons {m m' : Machine σ} {call : Call} {reply : Reply σ} {calls : List Call}
    {replies : List (Reply σ)} (hcall : Returns p keep m call reply)
    (hrest : Session p keep reply.machine calls replies m') :
    Session p keep m (call :: calls) (reply :: replies) m'

/-- Calls that all return make so many steps: a step is one, and a run counts them. -/
inductive Makes (p : Program) (keep : Event → Bool) : Machine σ → List Call → Nat → Prop where
  | nil {m : Machine σ} : Makes p keep m [] 0
  | step {m : Machine σ} {calls : List Call} {n : Nat}
    (hrest : Makes p keep (m.step p).machine calls n) : Makes p keep m (.step :: calls) (1 + n)
  | run {m : Machine σ} (limit : Nat) {verdict : Except Fault Unit} {calls : List Call} {n : Nat}
    (hverdict : (m.run p keep limit).verdict? = some verdict)
    (hrest : Makes p keep (m.run p keep limit).machine calls n) :
    Makes p keep m (.run :: calls) ((m.run p keep limit).count + n)

/-- The limits that let the runs end do not matter. -/
theorem Makes.unique {calls : List Call} {n k : Nat} (hn : Makes p keep m calls n)
    (hk : Makes p keep m calls k) : n = k := by
  induction hn generalizing k with
  | nil =>
    cases hk
    rfl
  | step _ ih =>
    cases hk with
    | step hrest => rw [ih hrest]
  | @run m limit _ calls n hverdict _ ih =>
    cases hk with
    | run limit' hverdict' hrest =>
      obtain ⟨j, hj, hstops⟩ := exists_stopsAt_of_verdict? hverdict
      obtain ⟨j', hj', hstops'⟩ := exists_stopsAt_of_verdict? hverdict'
      obtain rfl := hstops.unique hstops'
      have hmade := (run_of_stopsAt keep hstops hj).2
      have hmade' := (run_of_stopsAt keep hstops' hj').2
      rw [hmade'.machine, ← hmade.machine] at hrest
      rw [hmade.count, hmade'.count, ih hrest]

/-- A session is the steps that its calls make, and is heard of as these are. -/
theorem Session.steps {calls : List Call} {replies : List (Reply σ)} {m' : Machine σ}
    (h : Session p keep m calls replies m') :
    ∃ n, Makes p keep m calls n ∧ m' = m.after p n ∧
      replies.flatMap Reply.events = (m.log p n).filter keep := by
  induction h with
  | nil => exact ⟨0, .nil, rfl, rfl⟩
  | @cons m _ _ _ _ _ hcall _ ih =>
    obtain ⟨n, hmakes, rfl, hrest⟩ := ih
    cases hcall with
    | step =>
      refine ⟨1 + n, .step hmakes, by rw [after_add]; rfl, ?_⟩
      rw [List.flatMap_cons, hrest, log_add, List.filter_append, log, log, List.append_nil]
      rfl
    | run limit hverdict =>
      have hmade := run_made p keep m limit
      refine ⟨(m.run p keep limit).count + n, .run limit hverdict hmakes, ?_, ?_⟩
      · rw [after_add, ← hmade.machine]
      · rw [List.flatMap_cons, hrest, log_add, List.filter_append, ← hmade.machine, ← hmade.events]

/-- The call that returns anything but `running` leaves the machine halted. -/
theorem Returns.halted {call : Call} {reply : Reply σ} (h : Returns p keep m call reply)
    (hends : reply.answer ≠ .stands .running) : reply.machine.status = .halted := by
  cases call with
  | step =>
    cases h
    exact halted_of_step fun hresult => hends (congrArg Answer.ofStep hresult)
  | run =>
    obtain ⟨n, hstops, rfl⟩ := returns_run_iff.mp h
    exact hstops.halted

/-- A call on a halted machine: it succeeds, changes nothing and logs nothing. -/
structure Idles (m : Machine σ) (reply : Reply σ) : Prop where
  succeeds : reply.answer.isFailure = false
  machine : reply.machine = m
  events : reply.events = []

theorem Returns.idles {call : Call} {reply : Reply σ} (h : Returns p keep m call reply)
    (hm : m.status = .halted) : Idles m reply := by
  have hidle : m.step p = ⟨m, .ok .halted, []⟩ := step_of_halted hm
  cases call with
  | step =>
    cases h
    rw [hidle]
    exact ⟨rfl, rfl, rfl⟩
  | run =>
    obtain ⟨n, hstops, rfl⟩ := returns_run_iff.mp h
    rw [hstops.unique (stopsAt_of_halted hm)]
    constructor
    · rw [stopped, after, hidle]
      rfl
    · exact after_of_halted hm 1
    · rw [stopped, log_of_halted hm]
      rfl

theorem Session.idles {calls : List Call} {replies : List (Reply σ)} {m' : Machine σ}
    (h : Session p keep m calls replies m') (hm : m.status = .halted) :
    ∀ reply ∈ replies, Idles m reply := by
  induction h with
  | nil => simp
  | cons hcall _ ih =>
    have hidles := hcall.idles hm
    rw [hidles.machine] at ih
    intro reply hreply
    rcases List.mem_cons.mp hreply with rfl | hreply
    · exact hidles
    · exact ih hm reply hreply

/-- After the first call that ends the execution the others are idle. -/
theorem Session.idles_after {calls : List Call} {before later : List (Reply σ)} {reply : Reply σ}
    {m' : Machine σ} (h : Session p keep m calls (before ++ reply :: later) m')
    (hends : reply.answer ≠ .stands .running) : ∀ r ∈ later, Idles reply.machine r := by
  induction before generalizing m calls with
  | nil =>
    cases h with
    | cons hcall hrest => exact hrest.idles (hcall.halted hends)
  | cons first before ih =>
    cases h with
    | cons _ hrest => exact ih hrest

theorem Session.countP_failure_le {calls : List Call} {replies : List (Reply σ)} {m' : Machine σ}
    (h : Session p keep m calls replies m') :
    (replies.countP fun reply => reply.answer.isFailure) ≤ 1 := by
  induction h with
  | nil => exact Nat.zero_le 1
  | @cons _ _ _ reply _ _ hcall hrest ih =>
    rw [List.countP_cons]
    cases hfailure : reply.answer.isFailure with
    | false => simpa using ih
    | true =>
      have hends : reply.answer ≠ .stands .running := fun hanswer => by
        rw [hanswer] at hfailure
        cases hfailure
      have hidles := hrest.idles (hcall.halted hends)
      rw [List.countP_eq_zero.mpr fun r hr => by simp [(hidles r hr).succeeds]]
      simp

/-- Steps and runs may be mixed at will. From any machine, with any sink and any listener: calls that all
return lead to where some number of steps leads; a run returns what the first step does that does not
return `running`, with the machine it leaves; steps made before a run take nothing from it but a fault
that has come out already; and after the first call that returns `halted` or a fault, or has run to the
end, all others succeed, change nothing and log nothing, so that at most one call fails. -/
theorem calls_follow_steps (p : Program) (keep : Event → Bool) (σ : Type) [Sink σ] (m : Machine σ) :
    (∀ calls replies m', Session p keep m calls replies m' → ∃ n, m' = m.after p n) ∧
    (∀ reply, Returns p keep m .run reply ↔ ∃ n, StopsAt p m n ∧ reply = m.stopped p keep n) ∧
    (∀ k, ((∃ reply, Returns p keep m .run reply) ↔
        ∃ reply, Returns p keep (m.after p k) .run reply) ∧
      ∀ atOnce later, Returns p keep m .run atOnce → Returns p keep (m.after p k) .run later →
        Resumes p m k atOnce later) ∧
    (∀ calls before reply later m', Session p keep m calls (before ++ reply :: later) m' →
      reply.answer ≠ .stands .running → ∀ r ∈ later, Idles reply.machine r) ∧
    ∀ calls replies m', Session p keep m calls replies m' →
      (replies.countP fun reply => reply.answer.isFailure) ≤ 1 := by
  refine ⟨fun calls replies m' h => ?_, fun reply => returns_run_iff, run_after_steps p keep m,
    fun calls before reply later m' h => h.idles_after, fun calls replies m' h => h.countP_failure_le⟩
  obtain ⟨n, -, hmachine, -⟩ := h.steps
  exact ⟨n, hmachine⟩

/-- An addition that finds one word only fails in the first run, and in no call after it. -/
theorem calls_follow_steps_lone_word : ∃ replies m',
    Session (.ofList [1, 7, 2]) (fun _ => true) (start ({} : Transcript)) [.step, .run, .run, .step]
      replies m' ∧
    replies.map Reply.answer =
      [.stands .running, .failed (.stackUnderflow 2), .finished, .stands .halted] ∧
    (replies.countP fun reply => reply.answer.isFailure) ≤ 1 := by
  have hsession : Session (.ofList [1, 7, 2]) (fun _ => true) (start ({} : Transcript))
      [.step, .run, .run, .step] _ _ :=
    .cons .step (.cons (.run 1 rfl) (.cons (.run 1 rfl) (.cons .step .nil)))
  exact ⟨_, _, hsession, rfl, (calls_follow_steps _ _ _ _).2.2.2.2 _ _ _ hsession⟩

end Machine

end StackAssembly
