import StackAssembly.Machine.Basic

/-! Runs: steps made one after another until the machine halts or fails, with a bound on their
number. -/
namespace StackAssembly

/-- A machine together with an account of the steps it has made so far. -/
structure Run (σ : Type) where
  machine : Machine σ
  count : Nat := 0
  /-- The result of the latest step. -/
  last : Option (Except Fault Status) := none
  /-- What has been logged, as far as the run's listener cares for it. -/
  events : Array Event := #[]

namespace Run

variable {σ : Type}

/-- How the run ended, if it did: a step has found the machine halted, has halted it or has
failed. -/
def verdict? (r : Run σ) : Option (Except Fault Unit) :=
  match r.last with
  | none | some (.ok .running) => none
  | some (.ok .halted) => some (.ok ())
  | some (.error fault) => some (.error fault)

/-- The account with one more step, of whose events those are kept that satisfy `keep`. -/
@[inline] def record (keep : Event → Bool) (r : Run σ) (s : Step σ) : Run σ where
  machine := s.machine
  count := r.count + 1
  last := some s.result
  events := r.events ++ s.events.filter keep

variable [Sink σ]

/-- At most `limit` more steps. -/
def advance (p : Program) (keep : Event → Bool) : (limit : Nat) → Run σ → Run σ
  | 0, r => r
  | limit + 1, r =>
    if r.verdict?.isSome then r else advance p keep limit (r.record keep (r.machine.step p))

end Run

namespace Machine

variable {σ : Type}

def run [Sink σ] (p : Program) (keep : Event → Bool) (limit : Nat) (m : Machine σ) : Run σ :=
  Run.advance p keep limit { machine := m }

/-- The top of the stack, or what is said when there is none. -/
def top (m : Machine σ) : Except String Word :=
  match m.stack.peek? with
  | some w => .ok w
  | none => .error "empty stack: Underflow"

end Machine

/-- The run of a fresh machine that prints to a transcript. -/
def Program.run (p : Program) (keep : Event → Bool) (limit : Nat) : Run Transcript :=
  (Machine.start ({} : Transcript)).run p keep limit

end StackAssembly
