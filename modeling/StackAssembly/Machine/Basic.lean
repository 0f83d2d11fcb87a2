import StackAssembly.Event
import StackAssembly.Machine.Fault
import StackAssembly.Machine.Sink
import StackAssembly.Machine.Stack
import StackAssembly.Machine.Store
import StackAssembly.Program

/-! The stack machine: its state and one step of execution. -/
namespace StackAssembly

inductive Status where
  | running | halted
  deriving DecidableEq, Repr

/-- The state of a machine that prints to a sink of type `σ`. The program is not part of it. -/
structure Machine (σ : Type) where
  /-- The address of the next word to read. -/
  ip : Nat := 0
  status : Status := .running
  stack : Stack := .empty
  store : Store := .empty
  sink : σ
  deriving DecidableEq, Repr

/-- What one step leaves behind: the machine, how it stands or why it failed, and the log. -/
structure Step (σ : Type) where
  machine : Machine σ
  result : Except Fault Status
  events : List Event

namespace Machine

variable {σ : Type}

def start (sink : σ) : Machine σ := { sink }

def push (m : Machine σ) (w : Word) : Machine σ := { m with stack := m.stack.push w }

def pop (m : Machine σ) : Machine σ := { m with stack := m.stack.pop }

/-- Goes to the address that an operand names. -/
def jump (address : Nat) (m : Machine σ) (target : Word) : Except Fault Unit × Machine σ :=
  match Word.address? target with
  | none => (.error (.addressOutOfRange address target), m)
  | some ip => (.ok (), { m with ip })

def assign (m : Machine σ) (slot : Nat) (w : Word) : Machine σ :=
  { m with store := m.store.write slot w }

/-- Pops a word into the variable store. A slot that is no address is refused before the pop, and
one that is out of reach after it. -/
def storeTop (address : Nat) (m : Machine σ) (slot : Word) : Except Fault Unit × Machine σ :=
  match Word.address? slot with
  | none => (.error (.addressOutOfRange address slot), m)
  | some k =>
    match m.stack.peek? with
    | none => (.error (.stackUnderflow address), m)
    | some value =>
      if Store.inReach k then (.ok (), m.pop.assign k value)
      else (.error (.addressOutOfRange address slot), m.pop)

/-- A fault halts the machine and is the last thing logged. -/
def fail (m : Machine σ) (fault : Fault) (events : List Event) : Step σ :=
  ⟨{ m with status := .halted }, .error fault, events ++ [.failed fault]⟩

/-- What an executed instruction comes to. A halt is logged after the instruction itself. -/
def conclude (address : Nat) (i : Instruction) (logged : Event) :
    Except Fault Unit × Machine σ → Step σ
  | (.error fault, m) => m.fail fault [logged]
  | (.ok (), m) => ⟨m, .ok m.status, logged :: if i = .halt then [.halted address] else []⟩

variable [Sink σ]

/-- Prints a word on a line of its own. -/
def printWord (address : Nat) (m : Machine σ) (value : Word) : Except Fault Unit × Machine σ :=
  match Sink.printLine m.sink (Numeral.ofWord value) with
  | (.ok (), sink) => (.ok (), { m with sink })
  | (.error cause, sink) => (.error (.outputFailed address cause), { m with sink })

/-- Executes an instruction found at `address`, with `ip` already past it. What was changed before a
fault stays changed. -/
def execute (address : Nat) (m : Machine σ) : Instruction → Except Fault Unit × Machine σ
  | .const value => (.ok (), m.push value)
  | .binary op =>
    match m.stack.peek2? with
    | none => (.error (.stackUnderflow address), m)
    | some (a, b) => (.ok (), m.pop.pop.push (op.apply a b))
  | .jump target => m.jump address target
  | .jumpIf condition target =>
    match m.stack.peek? with
    | none => (.error (.stackUnderflow address), m)
    | some value =>
      if (value != 0) = condition then m.pop.jump address target else (.ok (), m.pop)
  | .gload slot =>
    match Word.address? slot with
    | none => (.error (.addressOutOfRange address slot), m)
    | some k => (.ok (), m.push (m.store.read k))
  | .gstore slot | .store slot => m.storeTop address slot
  | .load slot =>
    match (Word.address? slot).bind m.stack.get? with
    | none => (.error (.addressOutOfRange address slot), m)
    | some value => (.ok (), m.push value)
  | .print =>
    match m.stack.peek? with
    | none => (.error (.stackUnderflow address), m)
    | some value => m.pop.printWord address value
  | .halt => (.ok (), { m with status := .halted })

/-- One step of a program. A halted machine stays as it is and says nothing. -/
def step (p : Program) (m : Machine σ) : Step σ :=
  match m.status with
  | .halted => ⟨m, .ok .halted, []⟩
  | .running =>
    match p.fetch m.ip with
    | .pastEnd => ⟨{ m with status := .halted }, .ok .halted, [.ranOffEnd m.ip]⟩
    | .unknown word => m.fail (.unknownOpcode m.ip word) []
    | .truncated op =>
      { m with ip := m.ip + 1 }.fail (.missingOperand m.ip) [.executing m.ip op m.stack.size]
    | .instruction i =>
      conclude m.ip i (.executing m.ip i.opcode m.stack.size)
        ({ m with ip := m.ip + i.size }.execute m.ip i)

end Machine

end StackAssembly
