import StackAssembly.Machine.Fault
import StackAssembly.Opcode
import StackAssembly.Text.Quoted
import StackAssembly.Token

/-! Log events: what the lexer and the machine tell about their work as they go. -/
namespace StackAssembly

inductive Level where
  | error | warn | info | debug | trace
  deriving DecidableEq, Repr

namespace Level

def all : List Level := [error, warn, info, debug, trace]

def name : Level → String
  | error => "ERROR"
  | warn => "WARN"
  | info => "INFO"
  | debug => "DEBUG"
  | trace => "TRACE"

/-- Higher levels speak of smaller things. -/
def detail : Level → Nat
  | error => 1
  | warn => 2
  | info => 3
  | debug => 4
  | trace => 5

end Level

inductive Event where
  | illegalCharacter (line index : Nat) (c : Char)
  /-- An instruction is about to be executed, with `depth` words on the stack. -/
  | executing (address : Nat) (op : Opcode) (depth : Nat)
  | halted (address : Nat)
  | ranOffEnd (address : Nat)
  | failed (fault : Fault)
  deriving DecidableEq, Repr

namespace Event

def level : Event → Level
  | illegalCharacter .. | executing .. => .trace
  | halted _ | ranOffEnd _ => .debug
  | failed _ => .warn

/-- The part of the program that speaks. -/
def target : Event → String
  | illegalCharacter .. => "rooster::lang::lex"
  | executing .. | halted _ | ranOffEnd _ | failed _ => "rooster::mach::runtime"

def message : Event → String
  | illegalCharacter .. => "illegal character"
  | executing .. => "exec"
  | halted _ => "halt"
  | ranOffEnd _ => "ran off the end of the program"
  | failed _ => "runtime error"

def fields : Event → List (String × String)
  | illegalCharacter line index c =>
    [("line", line.repr), ("index", index.repr), ("ch", Text.quotedChar c)]
  | executing address op depth =>
    [("address", address.repr), ("op", op.mnemonic), ("depth", depth.repr)]
  | halted address | ranOffEnd address => [("address", address.repr)]
  | failed fault => [("error", fault.message)]

/-- The event as a line of a log: level in five columns, target, message and fields. -/
def text (e : Event) : String :=
  let level := e.level.name
  let indent := String.ofList (List.replicate (5 - level.length) ' ')
  let fields := e.fields.map fun (name, value) => " " ++ name ++ "=" ++ value
  indent ++ level ++ " " ++ e.target ++ ": " ++ e.message ++ String.join fields ++ "\n"

end Event

/-- Reading an illegal character is reported; other tokens are silent. -/
def Token.event? (t : Token) : Option Event :=
  match t.kind, t.index, t.literal.toList with
  | .illegal, some index, [c] => some (.illegalCharacter t.line index c)
  | _, _, _ => none

end StackAssembly
