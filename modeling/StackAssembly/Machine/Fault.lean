import StackAssembly.Numeral

/-! Faults: the ways in which executing an instruction can fail. Each names the address of the
instruction's opcode. -/
namespace StackAssembly

inductive Fault where
  | stackUnderflow (address : Nat)
  | unknownOpcode (address : Nat) (word : Word)
  /-- The operand `target` is no address, or names a slot that is out of reach. -/
  | addressOutOfRange (address : Nat) (target : Word)
  | missingOperand (address : Nat)
  | outputFailed (address : Nat) (cause : String)
  deriving DecidableEq, Repr

namespace Fault

def address : Fault → Nat
  | stackUnderflow a | unknownOpcode a _ | addressOutOfRange a _ | missingOperand a
  | outputFailed a _ => a

def message : Fault → String
  | stackUnderflow a => s!"STACK UNDERFLOW AT {a}"
  | unknownOpcode a word => s!"UNKNOWN OPCODE {Numeral.ofWord word} AT {a}"
  | addressOutOfRange a target => s!"ADDRESS OUT OF RANGE {Numeral.ofWord target} AT {a}"
  | missingOperand a => s!"MISSING OPERAND AT {a}"
  | outputFailed a cause => s!"OUTPUT FAILED AT {a}: {cause}"

end Fault

end StackAssembly
