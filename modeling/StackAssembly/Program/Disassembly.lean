import StackAssembly.Numeral
import StackAssembly.Program

/-! Disassembly: a program written one instruction a line, each with its address. -/
namespace StackAssembly

/-- What a line shows after the address. -/
inductive Entry where
  | raw (word : Word)
  | bare (op : Opcode)
  | withOperand (op : Opcode) (operand : Word)
  /-- An opcode at the very end whose operand is missing. -/
  | missingOperand (op : Opcode)
  deriving DecidableEq, Repr

def Entry.text : Entry → String
  | raw word => ".word " ++ Numeral.ofWord word
  | bare op => op.mnemonic
  | withOperand op operand => op.mnemonic ++ " " ++ Numeral.ofWord operand
  | missingOperand op => op.mnemonic ++ " ?"

structure Line where
  address : Nat
  entry : Entry
  deriving DecidableEq, Repr

/-- Addresses have at least four digits. -/
def Line.text (l : Line) : String :=
  Numeral.padded 4 l.address ++ " " ++ l.entry.text ++ "\n"

namespace Disassembly

/-- Lines for the words that start at an address. Opcodes claim the words after them as operands,
and a word that is no opcode stands alone. -/
def lines (address : Nat) : List Word → List Line
  | [] => []
  | word :: rest =>
    match Opcode.ofWord? word with
    | none => ⟨address, .raw word⟩ :: lines (address + 1) rest
    | some op =>
      if op.arity = 0 then ⟨address, .bare op⟩ :: lines (address + 1) rest
      else
        match rest with
        | [] => [⟨address, .missingOperand op⟩]
        | operand :: rest => ⟨address, .withOperand op operand⟩ :: lines (address + 2) rest

end Disassembly

def Program.lines (p : Program) : List Line := Disassembly.lines 0 p.toList

def Program.disassembly (p : Program) : String := String.join (p.lines.map Line.text)

end StackAssembly
