import StackAssembly.Word

/-! The fifteen operation codes: the word, the mnemonic and the number of operand words of each. -/
namespace StackAssembly

inductive Opcode where
  | iconst | iadd | isub | imul | ilt | ieq | jmp | jmpt | jmpf
  | gload | gstore | load | store | print | halt
  deriving DecidableEq, Repr

namespace Opcode

/-- Every opcode, in the order of their words. -/
def all : List Opcode :=
  [iconst, iadd, isub, imul, ilt, ieq, jmp, jmpt, jmpf, gload, gstore, load, store, print, halt]

def word : Opcode → Word
  | iconst => 1
  | iadd => 2
  | isub => 3
  | imul => 4
  | ilt => 5
  | ieq => 6
  | jmp => 7
  | jmpt => 8
  | jmpf => 9
  | gload => 10
  | gstore => 11
  | load => 12
  | store => 13
  | print => 14
  | halt => 15

def mnemonic : Opcode → String
  | iconst => "ICONST"
  | iadd => "IADD"
  | isub => "ISUB"
  | imul => "IMUL"
  | ilt => "ILT"
  | ieq => "IEQ"
  | jmp => "JMP"
  | jmpt => "JMPT"
  | jmpf => "JMPF"
  | gload => "GLOAD"
  | gstore => "GSTORE"
  | load => "LOAD"
  | store => "STORE"
  | print => "PRINT"
  | halt => "HALT"

/-- How many operand words follow the opcode in a program. -/
def arity : Opcode → Nat
  | iconst | jmp | jmpt | jmpf | gload | gstore | load | store => 1
  | iadd | isub | imul | ilt | ieq | print | halt => 0

/-- The words of the opcodes are 1 to 15. -/
def ofWord? (w : Word) : Option Opcode := if 0 < w then all[w.toInt.toNat - 1]? else none

/-- Mnemonics are upper case, and no other spelling is known. -/
def ofMnemonic? (name : String) : Option Opcode := all.find? fun op => op.mnemonic == name

@[simp] theorem ofWord?_word (op : Opcode) : ofWord? op.word = some op := by
  cases op <;> rfl

@[simp] theorem ofMnemonic?_mnemonic (op : Opcode) : ofMnemonic? op.mnemonic = some op := by
  cases op <;> decide

private theorem toInt_word_getElem : ∀ i : Fin 15, (all.get i).word.toInt = i + 1 := by
  decide

theorem ofWord?_eq_some_iff {w : Word} {op : Opcode} : ofWord? w = some op ↔ op.word = w := by
  refine ⟨fun h => ?_, fun h => h ▸ ofWord?_word op⟩
  unfold ofWord? at h
  split at h
  · rename_i hw
    obtain ⟨hi, rfl⟩ := List.getElem?_eq_some_iff.mp h
    have hpos : (0 : Int) < w.toInt := Int64.lt_iff_toInt_lt.mp hw
    have hword : all[w.toInt.toNat - 1].word.toInt = ((w.toInt.toNat - 1 : Nat) : Int) + 1 :=
      toInt_word_getElem ⟨w.toInt.toNat - 1, hi⟩
    apply Int64.toInt.inj
    rw [hword]
    omega
  · cases h

theorem ofMnemonic?_eq_some_iff {name : String} {op : Opcode} :
    ofMnemonic? name = some op ↔ op.mnemonic = name := by
  refine ⟨fun h => ?_, fun h => h ▸ ofMnemonic?_mnemonic op⟩
  simpa using List.find?_some h

end Opcode

end StackAssembly
