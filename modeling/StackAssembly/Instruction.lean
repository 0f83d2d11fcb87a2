import StackAssembly.Opcode

/-! Instructions: an opcode together with the operand word it takes. -/
namespace StackAssembly

inductive BinaryOp where
  | add | sub | mul | lt | eq
  deriving DecidableEq, Repr

/-- The left operand is the top of the stack, the right one the word beneath it. -/
def BinaryOp.apply : BinaryOp → Word → Word → Word
  | add, a, b => a + b
  | sub, a, b => a - b
  | mul, a, b => a * b
  | lt, a, b => Word.ofBool (a < b)
  | eq, a, b => Word.ofBool (a == b)

inductive Instruction where
  | const (value : Word)
  | binary (op : BinaryOp)
  | jump (target : Word)
  /-- Jumps if the popped word, read as a truth value, is `condition`. -/
  | jumpIf (condition : Bool) (target : Word)
  | gload (slot : Word)
  | gstore (slot : Word)
  | load (slot : Word)
  | store (slot : Word)
  | print
  | halt
  deriving DecidableEq, Repr

/-- The instruction an opcode begins when `operand` is the word after it; none if the opcode needs
an operand and there is no word left. -/
def Opcode.instruction? (operand : Option Word) : Opcode → Option Instruction
  | iconst => operand.map .const
  | iadd => some (.binary .add)
  | isub => some (.binary .sub)
  | imul => some (.binary .mul)
  | ilt => some (.binary .lt)
  | ieq => some (.binary .eq)
  | jmp => operand.map .jump
  | jmpt => operand.map (.jumpIf true)
  | jmpf => operand.map (.jumpIf false)
  | gload => operand.map .gload
  | gstore => operand.map .gstore
  | load => operand.map .load
  | store => operand.map .store
  | print => some .print
  | halt => some .halt

namespace Instruction

def opcode : Instruction → Opcode
  | const _ => .iconst
  | binary .add => .iadd
  | binary .sub => .isub
  | binary .mul => .imul
  | binary .lt => .ilt
  | binary .eq => .ieq
  | jump _ => .jmp
  | jumpIf true _ => .jmpt
  | jumpIf false _ => .jmpf
  | gload _ => .gload
  | gstore _ => .gstore
  | load _ => .load
  | store _ => .store
  | print => .print
  | halt => .halt

def operand? : Instruction → Option Word
  | const w | jump w | jumpIf _ w | gload w | gstore w | load w | store w => some w
  | binary _ | print | halt => none

/-- How many words the instruction takes up in a program: its opcode and the operand it has. -/
def size (i : Instruction) : Nat := 1 + i.operand?.toList.length

/-- Instructions have as many operands as the table of arities says. -/
theorem size_eq_arity (i : Instruction) : i.size = 1 + i.opcode.arity := by
  cases i with
  | binary op => cases op <;> rfl
  | jumpIf condition _ => cases condition <;> rfl
  | _ => rfl

theorem opcode_of_instruction? {op : Opcode} {operand : Option Word} {i : Instruction}
    (h : op.instruction? operand = some i) : i.opcode = op := by
  cases op <;> cases operand <;> cases h <;> rfl

theorem operand?_of_instruction? {op : Opcode} {operand : Option Word} {i : Instruction}
    (h : op.instruction? operand = some i) :
    i.operand? = if op.arity = 0 then none else operand := by
  cases op <;> cases operand <;> cases h <;> rfl

theorem instruction?_eq_none_iff {op : Opcode} {operand : Option Word} :
    op.instruction? operand = none ↔ op.arity = 1 ∧ operand = none := by
  cases op <;> cases operand <;> simp [Opcode.instruction?, Opcode.arity]

@[simp] theorem instruction?_operand? (i : Instruction) :
    i.opcode.instruction? i.operand? = some i := by
  cases i with
  | binary op => cases op <;> rfl
  | jumpIf condition _ => cases condition <;> rfl
  | _ => rfl

end Instruction

end StackAssembly
