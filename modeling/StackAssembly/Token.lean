import StackAssembly.Numeral
import StackAssembly.Opcode

/-! Tokens of the assembly language. -/
namespace StackAssembly

inductive TokenKind where
  | instruction (op : Opcode)
  /-- A run of capitals that is no mnemonic. -/
  | unknownInstruction
  /-- The definition of a label, with its colon. -/
  | label
  /-- A reference to a label. -/
  | labelName
  | int
  | comment
  | endOfLine
  | endOfInput
  | illegal
  deriving DecidableEq, Repr

namespace TokenKind

/-- A known instruction goes by its mnemonic, every other kind by the name of its class. -/
def name : TokenKind → String
  | instruction op => op.mnemonic
  | unknownInstruction => "INSTRUCTION"
  | label => "LABEL"
  | labelName => "LABEL_NAME"
  | int => "INT"
  | comment => "COMMENT"
  | endOfLine => "EOL"
  | endOfInput => "EOF"
  | illegal => "ILLEGAL"

def all : List TokenKind :=
  Opcode.all.map instruction ++
    [unknownInstruction, label, labelName, int, comment, endOfLine, endOfInput, illegal]

def ofName? (name : String) : Option TokenKind := all.find? fun kind => kind.name == name

/-- Operands are the tokens that take up one word of the assembled program. -/
def isOperand : TokenKind → Bool
  | instruction _ | unknownInstruction | labelName | int | illegal => true
  | label | comment | endOfLine | endOfInput => false

@[simp] theorem ofName?_name (kind : TokenKind) : ofName? kind.name = some kind := by
  cases kind with
  | instruction op => cases op <;> decide
  | _ => decide

end TokenKind

structure Token where
  kind : TokenKind
  literal : String
  line : Nat
  /-- For an operand its position among the operands, for a label the position of the next one. -/
  index : Option Nat
  deriving DecidableEq, Repr

namespace Token

def opcode? (t : Token) : Option Opcode :=
  match t.kind with
  | .instruction op => some op
  | _ => none

/-- The name a label definition or a label reference speaks of. -/
def label? (t : Token) : Option String :=
  match t.kind with
  | .label => some (String.ofList (t.literal.toList.reverse.dropWhile (· == ':')).reverse)
  | .labelName => some t.literal
  | _ => none

def int? (t : Token) : Option Word :=
  match t.kind with
  | .int => Numeral.word? t.literal
  | _ => none

end Token

end StackAssembly
