import StackAssembly.Machine.Basic
import StackAssembly.Text.Quoted
import StackAssembly.Token

/-! Inspection: values spelt out with the names of their fields, on one line or one field a line. -/
namespace StackAssembly

namespace Inspection

def list (items : List String) : String := "[" ++ String.intercalate ", " items ++ "]"

def record (name : String) (fields : List (String × String)) : String :=
  let shown := fields.map fun (field, value) => field ++ ": " ++ value
  name ++ " \x7b " ++ String.intercalate ", " shown ++ " \x7d"

def indent (depth : Nat) : String := String.ofList (List.replicate (4 * depth) ' ')

/-- Parts one a line, inside a pair of brackets that stands at the given depth. -/
def block (depth : Nat) (opening closing : String) (parts : List String) : String :=
  let rows := parts.map fun part => indent (depth + 1) ++ part ++ ",\n"
  opening ++ "\n" ++ String.join rows ++ indent depth ++ closing

/-- One item a line; an empty list stays closed. -/
def tallList (depth : Nat) (items : List String) : String :=
  if items.isEmpty then "[]" else block depth "[" "]" items

def tallRecord (name : String) (fields : List (String × String)) : String :=
  block 0 (name ++ " \x7b") "\x7d" (fields.map fun (field, value) => field ++ ": " ++ value)

def option : Option String → String
  | some value => "Some(" ++ value ++ ")"
  | none => "None"

end Inspection

open Inspection

def Opcode.inspect : Opcode → String
  | iconst => "Iconst"
  | iadd => "Iadd"
  | isub => "Isub"
  | imul => "Imul"
  | ilt => "Ilt"
  | ieq => "Ieq"
  | jmp => "Jmp"
  | jmpt => "Jmpt"
  | jmpf => "Jmpf"
  | gload => "Gload"
  | gstore => "Gstore"
  | load => "Load"
  | store => "Store"
  | print => "Print"
  | halt => "Halt"

def TokenKind.inspect : TokenKind → String
  | instruction op => "Instruction(" ++ op.inspect ++ ")"
  | unknownInstruction => "UnknownInstruction"
  | label => "Label"
  | labelName => "LabelName"
  | int => "Int"
  | comment => "Comment"
  | endOfLine => "Eol"
  | endOfInput => "Eof"
  | illegal => "Illegal"

def Token.inspect (t : Token) : String :=
  record "Token"
    [("kind", t.kind.inspect), ("literal", Text.quotedString t.literal), ("line", t.line.repr),
     ("index", option (t.index.map Nat.repr))]

def Program.inspect (p : Program) : String :=
  record "Program" [("words", list (p.toList.map Numeral.ofWord))]

def Stack.inspect (s : Stack) : String := list (s.toList.map Numeral.ofWord)

def Status.name : Status → String
  | running => "Running"
  | halted => "Halted"

namespace Machine

variable {σ : Type}

private def inspectedFields (m : Machine σ) (locals : String) : List (String × String) :=
  [("ip", m.ip.repr), ("state", m.status.name), ("stack", m.stack.inspect), ("locals", locals)]

def inspect (m : Machine σ) : String :=
  record "Runtime" (m.inspectedFields (list (m.store.toList.map Numeral.ofWord)))

/-- One field a line. The store spreads over lines, the stack does not. -/
def inspectTall (m : Machine σ) : String :=
  tallRecord "Runtime" (m.inspectedFields (tallList 1 (m.store.toList.map Numeral.ofWord)))

end Machine

end StackAssembly
