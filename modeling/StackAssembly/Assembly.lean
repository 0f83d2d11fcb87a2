import StackAssembly.Program
import StackAssembly.Token.Lexer

/-! Assembly: every operand token becomes one word, and a label stands for the position of the
operand after its first definition. -/
namespace StackAssembly

/-- Why a source text has no program. The last three are about positions that do not fit. -/
inductive AssemblyError where
  | integerOutOfRange
  | undefinedLabel (name : String)
  | notAssemblable (line : Nat) (literal : String)
  /-- The definition of a label that was used carries no position. -/
  | unplacedLabel
  | unplacedOperand
  /-- An operand whose position is not the number of words before it. -/
  | misplacedOperand (size index : Nat)
  deriving DecidableEq, Repr

def AssemblyError.message : AssemblyError → String
  | integerOutOfRange => "int literal"
  | undefinedLabel name => s!"undefined label {name}"
  | notAssemblable line literal => s!"line {line}: cannot assemble {literal}"
  | unplacedLabel => "label index"
  | unplacedOperand => "operand index"
  | misplacedOperand size index =>
    s!"assertion `left == right` failed\n  left: {size}\n right: {index}"

namespace Assembly

/-- The name that a label definition gives to its position. -/
def definition? (t : Token) : Option (String × Option Nat) :=
  match t.kind, t.label? with
  | .label, some name => some (name, t.index)
  | _, _ => none

/-- All definitions in order. Of several for one name the first counts, also for references before
it. -/
def definitions (tokens : List Token) : List (String × Option Nat) := tokens.filterMap definition?

/-- The word of one operand token, where names stand for what `labels` defines. -/
def word (labels : List (String × Option Nat)) (t : Token) : Except AssemblyError Word :=
  match t.kind with
  | .instruction op => .ok op.word
  | .int =>
    match t.int? with
    | some w => .ok w
    | none => .error .integerOutOfRange
  | .labelName =>
    match labels.lookup t.literal with
    | some (some index) => .ok (Int64.ofNat index)
    | some none => .error .unplacedLabel
    | none => .error (.undefinedLabel t.literal)
  | _ => .error (.notAssemblable t.line t.literal)

/-- Adds the word of one operand token to the words before it, whose number must be the token's
position. -/
def emit (labels : List (String × Option Nat)) (p : Program) (t : Token) :
    Except AssemblyError Program := do
  let w ← word labels t
  match t.index with
  | none => .error .unplacedOperand
  | some index =>
    if p.size = index then .ok (p.push w) else .error (.misplacedOperand p.size index)

end Assembly

/-- Assembles the operands among the tokens; the first that fails is the error. -/
def Program.ofTokens (tokens : List Token) : Except AssemblyError Program :=
  (tokens.filter (·.kind.isOperand)).foldlM (Assembly.emit (Assembly.definitions tokens)) .empty

def Program.ofSource (source : String) : Except AssemblyError Program := ofTokens (lex source)

end StackAssembly
