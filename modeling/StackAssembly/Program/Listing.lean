import StackAssembly.Numeral
import StackAssembly.Program
import StackAssembly.Text.Blank

/-! Listings: the text form of a program. Words are separated by blanks and commas, a comment runs
from `#` to the end of its line, and a word is a mnemonic or a decimal integer. -/
namespace StackAssembly

/-- A word of a listing that is neither a mnemonic nor an integer in range. -/
structure InvalidWord where
  line : Nat
  word : String
  deriving DecidableEq, Repr

def InvalidWord.message (e : InvalidWord) : String :=
  s!"INVALID WORD '{e.word}' IN LINE {e.line}"

namespace Listing

def isSeparator (c : Char) : Bool := Text.isBlank c || c == ','

/-- The words of one line, left of its comment. -/
def lineWords (line : List Char) : List String :=
  (((line.takeWhile (· != '#')).splitOnP isSeparator).filter (!·.isEmpty)).map String.ofList

def dropReturn (line : List Char) : List Char :=
  if line.getLast? = some '\r' then line.dropLast else line

/-- The lines of a text. Only a line feed ends a line, and a carriage return right before it goes with
it. What stands behind the last line feed is one more line, unless that is nothing. -/
def lines (text : List Char) : List (List Char) :=
  let pieces := text.splitOn '\n'
  pieces.dropLast.map dropReturn ++ (pieces.getLast?.filter (!·.isEmpty)).toList

/-- The words of a line, each with the number of the line. -/
def numberedLine (line : List Char × Nat) : List (Nat × String) :=
  (lineWords line.1).map fun word => (line.2, word)

def numberedWords (text : String) : List (Nat × String) :=
  ((lines text.toList).zipIdx 1).flatMap numberedLine

def value? (word : String) : Option Word :=
  match Opcode.ofMnemonic? word with
  | some op => some op.word
  | none => Numeral.word? word

def value (numbered : Nat × String) : Except InvalidWord Word :=
  match value? numbered.2 with
  | some w => .ok w
  | none => .error ⟨numbered.1, numbered.2⟩

end Listing

/-- Reads a listing; the first word that has no value is the error. -/
def Program.ofListing (text : String) : Except InvalidWord Program :=
  (Program.ofList ·) <$> (Listing.numberedWords text).mapM Listing.value

end StackAssembly
