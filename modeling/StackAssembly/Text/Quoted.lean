import StackAssembly.Text.Unprintable

/-! Quoted text: strings in double quotes and characters in single quotes, on one line and with
every invisible character spelt out. -/
namespace StackAssembly.Text

/-- How a character is written between a pair of `quote` marks. Only the mark itself needs a
backslash; the other mark stands for itself. -/
def escape (quote c : Char) : List Char :=
  if c = '\x00' then ['\\', '0']
  else if c = '\t' then ['\\', 't']
  else if c = '\n' then ['\\', 'n']
  else if c = '\r' then ['\\', 'r']
  else if c = '\\' then ['\\', '\\']
  else if c = quote then ['\\', quote]
  else if isUnprintable c then
    ['\\', 'u', '\x7b'] ++ Nat.toDigits 16 c.toNat ++ ['\x7d']
  else [c]

def quotedString (s : String) : String :=
  String.ofList ('\x22' :: s.toList.flatMap (escape '\x22') ++ ['\x22'])

def quotedChar (c : Char) : String :=
  String.ofList ('\x27' :: escape '\x27' c ++ ['\x27'])

end StackAssembly.Text
