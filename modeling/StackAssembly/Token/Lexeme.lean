import StackAssembly.Token

/-! Lexemes: the stretches of source text that tokens are made from, by longest match. -/
namespace StackAssembly

structure Lexeme where
  kind : TokenKind
  text : List Char
  deriving DecidableEq, Repr

/-- What a lexeme has to do with the positions of operands: it takes one for itself, points at the
operand that comes next, or has none. -/
inductive Numbering where
  | takes | points | unnumbered
  deriving DecidableEq, Repr

namespace Numbering

/-- The position that is shown when the next operand has this one. -/
def index? (index : Nat) : Numbering → Option Nat
  | takes | points => some index
  | unnumbered => none

/-- The position of the next operand from then on. -/
def next (index : Nat) : Numbering → Nat
  | takes => index + 1
  | points | unnumbered => index

end Numbering

/-- A lexeme read off the front of a text, and what follows it. -/
structure Reading where
  lexeme : Lexeme
  numbering : Numbering
  rest : List Char
  deriving DecidableEq, Repr

namespace Lexeme

/-- Spaces and tabs separate lexemes and are otherwise ignored. -/
def isBlank (c : Char) : Bool := c == ' ' || c == '\t'

/-- A carriage return ends a line as a line feed does. -/
def isLineEnd (c : Char) : Bool := c == '\n' || c == '\r'

/-- A comment ends before a line feed; a carriage return belongs to it. -/
def isCommentChar (c : Char) : Bool := c != '\n' && c != '\x00'

def isNameChar (c : Char) : Bool := c.isAlpha || c == '_'

def instructionKind (text : List Char) : TokenKind :=
  match Opcode.ofMnemonic? (String.ofList text) with
  | some op => .instruction op
  | none => .unknownInstruction

/-- The longest run of characters of a class, as a lexeme. -/
def run (numbering : Numbering) (kind : List Char → TokenKind) (member : Char → Bool)
    (cs : List Char) : Reading :=
  ⟨⟨kind (cs.takeWhile member), cs.takeWhile member⟩, numbering, cs.dropWhile member⟩

/-- A name followed at once by a colon defines a label, and otherwise refers to one. Only the reference
is an operand. -/
def name (cs : List Char) : Reading :=
  match cs.dropWhile isNameChar with
  | ':' :: rest => ⟨⟨.label, cs.takeWhile isNameChar ++ [':']⟩, .points, rest⟩
  | rest => ⟨⟨.labelName, cs.takeWhile isNameChar⟩, .takes, rest⟩

/-- What is read at the very front of a text. A NUL ends the input. -/
def reading? : List Char → Option Reading
  | [] => none
  | c :: cs =>
    if c = '\x00' then none
    else if c = '#' then some (run .unnumbered (fun _ => .comment) isCommentChar (c :: cs))
    else if isLineEnd c then some ⟨⟨.endOfLine, [c]⟩, .unnumbered, cs⟩
    else if c.isUpper then some (run .takes instructionKind Char.isUpper (c :: cs))
    else if c.isLower then some (name (c :: cs))
    else if c.isDigit then some (run .takes (fun _ => .int) Char.isDigit (c :: cs))
    else some ⟨⟨.illegal, [c]⟩, .takes, cs⟩

theorem isAlpha_iff {c : Char} : c.isAlpha ↔ c.isUpper ∨ c.isLower := Bool.or_eq_true_iff

theorem run_append (numbering : Numbering) (kind : List Char → TokenKind) (member : Char → Bool)
    (cs : List Char) :
    (run numbering kind member cs).lexeme.text ++ (run numbering kind member cs).rest = cs :=
  List.takeWhile_append_dropWhile

theorem name_append (cs : List Char) : (name cs).lexeme.text ++ (name cs).rest = cs := by
  have h := List.takeWhile_append_dropWhile (p := isNameChar) (l := cs)
  unfold name
  split
  · rename_i rest hr
    simpa [hr] using h
  · exact h

/-- A lexeme is the very text it was read from. -/
theorem reading?_append {cs : List Char} {r : Reading} (h : reading? cs = some r) :
    r.lexeme.text ++ r.rest = cs := by
  cases cs with
  | nil => cases h
  | cons c cs =>
    simp only [reading?] at h
    split at h
    · cases h
    split at h
    · cases h
      exact run_append _ (fun _ => .comment) _ _
    split at h
    · cases h
      rfl
    split at h
    · cases h
      exact run_append _ instructionKind _ _
    split at h
    · cases h
      exact name_append (c :: cs)
    split at h
    · cases h
      exact run_append _ (fun _ => .int) _ _
    · cases h
      rfl

private theorem run_text_ne_nil (numbering : Numbering) (kind : List Char → TokenKind)
    {member : Char → Bool} {c : Char} (cs : List Char) (hc : member c = true) :
    (run numbering kind member (c :: cs)).lexeme.text ≠ [] := by
  simp [run, hc]

private theorem name_text_ne_nil {c : Char} (cs : List Char) (hc : isNameChar c = true) :
    (name (c :: cs)).lexeme.text ≠ [] := by
  unfold name
  split <;> simp [hc]

theorem reading?_text_ne_nil {cs : List Char} {r : Reading} (h : reading? cs = some r) :
    r.lexeme.text ≠ [] := by
  cases cs with
  | nil => cases h
  | cons c cs =>
    simp only [reading?] at h
    split at h
    · cases h
    split at h
    · rename_i hc
      cases h
      exact run_text_ne_nil _ (fun _ => .comment) cs (by subst hc; decide)
    split at h
    · cases h
      simp
    split at h
    · rename_i hc
      cases h
      exact run_text_ne_nil _ instructionKind cs hc
    split at h
    · rename_i hc
      cases h
      exact name_text_ne_nil cs (by simp [isNameChar, isAlpha_iff, hc])
    split at h
    · rename_i hc
      cases h
      exact run_text_ne_nil _ (fun _ => .int) cs hc
    · cases h
      simp

/-- Reading a lexeme uses up at least one character. -/
theorem reading?_length_lt {cs : List Char} {r : Reading} (h : reading? cs = some r) :
    r.rest.length < cs.length := by
  have happ := congrArg List.length (reading?_append h)
  have hpos := List.length_pos_iff.mpr (reading?_text_ne_nil h)
  simp only [List.length_append] at happ
  omega

end Lexeme

end StackAssembly
