import StackAssembly.Token.Lexeme

/-! The lexer: a place in a source text, from which tokens are read one after another. -/
namespace StackAssembly

/-- What is left to read, the current line and the position of the next operand. `finished` tells
that the end of input has been handed out by `next`. -/
structure Lexer where
  rest : List Char
  line : Nat := 1
  index : Nat := 0
  finished : Bool := false
  deriving DecidableEq, Repr

/-- The end of a line has no literal. -/
def Reading.token (r : Reading) (line index : Nat) : Token where
  kind := r.lexeme.kind
  literal := if r.lexeme.kind = .endOfLine then "" else String.ofList r.lexeme.text
  line := line
  index := r.numbering.index? index

namespace Lexer

def ofString (source : String) : Lexer := { rest := source.toList }

/-- What is left to read once blanks are skipped. -/
def pending (l : Lexer) : List Char := l.rest.dropWhile Lexeme.isBlank

/-- The place after a lexeme, with its counters moved on. -/
def past (l : Lexer) (r : Reading) : Lexer :=
  { l with
    rest := r.rest
    line := if r.lexeme.kind = .endOfLine then l.line + 1 else l.line
    index := r.numbering.next l.index }

/-- Reads one token. At the end of input it gives the end over and over. -/
def nextToken (l : Lexer) : Token × Lexer :=
  match Lexeme.reading? l.pending with
  | none => (⟨.endOfInput, "", l.line, none⟩, { l with rest := l.pending })
  | some r => (r.token l.line l.index, l.past r)

/-- Reads one token, and nothing more once it has given the end of input. -/
def next (l : Lexer) : Option Token × Lexer :=
  if l.finished then (none, l)
  else
    let read := l.nextToken
    (some read.1, { read.2 with finished := read.1.kind == .endOfInput })

/-- An upper bound on how many tokens `next` can still give. -/
def remaining (l : Lexer) : Nat := if l.finished then 0 else l.rest.length + 1

theorem nextToken_finished (l : Lexer) : l.nextToken.2.finished = l.finished := by
  unfold nextToken
  split <;> rfl

theorem nextToken_length_lt {l : Lexer} (h : l.nextToken.1.kind ≠ .endOfInput) :
    l.nextToken.2.rest.length < l.rest.length := by
  have hp : l.pending.length ≤ l.rest.length := (List.dropWhile_sublist _).length_le
  unfold nextToken at h ⊢
  split
  · rename_i hr
    simp [hr] at h
  · rename_i hr
    exact Nat.lt_of_lt_of_le (Lexeme.reading?_length_lt hr) hp

theorem next_remaining_lt {l l' : Lexer} {t : Token} (h : l.next = (some t, l')) :
    l'.remaining < l.remaining := by
  unfold next at h
  split at h
  · cases h
  · rename_i hf
    simp only [Prod.mk.injEq] at h
    obtain ⟨_, rfl⟩ := h
    by_cases hk : l.nextToken.1.kind = .endOfInput
    · simp [remaining, hf, hk]
    · have := nextToken_length_lt hk
      simpa [remaining, hf, hk] using this

/-- All tokens that `next` still gives, and the place after them. -/
def drain (l : Lexer) : List Token × Lexer :=
  match _h : l.next with
  | (none, l) => ([], l)
  | (some token, after) =>
    let (tokens, last) := drain after
    (token :: tokens, last)
termination_by l.remaining
decreasing_by exact next_remaining_lt (by assumption)

end Lexer

/-- The tokens of a source text; the last one is the end of input. -/
def lex (source : String) : List Token := (Lexer.ofString source).drain.1

end StackAssembly
