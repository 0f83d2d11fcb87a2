import StackAssembly.Word

/-! Decimal text of words and addresses. Reading takes one optional sign and at least one digit,
and refuses what does not fit a word; writing gives the shortest form, or pads it with zeros. -/
namespace StackAssembly.Numeral

/-- The number that a non-empty run of ASCII digits spells. -/
def digits? (cs : List Char) : Option Nat :=
  if cs ≠ [] ∧ cs.all Char.isDigit then some (Nat.ofDigitChars 10 cs 0) else none

def integer? : List Char → Option Int
  | '+' :: cs => (digits? cs).map fun n : Nat => (n : Int)
  | '-' :: cs => (digits? cs).map fun n : Nat => -(n : Int)
  | cs => (digits? cs).map fun n : Nat => (n : Int)

/-- The word that a text spells, if it is a numeral in range. -/
def word? (text : String) : Option Word := (integer? text.toList).bind Word.ofInt?

def ofWord (w : Word) : String := w.toInt.repr

/-- At least `width` digits, filled with zeros from the left. -/
def padded (width n : Nat) : String :=
  String.ofList (List.replicate (width - (Nat.toDigits 10 n).length) '0' ++ Nat.toDigits 10 n)

private theorem isDigit_toDigits (n : Nat) : ∀ c ∈ Nat.toDigits 10 n, c.isDigit = true :=
  fun _ hc => Nat.isDigit_of_mem_toDigits (by decide) (by decide) hc

theorem digits?_toDigits (n : Nat) : digits? (Nat.toDigits 10 n) = some n := by
  have hd : (Nat.toDigits 10 n).all Char.isDigit = true := List.all_eq_true.mpr (isDigit_toDigits n)
  simp [digits?, hd, -List.all_eq_true]

/-- A zero-filled numeral still spells the same number. -/
theorem digits?_padded (width n : Nat) : digits? (padded width n).toList = some n := by
  have ha : (List.replicate (width - (Nat.toDigits 10 n).length) '0' ++ Nat.toDigits 10 n).all
      Char.isDigit = true := by
    simp only [List.all_append, Bool.and_eq_true, List.all_eq_true]
    refine ⟨fun c hc => ?_, isDigit_toDigits n⟩
    rw [List.eq_of_mem_replicate hc]
    rfl
  simp [padded, digits?, ha, Nat.ofDigitChars_append, -List.all_append, -List.all_eq_true]

end StackAssembly.Numeral
