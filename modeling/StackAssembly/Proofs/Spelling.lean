import StackAssembly.Program.Listing
import StackAssembly.Proofs.LongestMatch

/-! The words of a listing and what they mean. A word is a mnemonic or a decimal numeral in range,
and no other text has a value. -/
namespace StackAssembly

namespace Numeral

/-- A run of at least one digit. -/
def IsDigits (cs : List Char) : Prop := cs ≠ [] ∧ ∀ c ∈ cs, c.isDigit

/-- The ways to write an integer: digits behind at most one sign. -/
inductive Spells : List Char → Int → Prop where
  | unsigned {cs : List Char} : IsDigits cs → Spells cs (Nat.ofDigitChars 10 cs 0)
  | plus {cs : List Char} : IsDigits cs → Spells ('+' :: cs) (Nat.ofDigitChars 10 cs 0)
  | minus {cs : List Char} : IsDigits cs → Spells ('-' :: cs) (-(Nat.ofDigitChars 10 cs 0 : Int))

/-- A numeral is written with digits and signs. -/
theorem Spells.chars {cs : List Char} {i : Int} (h : Spells cs i) :
    cs ≠ [] ∧ ∀ c ∈ cs, c.isDigit ∨ c = '+' ∨ c = '-' := by
  have hdigit {cs : List Char} (hdigits : IsDigits cs) : ∀ c ∈ cs, c.isDigit ∨ c = '+' ∨ c = '-' :=
    fun c hc => .inl (hdigits.2 c hc)
  cases h with
  | unsigned hdigits => exact ⟨hdigits.1, hdigit hdigits⟩
  | plus hdigits => exact ⟨by simp, List.forall_mem_cons.mpr ⟨.inr (.inl rfl), hdigit hdigits⟩⟩
  | minus hdigits => exact ⟨by simp, List.forall_mem_cons.mpr ⟨.inr (.inr rfl), hdigit hdigits⟩⟩

theorem digits?_eq_some_iff {cs : List Char} {n : Nat} :
    digits? cs = some n ↔ IsDigits cs ∧ Nat.ofDigitChars 10 cs 0 = n := by
  rw [digits?, Option.ite_none_right_eq_some, Option.some_inj, List.all_eq_true]
  rfl

theorem integer?_eq_some_iff {cs : List Char} {i : Int} : integer? cs = some i ↔ Spells cs i := by
  constructor
  · intro h
    unfold integer? at h
    split at h
    all_goals
      obtain ⟨n, hn, rfl⟩ := Option.map_eq_some_iff.mp h
      obtain ⟨hdigits, rfl⟩ := digits?_eq_some_iff.mp hn
    · exact .plus hdigits
    · exact .minus hdigits
    · exact .unsigned hdigits
  · have hread {cs : List Char} (hdigits : IsDigits cs) :
        digits? cs = some (Nat.ofDigitChars 10 cs 0) :=
      digits?_eq_some_iff.mpr ⟨hdigits, rfl⟩
    intro h
    cases h with
    | plus hdigits => rw [integer?, hread hdigits, Option.map_some]
    | minus hdigits => rw [integer?, hread hdigits, Option.map_some]
    | unsigned hdigits =>
      unfold integer?
      split
      · exact absurd (hdigits.2 '+' List.mem_cons_self) (by decide)
      · exact absurd (hdigits.2 '-' List.mem_cons_self) (by decide)
      · rw [hread hdigits, Option.map_some]

theorem word?_eq_some_iff {cs : List Char} {w : Word} :
    word? (String.ofList cs) = some w ↔ Spells cs w.toInt := by
  rw [word?, String.toList_ofList, Option.bind_eq_some_iff]
  constructor
  · rintro ⟨i, hi, hw⟩
    rw [Word.toInt_of_ofInt? hw]
    exact integer?_eq_some_iff.mp hi
  · intro h
    exact ⟨w.toInt, integer?_eq_some_iff.mpr h, Word.ofInt?_toInt w⟩

/-- What is written for a word spells it. -/
theorem spells_ofWord (w : Word) : Spells (ofWord w).toList w.toInt := by
  have hnat (n : Nat) : IsDigits (Nat.toDigits 10 n) ∧ Nat.ofDigitChars 10 (Nat.toDigits 10 n) 0 = n :=
    digits?_eq_some_iff.mp (digits?_toDigits n)
  unfold ofWord
  cases w.toInt with
  | ofNat n =>
    change Spells n.repr.toList n
    rw [Nat.toList_repr]
    have h := Spells.unsigned (hnat n).1
    rwa [(hnat n).2] at h
  | negSucc n =>
    change Spells ("-" ++ (n + 1).repr).toList (-((n + 1 : Nat) : Int))
    rw [String.toList_append, Nat.toList_repr]
    have h := Spells.minus (hnat (n + 1)).1
    rwa [(hnat (n + 1)).2] at h

end Numeral

namespace Listing

/-- The value of a word: the word of an opcode, or the integer it spells. -/
def Means (cs : List Char) (w : Word) : Prop :=
  (∃ op : Opcode, cs = op.mnemonic.toList ∧ w = op.word) ∨ Numeral.Spells cs w.toInt

/-- A mnemonic, or a spelling of an integer that fits a word. -/
def Valid (cs : List Char) : Prop :=
  (∃ op : Opcode, cs = op.mnemonic.toList) ∨
    ∃ i, Numeral.Spells cs i ∧ -(Word.greatest : Int) - 1 ≤ i ∧ i ≤ Word.greatest

theorem valid_iff {cs : List Char} : Valid cs ↔ ∃ w, Means cs w := by
  constructor
  · rintro (⟨op, rfl⟩ | ⟨i, hi, hrange⟩)
    · exact ⟨op.word, .inl ⟨op, rfl, rfl⟩⟩
    · have hfits : Word.ofInt? i = some (Int64.ofInt i) := if_pos hrange
      rw [← Word.toInt_of_ofInt? hfits] at hi
      exact ⟨_, .inr hi⟩
  · rintro ⟨w, ⟨op, rfl, -⟩ | hw⟩
    · exact .inl ⟨op, rfl⟩
    · exact .inr ⟨w.toInt, hw, w.le_toInt, w.toInt_le_greatest⟩

/-- Words with a value are written with letters, digits and signs. -/
theorem Means.chars {cs : List Char} {w : Word} (h : Means cs w) :
    cs ≠ [] ∧ ∀ c ∈ cs, c.isAlphanum ∨ c = '+' ∨ c = '-' := by
  rcases h with ⟨op, rfl, -⟩ | hspells
  · refine ⟨op.mnemonic_ne_nil, fun c hc => .inl ?_⟩
    simp [Char.isAlphanum, Lexeme.isAlpha_iff, op.isUpper_of_mem_mnemonic c hc]
  · refine ⟨hspells.chars.1, fun c hc => (hspells.chars.2 c hc).imp_left fun hdigit => ?_⟩
    simp [Char.isAlphanum, hdigit]

/-- A numeral holds no capital, so it is no mnemonic. -/
private theorem ne_mnemonic_of_spells {cs : List Char} {i : Int} (h : Numeral.Spells cs i)
    (op : Opcode) : cs ≠ op.mnemonic.toList := by
  rintro rfl
  obtain ⟨hne, hchars⟩ := h.chars
  obtain ⟨c, hc⟩ := List.exists_mem_of_ne_nil _ hne
  have hupper := op.isUpper_of_mem_mnemonic c hc
  rcases hchars c hc with hdigit | rfl | rfl
  · exact Lexeme.not_isAlpha_of_isDigit hdigit (Lexeme.isAlpha_iff.mpr (.inl hupper))
  · exact absurd hupper (by decide)
  · exact absurd hupper (by decide)

theorem value?_eq_some_iff {cs : List Char} {w : Word} :
    value? (String.ofList cs) = some w ↔ Means cs w := by
  unfold value? Means
  cases hop : Opcode.ofMnemonic? (String.ofList cs) with
  | some op =>
    have htext : cs = op.mnemonic.toList := by
      rw [Opcode.ofMnemonic?_eq_some_iff.mp hop, String.toList_ofList]
    constructor
    · intro h
      exact .inl ⟨op, htext, (Option.some.inj h).symm⟩
    · rintro (⟨other, hother, rfl⟩ | h)
      · rw [hother, String.ofList_toList, Opcode.ofMnemonic?_mnemonic] at hop
        rw [Option.some.inj hop]
      · exact absurd htext (ne_mnemonic_of_spells h op)
  | none =>
    rw [← Numeral.word?_eq_some_iff]
    constructor
    · exact .inr
    · rintro (⟨op, rfl, rfl⟩ | h)
      · rw [String.ofList_toList, Opcode.ofMnemonic?_mnemonic] at hop
        cases hop
      · exact h

theorem value_eq_ok_iff {number : Nat} {cs : List Char} {w : Word} :
    value (number, String.ofList cs) = .ok w ↔ Means cs w := by
  rw [← value?_eq_some_iff, value]
  cases value? (String.ofList cs) <;> simp

theorem value_eq_error_iff {number : Nat} {cs : List Char} {e : InvalidWord} :
    value (number, String.ofList cs) = .error e ↔ ¬ Valid cs ∧ e = ⟨number, String.ofList cs⟩ := by
  simp only [valid_iff, ← value?_eq_some_iff, value]
  cases value? (String.ofList cs) <;> simp [eq_comm]

end Listing

end StackAssembly
