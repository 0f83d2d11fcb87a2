import StackAssembly.Program.Disassembly
import StackAssembly.Proofs.ListingGrammar

/-! Disassembly loses nothing. Without the addresses and the marks of raw words and missing operands
it is a listing of the very words it was written from. -/
namespace StackAssembly

namespace Listing

theorem Means.isWordChar {cs : List Char} {w : Word} (h : Means cs w) : ∀ c ∈ cs, isWordChar c := by
  intro c hc
  rcases h.chars.2 c hc with halphanum | rfl | rfl
  · exact isWordChar_of_isAlphanum halphanum
  · decide
  · decide

/-- Words with single spaces between them are found again. -/
theorem lineWords_intercalate {words : List (List Char)} (hne : ∀ word ∈ words, word ≠ [])
    (hwords : ∀ word ∈ words, ∀ c ∈ word, isWordChar c) :
    lineWords ([' '].intercalate words) = words.map String.ofList := by
  induction words with
  | nil => rfl
  | cons word words ih =>
    obtain ⟨hword, hne⟩ := List.forall_mem_cons.mp hne
    obtain ⟨hchars, hwords⟩ := List.forall_mem_cons.mp hwords
    cases words with
    | nil =>
      have hline : lineWords (word ++ []) = String.ofList word :: lineWords [] :=
        lineWords_word hword hchars (by simp)
      rw [List.intercalate_singleton, ← List.append_nil word, hline, List.append_nil]
      rfl
    | cons next words =>
      have hspace : ∀ c ∈ (' ' :: [' '].intercalate (next :: words)).head?, ¬ isWordChar c := by
        rintro c ⟨⟩
        decide
      rw [List.intercalate_cons_cons, List.append_assoc, List.singleton_append,
        lineWords_word hword hchars hspace, lineWords_separator (by decide), ih hne hwords]
      rfl

/-- Spellings with single spaces between them are read to the words they mean. -/
theorem forall₂_value_spelled {spelled : List (List Char × Word)} (h : ∀ s ∈ spelled, Means s.1 s.2)
    (number : Nat) : List.Forall₂ (fun numbered w => value numbered = .ok w)
      ((lineWords ([' '].intercalate (spelled.map (·.1)))).map fun word => (number, word))
      (spelled.map (·.2)) := by
  have hmeans {word : List Char} (hword : word ∈ spelled.map (·.1)) : ∃ w, Means word w := by
    obtain ⟨s, hs, rfl⟩ := List.mem_map.mp hword
    exact ⟨s.2, h s hs⟩
  have hwords : lineWords ([' '].intercalate (spelled.map (·.1))) =
      (spelled.map (·.1)).map String.ofList := by
    apply lineWords_intercalate
    · intro word hword
      obtain ⟨w, hw⟩ := hmeans hword
      exact hw.chars.1
    · intro word hword
      obtain ⟨w, hw⟩ := hmeans hword
      exact hw.isWordChar
  rw [hwords, List.forall₂_map_left_iff, List.forall₂_map_left_iff, List.forall₂_map_left_iff,
    List.forall₂_map_right_iff, List.forall₂_same]
  intro s hs
  exact value_eq_ok_iff.mpr (h s hs)

/-- Rows of which each has its values have them all together. -/
theorem forall₂_value_rows {α : Type} {row : α → List Char} {values : α → List Word} {items : List α}
    (hfeed : ∀ a ∈ items, '\n' ∉ row a)
    (hvalues : ∀ a ∈ items, ∀ number, List.Forall₂ (fun numbered w => value numbered = .ok w)
      ((lineWords (row a)).map fun word => (number, word)) (values a)) (number : Nat) :
    List.Forall₂ (fun numbered w => value numbered = .ok w)
      (numberedFrom number (items.flatMap (row · ++ ['\n']))) (items.flatMap values) := by
  induction items generalizing number with
  | nil => exact .nil
  | cons a items ih =>
    obtain ⟨ha, hfeed⟩ := List.forall_mem_cons.mp hfeed
    obtain ⟨hown, hvalues⟩ := List.forall_mem_cons.mp hvalues
    rw [List.flatMap_cons, List.flatMap_cons, List.append_assoc, List.singleton_append,
      numberedFrom_line_append ha]
    exact List.rel_append (hown number) (ih hfeed hvalues (number + 1))

end Listing

namespace Disassembly

/-- The fields that stand for no word. -/
def isMark (field : List Char) : Bool := field == ".word".toList || field == "?".toList

/-- Marks hold a character that no mnemonic and no numeral has. -/
theorem not_isMark {cs : List Char} (h : ∀ c ∈ cs, c.isAlphanum ∨ c = '+' ∨ c = '-') :
    isMark cs = false := by
  simp only [isMark, Bool.or_eq_false_iff, beq_eq_false_iff_ne]
  constructor
  · rintro rfl
    exact absurd (h '.' (by decide)) (by decide)
  · rintro rfl
    exact absurd (h '?' (by decide)) (by decide)

/-- A line without its first field and without marks. -/
def stripLine (line : List Char) : List Char :=
  [' '].intercalate (((line.splitOn ' ').drop 1).filter (!isMark ·))

/-- A text with every line stripped. -/
def strip (text : String) : String :=
  String.ofList (['\n'].intercalate ((text.toList.splitOn '\n').map stripLine))

theorem not_mem_intercalate {c separator : Char} (hc : c ≠ separator) {fields : List (List Char)}
    (hfields : ∀ field ∈ fields, c ∉ field) : c ∉ [separator].intercalate fields := by
  induction fields with
  | nil => simp
  | cons field fields ih =>
    obtain ⟨hfield, hfields⟩ := List.forall_mem_cons.mp hfields
    cases fields with
    | nil => rwa [List.intercalate_singleton]
    | cons next fields =>
      rw [List.intercalate_cons_cons, List.mem_append, List.mem_append, List.mem_singleton, not_or,
        not_or]
      exact ⟨⟨hfield, hc⟩, ih hfields⟩

/-- Lines that all end in a line feed. -/
theorem intercalate_lines (lines : List (List Char)) :
    ['\n'].intercalate (lines ++ [[]]) = lines.flatMap (· ++ ['\n']) := by
  induction lines with
  | nil => rfl
  | cons line lines ih =>
    rw [List.cons_append, List.intercalate_cons_of_ne_nil (by simp), ih, List.flatMap_cons]

theorem splitOn_lines {lines : List (List Char)} (h : ∀ line ∈ lines, '\n' ∉ line) :
    (lines.flatMap (· ++ ['\n'])).splitOn '\n' = lines ++ [[]] := by
  rw [← intercalate_lines]
  apply List.splitOn_intercalate
  · exact List.forall_mem_append.mpr ⟨h, by simp⟩
  · simp

theorem toList_strip_lines {lines : List (List Char)} (h : ∀ line ∈ lines, '\n' ∉ line) :
    (strip (String.ofList (lines.flatMap (· ++ ['\n'])))).toList =
      (lines.map stripLine).flatMap (· ++ ['\n']) := by
  rw [strip, String.toList_ofList, String.toList_ofList, splitOn_lines h, List.map_append,
    ← intercalate_lines]
  rfl

end Disassembly

namespace Entry

/-- The words that a line shows, each with the way it is written. -/
def spelled : Entry → List (List Char × Word)
  | raw word => [((Numeral.ofWord word).toList, word)]
  | bare op => [(op.mnemonic.toList, op.word)]
  | withOperand op operand =>
    [(op.mnemonic.toList, op.word), ((Numeral.ofWord operand).toList, operand)]
  | missingOperand op => [(op.mnemonic.toList, op.word)]

def words (e : Entry) : List Word := e.spelled.map (·.2)

/-- All that a line shows behind the address, field by field. -/
def fields : Entry → List (List Char)
  | raw word => [".word".toList, (Numeral.ofWord word).toList]
  | bare op => [op.mnemonic.toList]
  | withOperand op operand => [op.mnemonic.toList, (Numeral.ofWord operand).toList]
  | missingOperand op => [op.mnemonic.toList, "?".toList]

theorem toList_text (e : Entry) : e.text.toList = [' '].intercalate e.fields := by
  cases e <;> simp [text, fields]

theorem means_mnemonic (op : Opcode) : Listing.Means op.mnemonic.toList op.word :=
  .inl ⟨op, rfl, rfl⟩

theorem means_ofWord (w : Word) : Listing.Means (Numeral.ofWord w).toList w :=
  .inr (Numeral.spells_ofWord w)

theorem means_of_mem_spelled {e : Entry} : ∀ s ∈ e.spelled, Listing.Means s.1 s.2 := by
  cases e <;> simp [spelled, means_mnemonic, means_ofWord]

/-- What is no mark is the spelling of a word. -/
theorem filter_fields (e : Entry) :
    e.fields.filter (!Disassembly.isMark ·) = e.spelled.map (·.1) := by
  have hword : Disassembly.isMark ".word".toList = true := by decide
  have hmissing : Disassembly.isMark "?".toList = true := by decide
  cases e <;> simp only [fields, spelled, List.filter_cons, List.filter_nil, List.map_cons, List.map_nil,
    hword, hmissing, Disassembly.not_isMark (means_mnemonic _).chars.2,
    Disassembly.not_isMark (means_ofWord _).chars.2] <;> rfl

theorem isWordChar_of_mem_fields {e : Entry} :
    ∀ field ∈ e.fields, ∀ c ∈ field, Listing.isWordChar c := by
  have hword : ∀ c ∈ ".word".toList, Listing.isWordChar c := List.all_eq_true.mp (by decide)
  have hmissing : ∀ c ∈ "?".toList, Listing.isWordChar c := List.all_eq_true.mp (by decide)
  have hmnemonic (op : Opcode) := (means_mnemonic op).isWordChar
  have hnumeral (w : Word) := (means_ofWord w).isWordChar
  cases e with
  | raw w => exact List.forall_mem_cons.mpr ⟨hword, List.forall_mem_singleton.mpr (hnumeral w)⟩
  | bare op => exact List.forall_mem_singleton.mpr (hmnemonic op)
  | withOperand op w =>
    exact List.forall_mem_cons.mpr ⟨hmnemonic op, List.forall_mem_singleton.mpr (hnumeral w)⟩
  | missingOperand op =>
    exact List.forall_mem_cons.mpr ⟨hmnemonic op, List.forall_mem_singleton.mpr hmissing⟩

end Entry

namespace Disassembly

/-- Nothing is left out and nothing is added, wherever the operands fall. -/
theorem flatMap_words_lines (address : Nat) (words : List Word) :
    (lines address words).flatMap (·.entry.words) = words := by
  fun_induction lines address words with
  | case1 => rfl
  | case2 address word rest hop ih =>
    rw [List.flatMap_cons, ih]
    rfl
  | case3 address word rest op hop harity ih =>
    rw [List.flatMap_cons, ih, ← Opcode.ofWord?_eq_some_iff.mp hop]
    rfl
  | case4 address word op hop harity =>
    rw [← Opcode.ofWord?_eq_some_iff.mp hop]
    rfl
  | case5 address word op hop harity operand rest ih =>
    rw [List.flatMap_cons, ih, ← Opcode.ofWord?_eq_some_iff.mp hop]
    rfl

end Disassembly

namespace Line

/-- All fields of a line, the address first. -/
def fields (l : Line) : List (List Char) := (Numeral.padded 4 l.address).toList :: l.entry.fields

theorem toList_text (l : Line) : l.text.toList = [' '].intercalate l.fields ++ ['\n'] := by
  have hne : l.entry.fields ≠ [] := by cases l.entry <;> simp [Entry.fields]
  simp [text, fields, Entry.toList_text, List.intercalate_cons_of_ne_nil hne]

theorem isWordChar_of_mem_fields {l : Line} :
    ∀ field ∈ l.fields, ∀ c ∈ field, Listing.isWordChar c := by
  refine List.forall_mem_cons.mpr ⟨fun c hc => ?_, Entry.isWordChar_of_mem_fields⟩
  have hdigits := (Numeral.digits?_eq_some_iff.mp (Numeral.digits?_padded 4 l.address)).1
  exact Listing.isWordChar_of_isDigit (hdigits.2 c hc)

/-- A line without its line feed. -/
def content (l : Line) : List Char := [' '].intercalate l.fields

theorem lineFeed_not_mem_content (l : Line) : '\n' ∉ l.content := by
  apply Disassembly.not_mem_intercalate (by decide)
  intro field hfield hfeed
  exact absurd (isWordChar_of_mem_fields field hfield '\n' hfeed) (by decide)

/-- The words of a line as they are written, with single spaces between them. -/
def listing (l : Line) : List Char := [' '].intercalate (l.entry.spelled.map (·.1))

theorem splitOn_content (l : Line) : l.content.splitOn ' ' = l.fields := by
  apply List.splitOn_intercalate
  · intro field hfield hspace
    exact absurd (isWordChar_of_mem_fields field hfield ' ' hspace) (by decide)
  · simp [fields]

theorem stripLine_content (l : Line) : Disassembly.stripLine l.content = l.listing := by
  rw [Disassembly.stripLine, splitOn_content, fields, List.drop_one, List.tail_cons,
    Entry.filter_fields]
  rfl

theorem lineFeed_not_mem_listing (l : Line) : '\n' ∉ l.listing := by
  apply Disassembly.not_mem_intercalate (by decide)
  intro field hfield hfeed
  obtain ⟨s, hs, rfl⟩ := List.mem_map.mp hfield
  exact absurd ((Entry.means_of_mem_spelled s hs).isWordChar '\n' hfeed) (by decide)

/-- Read as lines of a listing, they have the values of their words. -/
theorem forall₂_value_listings (lines : List Line) (number : Nat) :
    List.Forall₂ (fun numbered w => Listing.value numbered = .ok w)
      (Listing.numberedFrom number (lines.flatMap (·.listing ++ ['\n'])))
      (lines.flatMap (·.entry.words)) :=
  Listing.forall₂_value_rows (fun l _ => l.lineFeed_not_mem_listing)
    (fun _ _ => Listing.forall₂_value_spelled Entry.means_of_mem_spelled) number

end Line

namespace Program

theorem toList_disassembly (p : Program) :
    p.disassembly.toList = (p.lines.map Line.content).flatMap (· ++ ['\n']) := by
  simp [disassembly, List.flatMap_map, Line.toList_text, Line.content]

theorem lineFeed_not_mem_lines (p : Program) : ∀ line ∈ p.lines.map Line.content, '\n' ∉ line := by
  intro line hline
  obtain ⟨l, -, rfl⟩ := List.mem_map.mp hline
  exact l.lineFeed_not_mem_content

theorem toList_strip_disassembly (p : Program) :
    (Disassembly.strip p.disassembly).toList = p.lines.flatMap (·.listing ++ ['\n']) := by
  have hstrip := Disassembly.toList_strip_lines p.lineFeed_not_mem_lines
  rw [← toList_disassembly, String.ofList_toList] at hstrip
  rw [hstrip, List.map_map, List.flatMap_map]
  simp [Line.stripLine_content]

/-- A stripped disassembly is a listing of the program. -/
theorem ofListing_strip_disassembly (p : Program) :
    Program.ofListing (Disassembly.strip p.disassembly) = .ok p := by
  have hvalues := mapM_eq_ok_iff.mpr (Line.forall₂_value_listings p.lines 1)
  have hwords : p.lines.flatMap (·.entry.words) = p.toList :=
    Disassembly.flatMap_words_lines 0 p.toList
  rw [← toList_strip_disassembly, ← Listing.numberedWords_eq, hwords] at hvalues
  exact map_eq_ok_iff.mpr ⟨p.toList, hvalues, p.ofList_toList⟩

/-- Disassembly is lossless: without addresses and marks its text reads to the program it was written
from, whatever the words of the program are. So no two programs have the same disassembly. -/
theorem disassembly_lossless :
    (∀ p : Program, Program.ofListing (Disassembly.strip p.disassembly) = .ok p) ∧
      Function.Injective Program.disassembly := by
  refine ⟨ofListing_strip_disassembly, fun p q h => ?_⟩
  have hp := ofListing_strip_disassembly p
  rw [h, ofListing_strip_disassembly q] at hp
  exact (Except.ok.inj hp).symm

example : (Program.ofList [1, -3, 42, 7]).disassembly =
    "0000 ICONST -3\n0002 .word 42\n0003 JMP ?\n" := by
  decide

end Program

end StackAssembly
