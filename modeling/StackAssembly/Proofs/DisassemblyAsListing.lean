import StackAssembly.Proofs.ShownInstructions

/-! A disassembly read as a listing. A line of an instruction reads to its address and its words; the
marks of raw words and missing operands have no value, so reading stops at the first of them. -/
namespace StackAssembly

namespace Listing

/-- Rows are numbered on from one part of them to the next. -/
theorem numberedFrom_rows_append {α : Type} {row : α → List Char} {before : List α}
    (hfeed : ∀ a ∈ before, '\n' ∉ row a) (after : List α) (number : Nat) :
    numberedFrom number ((before ++ after).flatMap (row · ++ ['\n'])) =
      numberedFrom number (before.flatMap (row · ++ ['\n'])) ++
        numberedFrom (number + before.length) (after.flatMap (row · ++ ['\n'])) := by
  induction before generalizing number with
  | nil => rfl
  | cons a before ih =>
    obtain ⟨ha, hfeed⟩ := List.forall_mem_cons.mp hfeed
    have hown (rest : List Char) : numberedFrom number (row a ++ ['\n'] ++ rest) =
        ((lineWords (row a)).map fun word => (number, word)) ++ numberedFrom (number + 1) rest := by
      rw [List.append_assoc, List.singleton_append, numberedFrom_line_append ha]
    rw [List.cons_append, List.flatMap_cons, List.flatMap_cons, hown, hown, ih hfeed, List.append_assoc,
      List.length_cons, Nat.add_assoc, Nat.add_comm 1]

theorem value_of_isMark {number : Nat} {field : List Char} (h : Disassembly.isMark field = true) :
    value (number, String.ofList field) = .error ⟨number, String.ofList field⟩ := by
  refine value_eq_error_iff.mpr ⟨fun hvalid => ?_, rfl⟩
  obtain ⟨w, hw⟩ := valid_iff.mp hvalid
  rw [Disassembly.not_isMark hw.chars.2] at h
  cases h

end Listing

/-- The field of a line that stands for no word. -/
def Entry.mark? : Entry → Option (List Char)
  | raw _ => some ".word".toList
  | missingOperand _ => some "?".toList
  | bare _ | withOperand .. => none

theorem Entry.filter_isMark_fields (e : Entry) :
    e.fields.filter Disassembly.isMark = e.mark?.toList := by
  have hword : Disassembly.isMark ".word".toList = true := by decide
  have hmissing : Disassembly.isMark "?".toList = true := by decide
  have hmnemonic (op : Opcode) := Disassembly.not_isMark (means_mnemonic op).chars.2
  have hnumeral (w : Word) := Disassembly.not_isMark (means_ofWord w).chars.2
  cases e <;> simp only [fields, mark?, List.filter_cons, List.filter_nil, hword, hmissing, hmnemonic,
    hnumeral] <;> rfl

namespace Line

variable {l : Line}

theorem spells_address (l : Line) : Numeral.Spells (Numeral.padded 4 l.address).toList l.address := by
  obtain ⟨hdigits, hvalue⟩ := Numeral.digits?_eq_some_iff.mp (Numeral.digits?_padded 4 l.address)
  have hspells := Numeral.Spells.unsigned hdigits
  rwa [hvalue] at hspells

theorem not_isMark_address (l : Line) :
    Disassembly.isMark (Numeral.padded 4 l.address).toList = false := by
  refine Disassembly.not_isMark fun c hc => (l.spells_address.chars.2 c hc).imp_left fun hdigit => ?_
  simp [Char.isAlphanum, hdigit]

/-- A line has one mark at most, and it stands behind the address. -/
theorem filter_isMark_fields (l : Line) : l.fields.filter Disassembly.isMark = l.entry.mark?.toList := by
  rw [fields, List.filter_cons_of_neg (by simp [not_isMark_address]), Entry.filter_isMark_fields]

theorem mark?_eq_some_iff {mark : List Char} :
    l.entry.mark? = some mark ↔ mark ∈ l.fields ∧ Disassembly.isMark mark = true := by
  rw [← List.mem_filter, filter_isMark_fields, Option.mem_toList]

theorem mark?_eq_none_iff :
    l.entry.mark? = none ↔ ∀ field ∈ l.fields, Disassembly.isMark field = false := by
  rw [← Option.toList_eq_nil_iff, ← filter_isMark_fields, List.filter_eq_nil_iff]
  simp

/-- The words that a line reads to, each with the way it is written: the address comes first. -/
def spelled (l : Line) : List (List Char × Word) :=
  ((Numeral.padded 4 l.address).toList, Int64.ofNat l.address) :: l.entry.spelled

theorem filter_fields (l : Line) :
    l.fields.filter (!Disassembly.isMark ·) = l.spelled.map (·.1) := by
  rw [fields, List.filter_cons_of_pos (by simp [not_isMark_address]), Entry.filter_fields, spelled,
    List.map_cons]

theorem means_of_mem_spelled (h : l.address ≤ Word.greatest) :
    ∀ s ∈ l.spelled, Listing.Means s.1 s.2 := by
  have hspells := l.spells_address
  rw [← Word.toInt_ofNat h] at hspells
  refine List.forall_mem_cons.mpr ⟨?_, Entry.means_of_mem_spelled⟩
  dsimp only
  exact .inr hspells

theorem means_of_mem_fields (h : l.address ≤ Word.greatest) {field : List Char} (hfield : field ∈ l.fields)
    (hmark : Disassembly.isMark field = false) : ∃ w, Listing.Means field w := by
  have hmem : field ∈ l.fields.filter (!Disassembly.isMark ·) :=
    List.mem_filter.mpr ⟨hfield, by rw [hmark]; rfl⟩
  rw [filter_fields] at hmem
  obtain ⟨s, hs, rfl⟩ := List.mem_map.mp hmem
  exact ⟨s.2, means_of_mem_spelled h s hs⟩

/-- A line without a mark reads to its words. -/
theorem forall₂_value_content (h : l.address ≤ Word.greatest) (hmark : l.entry.mark? = none) (number : Nat) :
    List.Forall₂ (fun numbered w => Listing.value numbered = .ok w)
      ((Listing.lineWords l.content).map fun word => (number, word)) (l.spelled.map (·.2)) := by
  have hfields : l.fields = l.spelled.map (·.1) := by
    rw [← filter_fields, eq_comm, List.filter_eq_self]
    intro field hfield
    rw [mark?_eq_none_iff.mp hmark field hfield]
    rfl
  rw [content, hfields]
  exact Listing.forall₂_value_spelled (means_of_mem_spelled h) number

/-- Before the mark of a line everything has a value. -/
theorem lineWords_of_mark {mark : List Char} (h : l.address ≤ Word.greatest)
    (hmark : l.entry.mark? = some mark) : ∃ front back : List (List Char),
      Listing.lineWords l.content = (front ++ mark :: back).map String.ofList ∧
      (∀ field ∈ front, ∃ w, Listing.Means field w) ∧ Disassembly.isMark mark = true := by
  have hfind : l.fields.find? Disassembly.isMark = some mark := by
    rw [← List.head?_filter, filter_isMark_fields, hmark]
    rfl
  obtain ⟨hismark, front, back, hfields, hfront⟩ := List.find?_eq_some_iff_append.mp hfind
  refine ⟨front, back, ?_, fun field hfield => ?_, hismark⟩
  · rw [← hfields]
    refine Listing.lineWords_intercalate (fun field hfield hnil => ?_) isWordChar_of_mem_fields
    subst hnil
    obtain ⟨w, hw⟩ := means_of_mem_fields h hfield (by decide)
    exact hw.chars.1 rfl
  · refine means_of_mem_fields h (by rw [hfields]; exact List.mem_append_left _ hfield) ?_
    simpa using hfront field hfield

/-- Either no line has a mark, or there is a first one that has. -/
theorem unmarked_or_first_mark (lines : List Line) :
    (∀ l ∈ lines, l.entry.mark? = none) ∨
      ∃ (before : List Line) (l : Line) (after : List Line) (mark : List Char),
        lines = before ++ l :: after ∧ (∀ k ∈ before, k.entry.mark? = none) ∧
        l.entry.mark? = some mark := by
  induction lines with
  | nil => exact .inl (by simp)
  | cons l lines ih =>
    cases hmark : l.entry.mark? with
    | some mark => exact .inr ⟨[], l, lines, mark, rfl, by simp, hmark⟩
    | none =>
      rcases ih with hnone | ⟨before, k, after, mark, rfl, hbefore, hk⟩
      · exact .inl (List.forall_mem_cons.mpr ⟨hmark, hnone⟩)
      · exact .inr ⟨l :: before, k, after, mark, rfl, List.forall_mem_cons.mpr ⟨hmark, hbefore⟩, hk⟩

end Line

namespace Disassembly

/-- No field of the row is a mark. -/
def Unmarked (row : List Char) : Prop := ∀ field ∈ row.splitOn ' ', isMark field = false

instance (row : List Char) : Decidable (Unmarked row) :=
  inferInstanceAs (Decidable (∀ field ∈ row.splitOn ' ', isMark field = false))

/-- The mark is a field of the row. -/
def Marks (row mark : List Char) : Prop := mark ∈ row.splitOn ' ' ∧ isMark mark = true

instance (row mark : List Char) : Decidable (Marks row mark) := inferInstanceAs (Decidable (_ ∧ _))

theorem unmarked_content_iff {l : Line} : Unmarked l.content ↔ l.entry.mark? = none := by
  rw [Unmarked, l.splitOn_content, Line.mark?_eq_none_iff]

theorem marks_content_iff {l : Line} {mark : List Char} :
    Marks l.content mark ↔ l.entry.mark? = some mark := by
  rw [Marks, l.splitOn_content, Line.mark?_eq_some_iff]

theorem unmarked_nil : Unmarked [] := by
  decide

theorem forall_unmarked_iff {lines : List Line} :
    (∀ row ∈ lines.map Line.content, Unmarked row) ↔ ∀ l ∈ lines, l.entry.mark? = none := by
  simp only [List.forall_mem_map, unmarked_content_iff]

/-- An operand is missing on the last line only. -/
theorem tail_of_missingOperand {address : Nat} {words : List Word} {before tail : List Line} {l : Line}
    {op : Opcode} (h : lines address words = before ++ l :: tail) (hl : l.entry = .missingOperand op) :
    tail = [] := by
  induction before generalizing address words with
  | nil =>
    revert h
    fun_cases lines address words with
    | case1 =>
      intro h
      cases h
    | case2 | case3 | case5 =>
      rintro ⟨⟩
      cases hl
    | case4 =>
      rintro ⟨⟩
      rfl
  | cons k before ih =>
    obtain ⟨rest, -, htail⟩ := lines_eq_cons h
    exact ih htail.symm

end Disassembly

namespace Program

open Disassembly

/-- The rows of a disassembly are its lines, and nothing behind the last line feed. -/
theorem splitOn_disassembly (p : Program) :
    p.disassembly.toList.splitOn '\n' = p.lines.map Line.content ++ [[]] := by
  rw [toList_disassembly, splitOn_lines p.lineFeed_not_mem_lines]

theorem address_lt_size {p : Program} {l : Line} (h : l ∈ p.lines) : l.address < p.size := by
  obtain ⟨before, left, tail, hp, haddress, hlines, -⟩ := exists_lines_eq_cons h
  have hne : left ≠ [] := by
    rintro rfl
    simp [Disassembly.lines] at hlines
  have hlength := List.length_pos_of_ne_nil hne
  rw [size_eq_length, hp, List.length_append]
  omega

/-- A row with a mark is the text of a line with this mark. -/
theorem exists_line_of_marks {p : Program} {before after : List (List Char)} {row mark : List Char}
    (h : p.disassembly.toList.splitOn '\n' = before ++ row :: after) (hmark : Marks row mark) :
    ∃ front l back, p.lines = front ++ l :: back ∧ before = front.map Line.content ∧
      row = l.content ∧ after = back.map Line.content ++ [[]] ∧ l.entry.mark? = some mark := by
  have hrow : row ≠ [] := by
    rintro rfl
    have hnone := unmarked_nil mark hmark.1
    rw [hmark.2] at hnone
    cases hnone
  rw [splitOn_disassembly] at h
  obtain ⟨rest, rfl⟩ : ∃ rest, after = rest ++ [[]] := by
    rcases List.eq_nil_or_concat' after with rfl | ⟨rest, last, rfl⟩
    · obtain ⟨-, hlast⟩ := List.append_inj' h rfl
      exact absurd (List.cons.inj hlast).1.symm hrow
    · rw [← List.cons_append, ← List.append_assoc] at h
      obtain ⟨-, hlast⟩ := List.append_inj' h rfl
      exact ⟨rest, by rw [← hlast]⟩
  rw [← List.cons_append, ← List.append_assoc] at h
  obtain ⟨front, others, hlines, rfl, hothers⟩ := List.map_eq_append_iff.mp (List.append_cancel_right h)
  obtain ⟨l, back, rfl, rfl, rfl⟩ := List.map_eq_cons_iff.mp hothers
  exact ⟨front, l, back, hlines, rfl, rfl, rfl, marks_content_iff.mp hmark⟩

theorem forall_unmarked_rows_iff {p : Program} :
    (∀ row ∈ p.disassembly.toList.splitOn '\n', Unmarked row) ↔ ∀ l ∈ p.lines, l.entry.mark? = none := by
  rw [splitOn_disassembly, List.forall_mem_append, forall_unmarked_iff]
  exact and_iff_left (List.forall_mem_singleton.mpr unmarked_nil)

/-- The first row with a mark is the first line with one, and has its number. -/
theorem first_marked_row_iff {p : Program} {e : InvalidWord} :
    (∃ before row after mark, p.disassembly.toList.splitOn '\n' = before ++ row :: after ∧
      (∀ other ∈ before, Unmarked other) ∧ Marks row mark ∧
      e = ⟨before.length + 1, String.ofList mark⟩) ↔
    ∃ (before : List Line) (l : Line) (after : List Line) (mark : List Char),
      p.lines = before ++ l :: after ∧ (∀ k ∈ before, k.entry.mark? = none) ∧
      l.entry.mark? = some mark ∧ e = ⟨before.length + 1, String.ofList mark⟩ := by
  constructor
  · rintro ⟨before, row, after, mark, hsplit, hbefore, hmark, rfl⟩
    obtain ⟨front, l, back, hlines, rfl, rfl, -, hl⟩ := exists_line_of_marks hsplit hmark
    exact ⟨front, l, back, mark, hlines, forall_unmarked_iff.mp hbefore, hl, by rw [List.length_map]⟩
  · rintro ⟨before, l, after, mark, hlines, hbefore, hmark, rfl⟩
    refine ⟨before.map Line.content, l.content, after.map Line.content ++ [[]], mark, ?_,
      forall_unmarked_iff.mpr hbefore, marks_content_iff.mpr hmark, by rw [List.length_map]⟩
    rw [splitOn_disassembly, hlines, List.map_append, List.map_cons, List.append_assoc, List.cons_append]

/-- Behind a row that lacks an operand there is nothing more. -/
theorem last_of_marks_missing {p : Program} {before after : List (List Char)} {row : List Char}
    (h : p.disassembly.toList.splitOn '\n' = before ++ row :: after) (hmark : Marks row "?".toList) :
    after = [[]] := by
  obtain ⟨front, l, back, hlines, -, -, rfl, hl⟩ := exists_line_of_marks h hmark
  obtain ⟨op, hentry⟩ : ∃ op, l.entry = .missingOperand op := by
    cases hentry : l.entry with
    | missingOperand op => exact ⟨op, rfl⟩
    | _ => simp [hentry, Entry.mark?] at hl
  rw [tail_of_missingOperand hlines hentry]
  rfl

/-- The words of the lines with the numbers of these. -/
theorem numberedWords_disassembly (p : Program) : Listing.numberedWords p.disassembly =
    Listing.numberedFrom 1 (p.lines.flatMap (·.content ++ ['\n'])) := by
  rw [Listing.numberedWords_eq, toList_disassembly, List.flatMap_map]

section Reading

variable {p : Program} (hsize : p.size ≤ Word.greatest)

include hsize

theorem address_le_greatest {l : Line} (h : l ∈ p.lines) : l.address ≤ Word.greatest :=
  Nat.le_of_lt (Nat.lt_of_lt_of_le (address_lt_size h) hsize)

/-- Lines without a mark read to their words. -/
theorem forall₂_value_contents {lines : List Line} (h : lines ⊆ p.lines)
    (hmarks : ∀ l ∈ lines, l.entry.mark? = none) (number : Nat) :
    List.Forall₂ (fun numbered w => Listing.value numbered = .ok w)
      (Listing.numberedFrom number (lines.flatMap (·.content ++ ['\n'])))
      (lines.flatMap fun l => l.spelled.map (·.2)) :=
  Listing.forall₂_value_rows (fun l _ => l.lineFeed_not_mem_content)
    (fun l hl => l.forall₂_value_content (address_le_greatest hsize (h hl)) (hmarks l hl)) number

theorem ofListing_of_unmarked (h : ∀ l ∈ p.lines, l.entry.mark? = none) :
    ofListing p.disassembly = .ok (.ofList (p.lines.flatMap fun l => l.spelled.map (·.2))) := by
  have hvalues := mapM_eq_ok_iff.mpr (forall₂_value_contents hsize (List.Subset.refl _) h 1)
  rw [← numberedWords_disassembly] at hvalues
  exact map_eq_ok_iff.mpr ⟨_, hvalues, rfl⟩

/-- Reading stops at the first mark. -/
theorem ofListing_of_marked {before after : List Line} {l : Line} {mark : List Char}
    (h : p.lines = before ++ l :: after) (hbefore : ∀ k ∈ before, k.entry.mark? = none)
    (hmark : l.entry.mark? = some mark) :
    ofListing p.disassembly = .error ⟨before.length + 1, String.ofList mark⟩ := by
  have hl : l ∈ p.lines := by
    rw [h]
    exact List.mem_append_right before List.mem_cons_self
  have hsub : before ⊆ p.lines := by
    rw [h]
    exact List.subset_append_left ..
  obtain ⟨front, back, hwords, hfront, hismark⟩ :=
    Line.lineWords_of_mark (address_le_greatest hsize hl) hmark
  have hnumbered : Listing.numberedWords p.disassembly =
      (Listing.numberedFrom 1 (before.flatMap (·.content ++ ['\n'])) ++
        front.map fun field => (before.length + 1, String.ofList field)) ++
      (before.length + 1, String.ofList mark) ::
        ((back.map fun field => (before.length + 1, String.ofList field)) ++
          Listing.numberedFrom (before.length + 1 + 1) (after.flatMap (·.content ++ ['\n']))) := by
    rw [numberedWords_disassembly, h,
      Listing.numberedFrom_rows_append (fun k _ => k.lineFeed_not_mem_content), List.flatMap_cons,
      List.append_assoc, List.singleton_append,
      Listing.numberedFrom_line_append l.lineFeed_not_mem_content, hwords, Nat.add_comm 1]
    simp [Function.comp_def]
  have hvalues := forall₂_value_contents hsize hsub hbefore 1
  rw [ofListing, map_eq_error_iff, hnumbered, mapM_eq_error_iff]
  refine ⟨_, _, _, rfl, ?_, Listing.value_of_isMark hismark⟩
  intro numbered hmem
  rcases List.mem_append.mp hmem with hmem | hmem
  · obtain ⟨i, hi⟩ := List.getElem?_of_mem hmem
    obtain ⟨w, -, hw⟩ := getElem?_of_forall₂ hvalues hi
    exact ⟨w, hw⟩
  · obtain ⟨field, hfield, rfl⟩ := List.mem_map.mp hmem
    obtain ⟨w, hw⟩ := hfront field hfield
    exact ⟨w, Listing.value_eq_ok_iff.mpr hw⟩

theorem ofListing_eq_ok_iff {q : Program} : ofListing p.disassembly = .ok q ↔
    (∀ l ∈ p.lines, l.entry.mark? = none) ∧ q = .ofList (p.lines.flatMap fun l => l.spelled.map (·.2)) := by
  constructor
  · intro hq
    rcases Line.unmarked_or_first_mark p.lines with hnone | ⟨_, _, _, _, hlines, hbefore, hmark⟩
    · rw [ofListing_of_unmarked hsize hnone] at hq
      exact ⟨hnone, (Except.ok.inj hq).symm⟩
    · rw [ofListing_of_marked hsize hlines hbefore hmark] at hq
      cases hq
  · rintro ⟨hnone, rfl⟩
    exact ofListing_of_unmarked hsize hnone

theorem ofListing_eq_error_iff {e : InvalidWord} : ofListing p.disassembly = .error e ↔
    ∃ (before : List Line) (l : Line) (after : List Line) (mark : List Char),
      p.lines = before ++ l :: after ∧ (∀ k ∈ before, k.entry.mark? = none) ∧
      l.entry.mark? = some mark ∧ e = ⟨before.length + 1, String.ofList mark⟩ := by
  constructor
  · intro he
    rcases Line.unmarked_or_first_mark p.lines with hnone | ⟨before, l, after, mark, hlines, hbefore, hmark⟩
    · rw [ofListing_of_unmarked hsize hnone] at he
      cases he
    · rw [ofListing_of_marked hsize hlines hbefore hmark] at he
      exact ⟨before, l, after, mark, hlines, hbefore, hmark, (Except.error.inj he).symm⟩
  · rintro ⟨before, l, after, mark, hlines, hbefore, hmark, rfl⟩
    exact ofListing_of_marked hsize hlines hbefore hmark

end Reading

/-- A line without a mark shows the instruction at its address. -/
theorem fetch_of_unmarked {p : Program} {l : Line} (h : l ∈ p.lines) (hmark : l.entry.mark? = none) :
    ∃ i, p.fetch l.address = .instruction i ∧ l.entry.words = i.opcode.word :: i.operand?.toList := by
  have hshown := (fetch_of_mem_lines h).1
  cases hfetch : p.fetch l.address with
  | pastEnd => simp [hfetch, Fetched.shown?] at hshown
  | unknown word =>
    rw [hfetch] at hshown
    rw [← Option.some.inj hshown] at hmark
    cases hmark
  | truncated op =>
    rw [hfetch] at hshown
    rw [← Option.some.inj hshown] at hmark
    cases hmark
  | instruction i =>
    refine ⟨i, rfl, ?_⟩
    rw [hfetch, Fetched.shown?] at hshown
    cases hoperand : i.operand? with
    | none =>
      rw [hoperand] at hshown
      rw [← Option.some.inj hshown]
      rfl
    | some operand =>
      rw [hoperand] at hshown
      rw [← Option.some.inj hshown]
      rfl

/-- A disassembly is a listing exactly if it has no marks. It then reads line by line to the address of
the instruction, the word of its opcode and its operands. Otherwise the first mark is the error, with
the number of its line; an operand is missing on the last line only. All this is so as long as addresses
are words, as they are in every program that a memory can hold. -/
theorem ofListing_disassembly (p : Program) (hsize : p.size ≤ Word.greatest) :
    (∀ q, Program.ofListing p.disassembly = .ok q ↔
      (∀ row ∈ p.disassembly.toList.splitOn '\n', Unmarked row) ∧
      q = .ofList (p.lines.flatMap fun l => Int64.ofNat l.address :: l.entry.words)) ∧
    ((∀ row ∈ p.disassembly.toList.splitOn '\n', Unmarked row) → ∀ l ∈ p.lines,
      (Int64.ofNat l.address).toInt = l.address ∧ ∃ i, p.fetch l.address = .instruction i ∧
        l.entry.words = i.opcode.word :: i.operand?.toList) ∧
    (∀ e, Program.ofListing p.disassembly = .error e ↔ ∃ before row after mark,
      p.disassembly.toList.splitOn '\n' = before ++ row :: after ∧
      (∀ other ∈ before, Unmarked other) ∧ Marks row mark ∧
      e = ⟨before.length + 1, String.ofList mark⟩) ∧
    ∀ before row after, p.disassembly.toList.splitOn '\n' = before ++ row :: after →
      Marks row "?".toList → after = [[]] := by
  refine ⟨fun q => ?_, fun hnone l hl => ?_, fun e => ?_, fun _ _ _ => last_of_marks_missing⟩
  · rw [forall_unmarked_rows_iff]
    exact ofListing_eq_ok_iff hsize
  · rw [forall_unmarked_rows_iff] at hnone
    exact ⟨Word.toInt_ofNat (address_le_greatest hsize hl), fetch_of_unmarked hl (hnone l hl)⟩
  · rw [first_marked_row_iff]
    exact ofListing_eq_error_iff hsize

/-- An instruction, and an opcode at the very end that lacks its operand. -/
theorem ofListing_disassembly_cut_off :
    (Program.ofList [1, -3, 7]).size ≤ Word.greatest ∧
    Program.ofListing (Program.ofList [1, -3, 7]).disassembly = .error ⟨2, "?"⟩ := by
  have hsize : (Program.ofList [1, -3, 7]).size ≤ Word.greatest := by decide
  refine ⟨hsize, ((ofListing_disassembly _ hsize).2.2.1 _).mpr ?_⟩
  exact ⟨["0000 ICONST -3".toList], "0002 JMP ?".toList, [[]], "?".toList, by decide, by decide,
    by decide, rfl⟩

example : Program.ofListing (Program.ofList [1, -3, 15]).disassembly = .ok (.ofList [0, 1, -3, 2, 15]) := by
  decide

end Program

end StackAssembly
