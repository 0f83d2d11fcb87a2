import Mathlib.Data.List.TakeWhile
import StackAssembly.Token.Lexeme

/-! Longest match. Each kind of lexeme has a form of its own and takes in every character that
would still fit; a text is cut into lexemes and blanks in exactly one such way. -/
namespace StackAssembly

theorem Opcode.mnemonic_ne_nil (op : Opcode) : op.mnemonic.toList ≠ [] := by
  cases op <;> decide

theorem Opcode.isUpper_of_mem_mnemonic (op : Opcode) :
    ∀ c ∈ op.mnemonic.toList, c.isUpper = true := by
  have hall : op.mnemonic.toList.all Char.isUpper = true := by cases op <;> decide
  exact List.all_eq_true.mp hall

/-- The characters that would still belong to a lexeme of this kind if they came next. -/
def TokenKind.Absorbs : TokenKind → Char → Prop
  | instruction _, c | unknownInstruction, c => c.isUpper
  | labelName, c => c.isAlpha ∨ c = '_' ∨ c = ':'
  | int, c => c.isDigit
  | comment, c => c ≠ '\n' ∧ c ≠ '\x00'
  | label, _ | endOfLine, _ | endOfInput, _ | illegal, _ => False

/-- No lexeme reaches over a line feed, not even a comment. -/
theorem TokenKind.not_absorbs_lineFeed (kind : TokenKind) : ¬ kind.Absorbs '\n' := by
  cases kind <;> simp [Absorbs]

namespace Lexeme

/-- The lexeme at the very front of a text and what follows it. -/
def read? (cs : List Char) : Option (Lexeme × List Char) :=
  (reading? cs).map fun r => (r.lexeme, r.rest)

theorem read?_of_reading? {cs : List Char} {r : Reading} (h : reading? cs = some r) :
    read? cs = some (r.lexeme, r.rest) := by
  rw [read?, h, Option.map_some]

theorem exists_reading? {cs rest : List Char} {x : Lexeme} (h : read? cs = some (x, rest)) :
    ∃ numbering, reading? cs = some ⟨x, numbering, rest⟩ := by
  obtain ⟨⟨_, numbering, _⟩, hr, hx⟩ := Option.map_eq_some_iff.mp h
  cases hx
  exact ⟨numbering, hr⟩

theorem read?_append {cs rest : List Char} {x : Lexeme} (h : read? cs = some (x, rest)) :
    x.text ++ rest = cs := by
  obtain ⟨_, hr⟩ := exists_reading? h
  exact reading?_append hr

theorem read?_length_lt {cs rest : List Char} {x : Lexeme} (h : read? cs = some (x, rest)) :
    rest.length < cs.length := by
  obtain ⟨_, hr⟩ := exists_reading? h
  exact reading?_length_lt hr

/-- Names of labels: a small letter, then letters and underscores. -/
def IsName (cs : List Char) : Prop :=
  ∃ c rest, cs = c :: rest ∧ c.isLower ∧ ∀ d ∈ rest, d.isAlpha ∨ d = '_'

/-- A character that is neither a blank nor the beginning of any other lexeme. -/
def IsStray (c : Char) : Prop :=
  ¬ c.isAlpha ∧ ¬ c.isDigit ∧ c ∉ ['#', ' ', '\t', '\n', '\r', '\x00']

/-- The text has the form that lexemes of its kind have. -/
def Fits (x : Lexeme) : Prop :=
  match x.kind with
  | .instruction op => x.text = op.mnemonic.toList
  | .unknownInstruction =>
    x.text ≠ [] ∧ (∀ c ∈ x.text, c.isUpper) ∧ ∀ op : Opcode, x.text ≠ op.mnemonic.toList
  | .label => ∃ name, IsName name ∧ x.text = name ++ [':']
  | .labelName => IsName x.text
  | .int => x.text ≠ [] ∧ ∀ c ∈ x.text, c.isDigit
  | .comment => ∃ cs, x.text = '#' :: cs ∧ ∀ c ∈ cs, c ≠ '\n' ∧ c ≠ '\x00'
  | .endOfLine => x.text = ['\n'] ∨ x.text = ['\r']
  | .endOfInput => False
  | .illegal => ∃ c, x.text = [c] ∧ IsStray c

/-- A run of capitals is an instruction if it is a mnemonic, and otherwise an unknown one. -/
theorem instructionKind_cases (text : List Char) :
    (∃ op : Opcode, text = op.mnemonic.toList ∧ instructionKind text = .instruction op) ∨
      (∀ op : Opcode, text ≠ op.mnemonic.toList) ∧ instructionKind text = .unknownInstruction := by
  unfold instructionKind
  cases hop : Opcode.ofMnemonic? (String.ofList text) with
  | some op =>
    have hname := Opcode.ofMnemonic?_eq_some_iff.mp hop
    exact .inl ⟨op, by rw [hname, String.toList_ofList], rfl⟩
  | none =>
    refine .inr ⟨fun op htext => ?_, rfl⟩
    rw [htext, String.ofList_toList, Opcode.ofMnemonic?_mnemonic] at hop
    cases hop

theorem isOperand_instructionKind (text : List Char) : (instructionKind text).isOperand = true := by
  rcases instructionKind_cases text with ⟨op, -, hkind⟩ | ⟨-, hkind⟩ <;> rw [hkind] <;> rfl

theorem instructionKind_mnemonic (op : Opcode) :
    instructionKind op.mnemonic.toList = .instruction op := by
  simp [instructionKind]

theorem instructionKind_eq_instruction_iff {text : List Char} {op : Opcode} :
    instructionKind text = .instruction op ↔ text = op.mnemonic.toList := by
  refine ⟨fun h => ?_, fun h => by rw [h, instructionKind_mnemonic]⟩
  rcases instructionKind_cases text with ⟨other, htext, hkind⟩ | ⟨-, hkind⟩
  · rw [h] at hkind
    cases hkind
    exact htext
  · rw [h] at hkind
    cases hkind

theorem instructionKind_eq_unknown_iff {text : List Char} :
    instructionKind text = .unknownInstruction ↔ ∀ op : Opcode, text ≠ op.mnemonic.toList := by
  rcases instructionKind_cases text with ⟨op, htext, hkind⟩ | ⟨hother, hkind⟩
  · rw [hkind]
    exact ⟨fun h => (by cases h), fun h => absurd htext (h op)⟩
  · exact ⟨fun _ => hother, fun _ => hkind⟩

/-- A run of capitals has the form of the kind it is given. -/
theorem fits_capitals {text : List Char} (hne : text ≠ []) (hup : ∀ c ∈ text, c.isUpper) :
    Fits ⟨instructionKind text, text⟩ := by
  rcases instructionKind_cases text with ⟨op, htext, hkind⟩ | ⟨hother, hkind⟩
  · rw [hkind]
    exact htext
  · rw [hkind]
    exact ⟨hne, hup, hother⟩

theorem capitals_of_fits_instruction {op : Opcode} {text : List Char}
    (h : Fits ⟨.instruction op, text⟩) :
    text ≠ [] ∧ (∀ c ∈ text, c.isUpper) ∧ instructionKind text = .instruction op := by
  have htext : text = op.mnemonic.toList := h
  subst htext
  exact ⟨op.mnemonic_ne_nil, op.isUpper_of_mem_mnemonic, instructionKind_mnemonic op⟩

theorem capitals_of_fits_unknown {text : List Char} (h : Fits ⟨.unknownInstruction, text⟩) :
    text ≠ [] ∧ (∀ c ∈ text, c.isUpper) ∧ instructionKind text = .unknownInstruction := by
  obtain ⟨hne, hup, hother⟩ := h
  exact ⟨hne, hup, instructionKind_eq_unknown_iff.mpr hother⟩

theorem absorbs_instructionKind {text : List Char} {c : Char} :
    (instructionKind text).Absorbs c ↔ c.isUpper := by
  rcases instructionKind_cases text with ⟨op, -, hkind⟩ | ⟨-, hkind⟩ <;> rw [hkind] <;> rfl

theorem not_member_of_head?_dropWhile {member : Char → Bool} {cs : List Char} {c : Char}
    (h : c ∈ (cs.dropWhile member).head?) : ¬ member c := by
  have hnot := List.head?_dropWhile_not member cs
  rw [Option.mem_def.mp h] at hnot
  simpa using hnot

/-- A run of a class ends where the class does. -/
private theorem run_append_of_stop (numbering : Numbering) (kind : List Char → TokenKind)
    {member : Char → Bool} {text rest : List Char} (hall : ∀ c ∈ text, member c)
    (hstop : ∀ c ∈ rest.head?, ¬ member c) :
    run numbering kind member (text ++ rest) = ⟨⟨kind text, text⟩, numbering, rest⟩ := by
  have hrest : rest.takeWhile member = [] ∧ rest.dropWhile member = rest := by
    cases rest with
    | nil => exact ⟨rfl, rfl⟩
    | cons c rest =>
      have hc := hstop c rfl
      exact ⟨List.takeWhile_cons_of_neg hc, List.dropWhile_cons_of_neg hc⟩
  rw [run, List.takeWhile_append_of_pos hall, List.dropWhile_append_of_pos hall, hrest.1, hrest.2,
    List.append_nil]

private theorem isCommentChar_iff {c : Char} : isCommentChar c ↔ c ≠ '\n' ∧ c ≠ '\x00' := by
  simp [isCommentChar]

private theorem isNameChar_iff {c : Char} : isNameChar c ↔ c.isAlpha ∨ c = '_' := by
  simp [isNameChar]

theorem IsName.chars {cs : List Char} (h : IsName cs) : ∀ c ∈ cs, isNameChar c := by
  obtain ⟨c, rest, rfl, hc, hrest⟩ := h
  intro d hd
  rcases List.mem_cons.mp hd with rfl | hd
  · simp [isNameChar, isAlpha_iff, hc]
  · exact isNameChar_iff.mpr (hrest d hd)

private theorem name_append_colon {text : List Char} (rest : List Char)
    (hall : ∀ c ∈ text, isNameChar c) :
    name (text ++ ':' :: rest) = ⟨⟨.label, text ++ [':']⟩, .points, rest⟩ := by
  have hc : ¬ isNameChar ':' := by decide
  rw [name, List.takeWhile_append_of_pos hall, List.dropWhile_append_of_pos hall,
    List.dropWhile_cons_of_neg hc, List.takeWhile_cons_of_neg hc, List.append_nil]
  rfl

private theorem name_append_of_stop {text rest : List Char} (hall : ∀ c ∈ text, isNameChar c)
    (hstop : ∀ c ∈ rest.head?, ¬ isNameChar c ∧ c ≠ ':') :
    name (text ++ rest) = ⟨⟨.labelName, text⟩, .takes, rest⟩ := by
  rw [name, List.takeWhile_append_of_pos hall, List.dropWhile_append_of_pos hall]
  cases rest with
  | nil => simp
  | cons c rest =>
    obtain ⟨hc, hcolon⟩ := hstop c rfl
    rw [List.dropWhile_cons_of_neg hc, List.takeWhile_cons_of_neg hc, List.append_nil]
    split
    · rename_i heq
      cases heq
      exact absurd rfl hcolon
    · rfl

private theorem reading?_comment (cs : List Char) :
    reading? ('#' :: cs) =
      some (run .unnumbered (fun _ => .comment) isCommentChar ('#' :: cs)) := by
  simp [reading?]

private theorem reading?_lineEnd {c : Char} (cs : List Char) (h : c = '\n' ∨ c = '\r') :
    reading? (c :: cs) = some ⟨⟨.endOfLine, [c]⟩, .unnumbered, cs⟩ := by
  rcases h with rfl | rfl <;> simp [reading?, isLineEnd]

/-- Letters and digits are none of the characters that are looked for before them. -/
private theorem plain_of_isAlphanum {c : Char} (h : c.isAlphanum) :
    c ≠ '\x00' ∧ c ≠ '#' ∧ ¬ isLineEnd c := by
  refine ⟨?_, ?_, ?_⟩
  · rintro rfl
    simp at h
  · rintro rfl
    simp at h
  · intro hc
    rcases (by simpa [isLineEnd] using hc : c = '\n' ∨ c = '\r') with rfl | rfl <;> simp at h

private theorem reading?_upper {c : Char} (cs : List Char) (h : c.isUpper) :
    reading? (c :: cs) = some (run .takes instructionKind Char.isUpper (c :: cs)) := by
  obtain ⟨h0, hhash, hline⟩ := plain_of_isAlphanum (c := c) (by simp [Char.isAlphanum, isAlpha_iff, h])
  rw [reading?, if_neg h0, if_neg hhash, if_neg hline, if_pos h]

theorem isUpper_iff_toNat {c : Char} :
    c.isUpper ↔ 'A'.toNat ≤ c.toNat ∧ c.toNat ≤ 'Z'.toNat :=
  decide_eq_true_iff

theorem isLower_iff_toNat {c : Char} :
    c.isLower ↔ 'a'.toNat ≤ c.toNat ∧ c.toNat ≤ 'z'.toNat :=
  Bool.and_eq_true_iff.trans (and_congr decide_eq_true_iff decide_eq_true_iff)

private theorem not_isUpper_of_isLower {c : Char} (h : c.isLower) : ¬ c.isUpper := by
  rw [isLower_iff_toNat] at h
  rw [isUpper_iff_toNat]
  have hgap : 'Z'.toNat < 'a'.toNat := by decide
  omega

private theorem reading?_lower {c : Char} (cs : List Char) (h : c.isLower) :
    reading? (c :: cs) = some (name (c :: cs)) := by
  obtain ⟨h0, hhash, hline⟩ := plain_of_isAlphanum (c := c) (by simp [Char.isAlphanum, isAlpha_iff, h])
  rw [reading?, if_neg h0, if_neg hhash, if_neg hline, if_neg (not_isUpper_of_isLower h), if_pos h]

theorem not_isAlpha_of_isDigit {c : Char} (h : c.isDigit) : ¬ c.isAlpha := by
  rw [Char.isDigit_iff_toNat] at h
  rw [isAlpha_iff, isUpper_iff_toNat, isLower_iff_toNat]
  have hupper : '9'.toNat < 'A'.toNat := by decide
  have hlower : '9'.toNat < 'a'.toNat := by decide
  omega

private theorem reading?_digit {c : Char} (cs : List Char) (h : c.isDigit) :
    reading? (c :: cs) = some (run .takes (fun _ => .int) Char.isDigit (c :: cs)) := by
  obtain ⟨h0, hhash, hline⟩ := plain_of_isAlphanum (c := c) (by simp [Char.isAlphanum, h])
  have halpha := not_isAlpha_of_isDigit h
  rw [isAlpha_iff, not_or] at halpha
  rw [reading?, if_neg h0, if_neg hhash, if_neg hline, if_neg halpha.1, if_neg halpha.2, if_pos h]

private theorem reading?_stray {c : Char} (cs : List Char) (h : IsStray c) :
    reading? (c :: cs) = some ⟨⟨.illegal, [c]⟩, .takes, cs⟩ := by
  obtain ⟨halpha, hdigit, hmem⟩ := h
  rw [isAlpha_iff, not_or] at halpha
  simp only [List.mem_cons, List.not_mem_nil, or_false, not_or] at hmem
  obtain ⟨hhash, -, -, hn, hr, h0⟩ := hmem
  have hline : ¬ isLineEnd c := by simp [isLineEnd, hn, hr]
  rw [reading?, if_neg h0, if_neg hhash, if_neg hline, if_neg halpha.1, if_neg halpha.2, if_neg hdigit]

private theorem reading?_capitals {text rest : List Char} (hne : text ≠ [])
    (hup : ∀ c ∈ text, c.isUpper) (hstop : ∀ c ∈ rest.head?, ¬ c.isUpper) :
    reading? (text ++ rest) = some ⟨⟨instructionKind text, text⟩, .takes, rest⟩ := by
  obtain ⟨c, cs, rfl⟩ := List.exists_cons_of_ne_nil hne
  rw [List.cons_append, reading?_upper _ (hup c List.mem_cons_self), ← List.cons_append,
    run_append_of_stop _ _ hup hstop]

/-- A lexeme in front of a text that cannot prolong it is what is read. -/
theorem read?_append_of_fits {x : Lexeme} {rest : List Char} (hfits : x.Fits)
    (hstop : ∀ c ∈ rest.head?, ¬ x.kind.Absorbs c) : read? (x.text ++ rest) = some (x, rest) := by
  obtain ⟨kind, text⟩ := x
  cases kind with
  | instruction op =>
    obtain ⟨hne, hup, hkind⟩ := capitals_of_fits_instruction hfits
    rw [← hkind]
    exact read?_of_reading? (reading?_capitals hne hup hstop)
  | unknownInstruction =>
    obtain ⟨hne, hup, hkind⟩ := capitals_of_fits_unknown hfits
    rw [← hkind]
    exact read?_of_reading? (reading?_capitals hne hup hstop)
  | label =>
    obtain ⟨name, hname, rfl⟩ := hfits
    have hall := hname.chars
    obtain ⟨c, cs, rfl, hc, -⟩ := hname
    have hread := reading?_lower (cs ++ ':' :: rest) hc
    rw [← List.cons_append, name_append_colon rest hall] at hread
    simpa using read?_of_reading? hread
  | labelName =>
    have hall := IsName.chars hfits
    obtain ⟨c, cs, rfl, hc, -⟩ := hfits
    apply read?_of_reading? (r := ⟨⟨.labelName, c :: cs⟩, .takes, rest⟩)
    rw [List.cons_append, reading?_lower _ hc, ← List.cons_append, name_append_of_stop hall]
    intro d hd
    have hd := hstop d hd
    simp only [TokenKind.Absorbs, not_or] at hd
    exact ⟨fun hn => (isNameChar_iff.mp hn).elim hd.1 hd.2.1, hd.2.2⟩
  | int =>
    obtain ⟨hne, hall⟩ := hfits
    obtain ⟨c, cs, rfl⟩ := List.exists_cons_of_ne_nil hne
    apply read?_of_reading? (r := ⟨⟨.int, c :: cs⟩, .takes, rest⟩)
    rw [List.cons_append, reading?_digit _ (hall c List.mem_cons_self), ← List.cons_append,
      run_append_of_stop _ _ hall hstop]
  | comment =>
    obtain ⟨cs, rfl, hcs⟩ := hfits
    have hall : ∀ c ∈ '#' :: cs, isCommentChar c := by
      intro c hc
      rcases List.mem_cons.mp hc with rfl | hc
      · decide
      · exact isCommentChar_iff.mpr (hcs c hc)
    apply read?_of_reading? (r := ⟨⟨.comment, '#' :: cs⟩, .unnumbered, rest⟩)
    rw [List.cons_append, reading?_comment, ← List.cons_append, run_append_of_stop _ _ hall]
    intro c hc hmem
    exact hstop c hc (isCommentChar_iff.mp hmem)
  | endOfLine =>
    rcases hfits with rfl | rfl <;> exact read?_of_reading? (reading?_lineEnd rest (by simp))
  | endOfInput => exact hfits.elim
  | illegal =>
    obtain ⟨c, rfl, hc⟩ := hfits
    exact read?_of_reading? (reading?_stray rest hc)

private theorem fits_name {c : Char} (cs : List Char) (hc : c.isLower) :
    (name (c :: cs)).lexeme.Fits ∧
      ∀ d ∈ (name (c :: cs)).rest.head?, ¬ (name (c :: cs)).lexeme.kind.Absorbs d := by
  have hchar : isNameChar c := by simp [isNameChar, isAlpha_iff, hc]
  have hname : IsName ((c :: cs).takeWhile isNameChar) := by
    rw [List.takeWhile_cons_of_pos hchar]
    exact ⟨c, _, rfl, hc, fun d hd => isNameChar_iff.mp (List.mem_takeWhile_imp hd)⟩
  have hstop : ∀ d ∈ ((c :: cs).dropWhile isNameChar).head?, ¬ isNameChar d :=
    fun d hd => not_member_of_head?_dropWhile hd
  unfold name
  split
  · exact ⟨⟨_, hname, rfl⟩, fun _ _ => id⟩
  · rename_i hcolon
    refine ⟨hname, ?_⟩
    rintro d hd (halpha | hunder | rfl)
    · exact hstop d hd (isNameChar_iff.mpr (.inl halpha))
    · exact hstop d hd (isNameChar_iff.mpr (.inr hunder))
    · obtain ⟨rest, hrest⟩ := List.head?_eq_some_iff.mp hd
      exact hcolon rest hrest

/-- What is read behind the blanks has the form of its kind and cannot be prolonged. -/
theorem fits_of_read? {cs rest : List Char} {x : Lexeme} (hblank : ∀ c ∈ cs.head?, ¬ isBlank c)
    (h : read? cs = some (x, rest)) : x.Fits ∧ ∀ c ∈ rest.head?, ¬ x.kind.Absorbs c := by
  obtain ⟨numbering, h⟩ := exists_reading? h
  cases cs with
  | nil => cases h
  | cons c cs =>
    simp only [reading?] at h
    split at h
    · cases h
    rename_i h0
    split at h
    · rename_i hhash
      subst hhash
      cases h
      have hc : isCommentChar '#' := by decide
      refine ⟨⟨cs.takeWhile isCommentChar, List.takeWhile_cons_of_pos hc, ?_⟩, ?_⟩
      · intro d hd
        exact isCommentChar_iff.mp (List.mem_takeWhile_imp hd)
      · intro d hd habs
        exact not_member_of_head?_dropWhile hd (isCommentChar_iff.mpr habs)
    rename_i hhash
    split at h
    · rename_i hline
      cases h
      exact ⟨by simpa [Fits, isLineEnd] using hline, fun _ _ => id⟩
    rename_i hline
    split at h
    · rename_i hup
      cases h
      refine ⟨fits_capitals (by simp [hup]) fun d hd => List.mem_takeWhile_imp hd, ?_⟩
      intro d hd
      rw [absorbs_instructionKind]
      exact not_member_of_head?_dropWhile hd
    rename_i hup
    split at h
    · rename_i hlow
      have hfits := fits_name cs hlow
      rwa [Option.some.inj h] at hfits
    rename_i hlow
    split at h
    · rename_i hdigit
      cases h
      refine ⟨⟨by simp [hdigit], fun d hd => List.mem_takeWhile_imp hd⟩, ?_⟩
      intro d hd
      exact not_member_of_head?_dropWhile hd
    · rename_i hdigit
      cases h
      have hblank := hblank c rfl
      simp only [isBlank, isLineEnd, Bool.or_eq_true, beq_iff_eq, not_or] at hblank hline
      refine ⟨⟨c, rfl, by simp [isAlpha_iff, hup, hlow], hdigit, ?_⟩, fun _ _ => id⟩
      simp [h0, hhash, hline, hblank]

theorem read?_eq_none_iff {cs : List Char} : read? cs = none ↔ cs = [] ∨ cs.head? = some '\x00' := by
  cases cs with
  | nil => simp [read?, reading?]
  | cons c cs =>
    by_cases h0 : c = '\x00'
    · simp [read?, reading?, h0]
    · simp only [read?, reading?, if_neg h0]
      repeat' split
      all_goals simp [h0]

private theorem IsName.ne_nul {cs : List Char} (h : IsName cs) : ∀ c ∈ cs, c ≠ '\x00' := by
  rintro c hc rfl
  have := h.chars _ hc
  revert this
  decide

/-- No lexeme reaches over the end of the input. -/
theorem Fits.ne_nul {x : Lexeme} (h : x.Fits) : ∀ c ∈ x.text, c ≠ '\x00' := by
  obtain ⟨kind, text⟩ := x
  rintro c hc rfl
  cases kind with
  | instruction op => exact absurd ((capitals_of_fits_instruction h).2.1 _ hc) (by decide)
  | unknownInstruction => exact absurd (h.2.1 _ hc) (by decide)
  | label =>
    obtain ⟨name, hname, rfl⟩ := h
    rcases List.mem_append.mp hc with hc | hc
    · exact hname.ne_nul _ hc rfl
    · simp at hc
  | labelName => exact IsName.ne_nul h _ hc rfl
  | int => exact absurd (h.2 _ hc) (by decide)
  | comment =>
    obtain ⟨cs, rfl, hcs⟩ := h
    rcases List.mem_cons.mp hc with hc | hc
    · simp at hc
    · exact (hcs _ hc).2 rfl
  | endOfLine => rcases h with rfl | rfl <;> simp at hc
  | endOfInput => exact h
  | illegal =>
    obtain ⟨d, rfl, -, -, hd⟩ := h
    obtain rfl := List.mem_singleton.mp hc
    simp at hd

/-- No lexeme begins with a blank: read at a blank, the lexer would have found an illegal one. -/
theorem Fits.head_not_blank {x : Lexeme} (h : x.Fits) :
    ∃ c cs, x.text = c :: cs ∧ ¬ isBlank c := by
  have hread : read? (x.text ++ []) = some (x, []) := read?_append_of_fits h (by simp)
  obtain ⟨numbering, hreading⟩ := exists_reading? hread
  obtain ⟨c, cs, htext⟩ := List.exists_cons_of_ne_nil (reading?_text_ne_nil hreading)
  refine ⟨c, cs, htext, fun hc => ?_⟩
  have hblank : c = ' ' ∨ c = '\t' := by simpa [isBlank] using hc
  have hillegal : read? (c :: cs) = some (⟨.illegal, [c]⟩, cs) := by
    rcases hblank with rfl | rfl <;> simp [read?, reading?, isLineEnd]
  rw [List.append_nil, htext, hillegal] at hread
  obtain ⟨rfl, rfl⟩ := Prod.mk.inj (Option.some.inj hread)
  obtain ⟨d, hd, -, -, hmem⟩ := h
  obtain rfl := (List.cons.inj hd).1
  rcases hblank with rfl | rfl <;> simp at hmem

theorem Fits.kind_ne_endOfInput {x : Lexeme} (h : x.Fits) : x.kind ≠ .endOfInput := by
  intro hkind
  simp [Fits, hkind] at h

theorem head?_dropWhile_isBlank {cs : List Char} :
    ∀ c ∈ (cs.dropWhile isBlank).head?, ¬ isBlank c :=
  fun _ hc => not_member_of_head?_dropWhile hc

/-- All lexemes of a text, each read behind the blanks that stand before it. -/
def scan (cs : List Char) : List Lexeme :=
  match _h : read? (cs.dropWhile isBlank) with
  | none => []
  | some (x, rest) => x :: scan rest
termination_by cs.length
decreasing_by
  exact Nat.lt_of_lt_of_le (read?_length_lt (by assumption)) (List.dropWhile_sublist _).length_le

theorem scan_of_none {cs : List Char} (h : read? (cs.dropWhile isBlank) = none) : scan cs = [] := by
  rw [scan]
  split
  · rfl
  · rename_i h'
    rw [h] at h'
    cases h'

theorem scan_of_some {cs rest : List Char} {x : Lexeme}
    (h : read? (cs.dropWhile isBlank) = some (x, rest)) : scan cs = x :: scan rest := by
  rw [scan]
  split
  · rename_i h'
    rw [h] at h'
    cases h'
  · rename_i h'
    rw [h] at h'
    cases h'
    rfl

theorem scan_cons_blank {c : Char} (hc : isBlank c) (cs : List Char) : scan (c :: cs) = scan cs := by
  have hdrop : (c :: cs).dropWhile isBlank = cs.dropWhile isBlank := List.dropWhile_cons_of_pos hc
  cases hread : read? (cs.dropWhile isBlank) with
  | none => rw [scan_of_none (hdrop ▸ hread), scan_of_none hread]
  | some found => rw [scan_of_some (hdrop ▸ hread), scan_of_some hread]

theorem scan_append_blanks {gap : List Char} (hgap : ∀ c ∈ gap, isBlank c) (cs : List Char) :
    scan (gap ++ cs) = scan cs := by
  induction gap with
  | nil => rfl
  | cons c gap ih =>
    obtain ⟨hc, hgap⟩ := List.forall_mem_cons.mp hgap
    rw [List.cons_append, scan_cons_blank hc, ih hgap]

/-- A lexeme before a text that cannot prolong it is what is scanned first. -/
theorem scan_append_of_fits {x : Lexeme} {rest : List Char} (hfits : x.Fits)
    (hstop : ∀ c ∈ rest.head?, ¬ x.kind.Absorbs c) : scan (x.text ++ rest) = x :: scan rest := by
  apply scan_of_some
  obtain ⟨c, cs, htext, hc⟩ := hfits.head_not_blank
  have hdrop : (x.text ++ rest).dropWhile isBlank = x.text ++ rest := by
    rw [htext, List.cons_append, List.dropWhile_cons_of_neg hc]
  rw [hdrop]
  exact read?_append_of_fits hfits hstop

/-- Every lexeme takes up at least one character. -/
theorem length_scan_le (cs : List Char) : (scan cs).length ≤ cs.length := by
  fun_induction scan cs with
  | case1 cs h => exact Nat.zero_le _
  | case2 cs x rest h ih =>
    have hread := read?_length_lt h
    have hdrop : (cs.dropWhile isBlank).length ≤ cs.length := (List.dropWhile_sublist _).length_le
    simp only [List.length_cons]
    omega

/-- A text cut into lexemes and the blanks around them. Every lexeme fits its kind and is followed
by nothing that it would have taken in. -/
inductive Cut : List Char → List Lexeme → Prop where
  | blanks {gap : List Char} : (∀ c ∈ gap, isBlank c) → Cut gap []
  | lexeme {gap rest : List Char} {x : Lexeme} {xs : List Lexeme} : (∀ c ∈ gap, isBlank c) →
      x.Fits → (∀ c ∈ rest.head?, ¬ x.kind.Absorbs c) → Cut rest xs →
      Cut (gap ++ (x.text ++ rest)) (x :: xs)

/-- The part of a text that is read: a NUL ends it. -/
def visible (cs : List Char) : List Char := cs.takeWhile (· ≠ '\x00')

private theorem visible_append {cs : List Char} (rest : List Char) (h : ∀ c ∈ cs, c ≠ '\x00') :
    visible (cs ++ rest) = cs ++ visible rest :=
  List.takeWhile_append_of_pos (by simpa using h)

private theorem head?_of_head?_visible {cs : List Char} {c : Char} (h : c ∈ (visible cs).head?) :
    c ∈ cs.head? := by
  obtain ⟨rest, hrest⟩ := List.head?_eq_some_iff.mp h
  obtain ⟨after, hafter⟩ : visible cs <+: cs := List.takeWhile_prefix _
  rw [← hafter, hrest]
  rfl

private theorem ne_nul_of_isBlank {c : Char} (h : isBlank c) : c ≠ '\x00' := by
  rintro rfl
  revert h
  decide

/-- What is scanned is a cut of the part that is read. -/
theorem cut_scan (cs : List Char) : Cut (visible cs) (scan cs) := by
  fun_induction scan cs with
  | case1 cs h =>
    have hgap : ∀ c ∈ cs.takeWhile isBlank, isBlank c := fun c hc => List.mem_takeWhile_imp hc
    have hrest : visible (cs.dropWhile isBlank) = [] := by
      rcases read?_eq_none_iff.mp h with hnil | hnul
      · rw [hnil]
        rfl
      · obtain ⟨rest, hrest⟩ := List.head?_eq_some_iff.mp hnul
        rw [hrest]
        rfl
    have hvisible : visible cs = cs.takeWhile isBlank := by
      rw [← List.takeWhile_append_dropWhile (p := isBlank) (l := cs),
        visible_append _ fun c hc => ne_nul_of_isBlank (hgap c hc), hrest]
      simp
    rw [hvisible]
    exact .blanks hgap
  | case2 cs x rest h ih =>
    have hgap : ∀ c ∈ cs.takeWhile isBlank, isBlank c := fun c hc => List.mem_takeWhile_imp hc
    have hfits := fits_of_read? head?_dropWhile_isBlank h
    have hvisible : visible cs = cs.takeWhile isBlank ++ (x.text ++ visible rest) := by
      rw [← visible_append rest hfits.1.ne_nul, read?_append h,
        ← visible_append _ fun c hc => ne_nul_of_isBlank (hgap c hc),
        List.takeWhile_append_dropWhile]
    rw [hvisible]
    exact .lexeme hgap hfits.1 (fun c hc => hfits.2 c (head?_of_head?_visible hc)) ih

/-- There is only one cut. -/
theorem Cut.scan_eq {cs : List Char} {xs : List Lexeme} (h : Cut cs xs) : scan cs = xs := by
  induction h with
  | @blanks gap hgap =>
    have hdrop : gap.dropWhile isBlank = [] := List.dropWhile_eq_nil_iff.mpr hgap
    exact scan_of_none (by rw [hdrop]; rfl)
  | lexeme hgap hfits hstop _ ih =>
    rw [scan_append_blanks hgap, scan_append_of_fits hfits hstop, ih]

end Lexeme

end StackAssembly
