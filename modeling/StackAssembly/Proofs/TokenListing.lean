import StackAssembly.CommandLine.Report
import StackAssembly.Proofs.LosslessDisassembly

/-! The printed token list. It can be read back in one way only, and there is one line a token in it,
whatever characters the literals hold. Nothing of this depends on which characters are printable. -/
namespace StackAssembly

namespace Text

/-- The characters that are always written as a backslash and a letter or mark, with that letter. -/
def shorthands : List (Char × Char) :=
  [('\x22', '\x22'), ('\\', '\\'), ('\n', 'n'), ('\r', 'r'), ('\t', 't'), ('\x00', '0')]

/-- How a character may be written between double quotes. All but those that have a shorthand may stand
for themselves or be spelt out in hexadecimal. -/
inductive Spells (c : Char) : List Char → Prop where
  | short {letter : Char} (h : (c, letter) ∈ shorthands) : Spells c ['\\', letter]
  | plain (h : c ∉ shorthands.map Prod.fst) : Spells c [c]
  | hex (h : c ∉ shorthands.map Prod.fst) :
    Spells c ('\\' :: 'u' :: '\x7b' :: (Nat.toDigits 16 c.toNat ++ ['\x7d']))

/-- Text is put in double quotes, and every character of it is written in one of those ways. Which of
them it is may change with the characters around. -/
def Quotes (quote : String → String) : Prop :=
  ∀ s, ∃ parts, List.Forall₂ Spells s.toList parts ∧
    (quote s).toList = '\x22' :: parts.flatten ++ ['\x22']

/-- A field that ends at the first mark ends there in every reading. -/
theorem append_cons_inj {mark : Char} {field field' rest rest' : List Char} (h : mark ∉ field)
    (h' : mark ∉ field') (heq : field ++ mark :: rest = field' ++ mark :: rest') :
    field = field' ∧ rest = rest' := by
  have hsplit := congrArg (List.splitOn mark) heq
  rw [List.splitOn_append_cons_self_of_not_mem h, List.splitOn_append_cons_self_of_not_mem h'] at hsplit
  obtain rfl := (List.cons.inj hsplit).1
  exact ⟨rfl, (List.cons.inj (List.append_cancel_left heq)).2⟩

theorem digitChar_injOn {i j : Nat} (hi : i < 16) (hj : j < 16) (h : i.digitChar = j.digitChar) : i = j := by
  have hall : ∀ i < 16, ∀ j < 16, Nat.digitChar i = Nat.digitChar j → i = j := by decide
  exact hall i hi j hj h

theorem toDigits_injective {m n : Nat} (h : Nat.toDigits 16 m = Nat.toDigits 16 n) : m = n := by
  -- The last digit is the remainder, and those before it, if any, are the digits of the quotient.
  induction m using Nat.strong_induction_on generalizing n with
  | _ m ih =>
    rcases Nat.lt_or_ge m 16 with hm | hm <;> rcases Nat.lt_or_ge n 16 with hn | hn
    · rw [Nat.toDigits_of_lt_base hm, Nat.toDigits_of_lt_base hn] at h
      exact digitChar_injOn hm hn (List.singleton_inj.mp h)
    · rw [Nat.toDigits_of_lt_base hm, Nat.toDigits_of_base_le (by decide) hn] at h
      exact absurd (List.append_eq_singleton_iff.mp h.symm) (by simp [Nat.toDigits_ne_nil])
    · rw [Nat.toDigits_of_base_le (by decide) hm, Nat.toDigits_of_lt_base hn] at h
      exact absurd (List.append_eq_singleton_iff.mp h) (by simp [Nat.toDigits_ne_nil])
    · rw [Nat.toDigits_of_base_le (by decide) hm, Nat.toDigits_of_base_le (by decide) hn] at h
      obtain ⟨hfront, hlast⟩ := List.append_inj' h rfl
      have hquotient : m / 16 = n / 16 := ih (m / 16) (by omega) hfront
      have hremainder : m % 16 = n % 16 :=
        digitChar_injOn (Nat.mod_lt m (by decide)) (Nat.mod_lt n (by decide)) (List.singleton_inj.mp hlast)
      omega

theorem not_mem_toDigits {c : Char} (h : ∀ d : Nat, d.digitChar ≠ c) (n : Nat) :
    c ∉ Nat.toDigits 16 n := by
  induction n using Nat.strong_induction_on with
  | _ n ih =>
    rcases Nat.lt_or_ge n 16 with hn | hn
    · rw [Nat.toDigits_of_lt_base hn, List.mem_singleton]
      exact (h n).symm
    · rw [Nat.toDigits_of_base_le (by decide) hn, List.mem_append, List.mem_singleton, not_or]
      exact ⟨ih (n / 16) (by omega), (h (n % 16)).symm⟩

namespace Spells

variable {c c' : Char} {part part' rest rest' : List Char}

theorem ne_nil (h : Spells c part) : part ≠ [] := by
  cases h <;> simp

theorem lineFeed_not_mem (h : Spells c part) : '\n' ∉ part := by
  cases h with
  | short h =>
    have hletters : ∀ p ∈ shorthands, p.2 ≠ '\n' := by decide
    simpa using (hletters _ h).symm
  | plain h =>
    rintro hc
    obtain rfl := List.mem_singleton.mp hc
    exact h (by decide)
  | hex =>
    have hdigits := not_mem_toDigits (c := '\n') (fun d => Nat.digitChar_ne _ rfl) c.toNat
    simpa using hdigits

/-- However a character is written, the text tells which one it is and where it ends. -/
theorem append_inj (h : Spells c part) (h' : Spells c' part') (heq : part ++ rest = part' ++ rest') :
    c = c' ∧ rest = rest' := by
  have hletters : ∀ p ∈ shorthands, ∀ q ∈ shorthands, p.2 = q.2 → p.1 = q.1 := by decide
  have hu : ∀ p ∈ shorthands, p.2 ≠ 'u' := by decide
  have hbackslash : '\\' ∈ shorthands.map Prod.fst := by decide
  -- A plain character is no backslash, so only the other two need a look at what is behind one.
  cases h with
  | short h =>
    cases h' with
    | short h' =>
      injection heq with _ heq
      injection heq with hletter hrest
      exact ⟨hletters _ h _ h' hletter, hrest⟩
    | plain h' =>
      injection heq with hfirst
      exact absurd (hfirst ▸ hbackslash) h'
    | hex h' =>
      injection heq with _ heq
      injection heq with hletter
      exact absurd hletter (hu _ h)
  | plain h =>
    cases h' with
    | short | hex =>
      injection heq with hfirst
      exact absurd (hfirst ▸ hbackslash) h
    | plain h' =>
      injection heq with hfirst hrest
      exact ⟨hfirst, hrest⟩
  | hex h =>
    cases h' with
    | short h' =>
      injection heq with _ heq
      injection heq with hletter
      exact absurd hletter.symm (hu _ h')
    | plain h' =>
      injection heq with hfirst
      exact absurd (hfirst ▸ hbackslash) h'
    | hex h' =>
      have hbrace := not_mem_toDigits (c := '\x7d') fun d => Nat.digitChar_ne _ rfl
      have hdigits : Nat.toDigits 16 c.toNat ++ '\x7d' :: rest =
          Nat.toDigits 16 c'.toNat ++ '\x7d' :: rest' := by
        simpa using heq
      obtain ⟨hcode, hrest⟩ := append_cons_inj (hbrace _) (hbrace _) hdigits
      exact ⟨Char.toNat_inj.mp (toDigits_injective hcode), hrest⟩

theorem lineFeed_not_mem_flatten {cs : List Char} {parts : List (List Char)}
    (h : List.Forall₂ Spells cs parts) : '\n' ∉ parts.flatten := by
  induction h with
  | nil => simp
  | cons hc _ ih =>
    rw [List.flatten_cons, List.mem_append, not_or]
    exact ⟨hc.lineFeed_not_mem, ih⟩

theorem flatten_inj {cs cs' : List Char} {parts parts' : List (List Char)}
    (h : List.Forall₂ Spells cs parts) (h' : List.Forall₂ Spells cs' parts')
    (heq : parts.flatten = parts'.flatten) : cs = cs' := by
  induction h generalizing cs' parts' with
  | nil =>
    cases h' with
    | nil => rfl
    | cons hc' => exact absurd (List.append_eq_nil_iff.mp heq.symm).1 hc'.ne_nil
  | cons hc _ ih =>
    cases h' with
    | nil => exact absurd (List.append_eq_nil_iff.mp heq).1 hc.ne_nil
    | cons hc' hcs' =>
      obtain ⟨rfl, hrest⟩ := hc.append_inj hc' heq
      rw [ih hcs' hrest]

end Spells

namespace Quotes

variable {quote : String → String}

theorem injective (h : Quotes quote) : Function.Injective quote := by
  intro s s' heq
  obtain ⟨parts, hparts, hs⟩ := h s
  obtain ⟨parts', hparts', hs'⟩ := h s'
  rw [heq, hs'] at hs
  have hflatten := List.append_cancel_right (List.cons.inj hs).2
  exact String.toList_inj.mp (Spells.flatten_inj hparts hparts' hflatten.symm)

theorem lineFeed_not_mem (h : Quotes quote) (s : String) : '\n' ∉ (quote s).toList := by
  obtain ⟨parts, hparts, hs⟩ := h s
  have hflatten := Spells.lineFeed_not_mem_flatten hparts
  rw [hs]
  simpa using hflatten

end Quotes

theorem spells_escape (c : Char) : Spells c (escape '\x22' c) := by
  by_cases hshort : c ∈ shorthands.map Prod.fst
  · obtain ⟨⟨c, letter⟩, hmem, rfl⟩ := List.mem_map.mp hshort
    have hletters : ∀ p ∈ shorthands, escape '\x22' p.1 = ['\\', p.2] := by decide
    rw [hletters _ hmem]
    exact .short hmem
  · have hescape : escape '\x22' c = if isUnprintable c then
        ['\\', 'u', '\x7b'] ++ Nat.toDigits 16 c.toNat ++ ['\x7d'] else [c] := by
      simp only [shorthands, List.map_cons, List.map_nil, List.mem_cons, not_or] at hshort
      simp [escape, hshort]
    rw [hescape]
    split
    · exact .hex hshort
    · exact .plain hshort

theorem quotes_quotedString : Quotes quotedString := by
  intro s
  refine ⟨s.toList.map (escape '\x22'), ?_, ?_⟩
  · rw [List.forall₂_map_right_iff, List.forall₂_same]
    exact fun c _ => spells_escape c
  · rw [quotedString, String.toList_ofList, List.flatMap_def]

end Text

namespace CommandLine
open Text

variable {quote : String → String}

/-- The line of a token without its end, if literals are quoted in a given way. -/
def tokenRow (quote : String → String) (t : Token) : String :=
  let index := (t.index.map Nat.repr).getD "-"
  t.line.repr ++ ":" ++ index ++ " " ++ t.kind.name ++ " " ++ quote t.literal

def tokenText (quote : String → String) (tokens : List Token) : String :=
  String.join (tokens.map fun t => tokenRow quote t ++ "\n")

/-- The marks that end a field of a line, or the line itself. -/
def endsField (c : Char) : Bool := c == ':' || c == ' ' || c == '\n'

def Unbroken (field : List Char) : Prop := field.all (!endsField ·) = true

theorem Unbroken.not_mem {field : List Char} (h : Unbroken field) {mark : Char}
    (hmark : endsField mark = true) : mark ∉ field := by
  intro hmem
  have hnone := List.all_eq_true.mp h mark hmem
  rw [hmark] at hnone
  cases hnone

theorem unbroken_digits (n : Nat) : Unbroken (Nat.toDigits 10 n) := by
  refine List.all_eq_true.mpr fun c hc => ?_
  have hdigit : c.isDigit = true := Nat.isDigit_of_mem_toDigits (by decide) (by decide) hc
  have hne {mark : Char} (hmark : mark.isDigit = false) : c ≠ mark := by
    rintro rfl
    rw [hmark] at hdigit
    cases hdigit
  simp [endsField, hne]

theorem unbroken_name (kind : TokenKind) : Unbroken kind.name.toList := by
  unfold Unbroken
  cases kind with
  | instruction op => cases op <;> decide
  | _ => decide

/-- The position of a token as it is written. -/
def position (index : Option Nat) : List Char := ((index.map Nat.repr).getD "-").toList

theorem position_some (n : Nat) : position (some n) = Nat.toDigits 10 n := Nat.toList_repr

theorem unbroken_position (index : Option Nat) : Unbroken (position index) := by
  cases index with
  | none =>
    unfold Unbroken
    decide
  | some n =>
    rw [position_some]
    exact unbroken_digits n

theorem digits?_position (index : Option Nat) : Numeral.digits? (position index) = index := by
  cases index with
  | none => decide
  | some n => rw [position_some, Numeral.digits?_toDigits]

theorem toList_tokenRow (t : Token) : (tokenRow quote t).toList =
    Nat.toDigits 10 t.line ++ ':' :: (position t.index ++
      ' ' :: (t.kind.name.toList ++ ' ' :: (quote t.literal).toList)) := by
  simp [tokenRow, position]

/-- Each field is found in its place, and says what the token has there. -/
theorem tokenRow_injective (h : Quotes quote) :
    Function.Injective fun t => (tokenRow quote t).toList := by
  intro t t' heq
  simp only [toList_tokenRow] at heq
  obtain ⟨hline, heq⟩ :=
    append_cons_inj ((unbroken_digits _).not_mem rfl) ((unbroken_digits _).not_mem rfl) heq
  obtain ⟨hindex, heq⟩ :=
    append_cons_inj ((unbroken_position _).not_mem rfl) ((unbroken_position _).not_mem rfl) heq
  obtain ⟨hname, hliteral⟩ :=
    append_cons_inj ((unbroken_name _).not_mem rfl) ((unbroken_name _).not_mem rfl) heq
  have hline : t.line = t'.line := by
    have hread := congrArg Numeral.digits? hline
    rwa [Numeral.digits?_toDigits, Numeral.digits?_toDigits, Option.some.injEq] at hread
  have hindex : t.index = t'.index := by
    have hread := congrArg Numeral.digits? hindex
    rwa [digits?_position, digits?_position] at hread
  have hkind : t.kind = t'.kind := by
    have hread := congrArg TokenKind.ofName? (String.toList_inj.mp hname)
    rwa [TokenKind.ofName?_name, TokenKind.ofName?_name, Option.some.injEq] at hread
  have hliteral : t.literal = t'.literal := h.injective (String.toList_inj.mp hliteral)
  cases t
  cases t'
  rw [Token.mk.injEq]
  exact ⟨hkind, hliteral, hline, hindex⟩

theorem lineFeed_not_mem_tokenRow (h : Quotes quote) (t : Token) :
    '\n' ∉ (tokenRow quote t).toList := by
  have hline : '\n' ∉ _ := (unbroken_digits t.line).not_mem rfl
  have hindex : '\n' ∉ _ := (unbroken_position t.index).not_mem rfl
  have hname : '\n' ∉ _ := (unbroken_name t.kind).not_mem rfl
  have hliteral := h.lineFeed_not_mem t.literal
  rw [toList_tokenRow]
  simp [hline, hindex, hname, hliteral]

theorem toList_tokenText (tokens : List Token) : (tokenText quote tokens).toList =
    (tokens.map fun t => (tokenRow quote t).toList).flatMap (· ++ ['\n']) := by
  simp [tokenText, List.flatMap_map]

theorem splitOn_tokenText (h : Quotes quote) (tokens : List Token) :
    (tokenText quote tokens).toList.splitOn '\n' =
      (tokens.map fun t => (tokenRow quote t).toList) ++ [[]] := by
  rw [toList_tokenText, Disassembly.splitOn_lines]
  simpa using fun t _ => lineFeed_not_mem_tokenRow h t

theorem tokenText_injective (h : Quotes quote) : Function.Injective (tokenText quote) := by
  intro tokens tokens' heq
  have hsplit := congrArg (fun text => text.toList.splitOn '\n') heq
  simp only [splitOn_tokenText h] at hsplit
  exact List.map_injective_iff.mpr (tokenRow_injective h) (List.append_cancel_right hsplit)

/-- What `lex` prints is unambiguous. The command succeeds on every source, and prints its tokens with
their literals in double quotes. Whichever characters such quotes spell out in hexadecimal, two sources
give the same text exactly if they have the same tokens, and the text is one line a token, whatever is in
the literals. -/
theorem lex_output_unambiguous :
    (∀ (i : Invocation) (limit : Nat) (threshold : Threshold) (source : String), i.command = .lex →
      ∃ report, i.report? limit threshold (.ok source) = some report ∧ report.status = 0 ∧
        report.output = tokenText quotedString (lex source)) ∧
    Quotes quotedString ∧
    ∀ quote, Quotes quote → ∀ source other : String,
      (tokenText quote (lex source) = tokenText quote (lex other) ↔ lex source = lex other) ∧
      (tokenText quote (lex source)).toList.splitOn '\n' =
        ((lex source).map fun t => (tokenRow quote t).toList) ++ [[]] := by
  refine ⟨fun i limit threshold source hi => ?_, quotes_quotedString, fun quote hquote source other => ?_⟩
  · rw [Invocation.report?, Invocation.task, hi]
    exact ⟨_, rfl, rfl, rfl⟩
  · exact ⟨(tokenText_injective hquote).eq_iff, splitOn_tokenText hquote (lex source)⟩

/-- A comment that holds a carriage return, and one that holds a backslash and the letter that are written
for it. -/
theorem lex_output_unambiguous_escape :
    let i : Invocation := ⟨.lex, "input", false⟩
    ∃ report report', i.report? 0 none (.ok "#\r") = some report ∧
      i.report? 0 none (.ok "#\\r") = some report' ∧ report.output ≠ report'.output ∧
      (report.output.toList.splitOn '\n').length = 3 := by
  intro i
  obtain ⟨hprints, hquotes, hunambiguous⟩ := lex_output_unambiguous
  obtain ⟨report, hreport, -, houtput⟩ := hprints i 0 none "#\r" rfl
  obtain ⟨report', hreport', -, houtput'⟩ := hprints i 0 none "#\\r" rfl
  obtain ⟨hiff, hlines⟩ := hunambiguous quotedString hquotes "#\r" "#\\r"
  refine ⟨report, report', hreport, hreport', ?_, ?_⟩
  · rw [houtput, houtput', ne_eq, hiff]
    decide +kernel
  · rw [houtput, hlines, List.length_append, List.length_map]
    decide +kernel

end CommandLine

end StackAssembly
