import StackAssembly.Assembly
import StackAssembly.Proofs.FirstError
import StackAssembly.Proofs.Spelling
import StackAssembly.Proofs.TokenStream

/-! What assembly comes to: the word of every operand token, or the error of the first operand that
has none. The positions that the lexer counts always fit the program. -/
namespace StackAssembly

/-- A run of digits is read without a sign. -/
theorem Numeral.word?_digits {cs : List Char} (hne : cs ≠ []) (hall : ∀ c ∈ cs, c.isDigit) :
    word? (String.ofList cs) = Word.ofInt? (Nat.ofDigitChars 10 cs 0) := by
  rw [word?, String.toList_ofList, integer?_eq_some_iff.mpr (.unsigned ⟨hne, hall⟩), Option.bind_some]

namespace Token

/-- The tokens that take up a word of the program. -/
def operands (tokens : List Token) : List Token := tokens.filter (·.kind.isOperand)

/-- The token is a definition of the name. -/
def Defines (t : Token) (name : String) : Prop := t.kind = .label ∧ t.label? = some name

instance (t : Token) (name : String) : Decidable (t.Defines name) :=
  inferInstanceAs (Decidable (_ ∧ _))

/-- The number that the digits of an integer spell. -/
def decimal (t : Token) : Nat := Nat.ofDigitChars 10 t.literal.toList 0

theorem operands_append (before after : List Token) :
    operands (before ++ after) = operands before ++ operands after :=
  List.filter_append ..

theorem operands_append_endOfInput (shown : List Token) (line : Nat) :
    operands (shown ++ [⟨.endOfInput, "", line, none⟩]) = operands shown := by
  rw [operands_append]
  exact List.append_nil _

theorem mem_operands {tokens : List Token} {t : Token} :
    t ∈ operands tokens ↔ t ∈ tokens ∧ t.kind.isOperand :=
  List.mem_filter

/-- Operands and labels bear the number of operands before them. -/
theorem index_of_counted {source : String} {before after : List Token} {t : Token}
    (h : lex source = before ++ t :: after) (ht : t.kind.isOperand || t.kind == .label) :
    t.index = some (operands before).length := by
  rw [index_of_lex_eq h, if_pos ht, List.countP_eq_length_filter]
  rfl

/-- The operands of a source are numbered without a gap. -/
theorem index_of_operands_eq {source : String} {before after : List Token} {t : Token}
    (h : operands (lex source) = before ++ t :: after) : t.index = some before.length := by
  obtain ⟨front, back, hlex, hfront, hback⟩ := List.filter_eq_append_iff.mp h
  obtain ⟨skipped, rest, rfl, hskipped, ht, -⟩ := List.filter_eq_cons_iff.mp hback
  have hskip : operands skipped = [] := List.filter_eq_nil_iff.mpr hskipped
  rw [← List.append_assoc] at hlex
  rw [index_of_counted hlex (by simp [ht]), operands_append, hskip, List.append_nil]
  exact congrArg (fun l => some (List.length l)) hfront

/-- A definition of a label carries the number of operands before it. -/
theorem index_of_defines {source name : String} {before after : List Token} {t : Token}
    (h : lex source = before ++ t :: after) (ht : t.Defines name) :
    t.index = some (operands before).length :=
  index_of_counted h (by simp [ht.1])

end Token

namespace Assembly
open Token

/-- `before` is all that stands before the first definition of the name. -/
def FirstDefined (tokens before : List Token) (name : String) : Prop :=
  ∃ t after, tokens = before ++ t :: after ∧ t.Defines name ∧ ∀ u ∈ before, ¬ u.Defines name

theorem FirstDefined.unique {tokens before other : List Token} {name : String}
    (h : FirstDefined tokens before name) (hother : FirstDefined tokens other name) :
    before = other := by
  obtain ⟨t, after, rfl, ht, hnone⟩ := h
  obtain ⟨u, rest, hsplit, hu, hothers⟩ := hother
  rcases List.append_eq_append_iff.mp hsplit with ⟨more, rfl, hmore⟩ | ⟨more, rfl, hmore⟩
  · cases more with
    | nil => exact (List.append_nil before).symm
    | cons v more =>
      obtain ⟨rfl, -⟩ := List.cons.inj hmore
      exact absurd ht (hothers t (by simp))
  · cases more with
    | nil => exact List.append_nil other
    | cons v more =>
      obtain ⟨rfl, -⟩ := List.cons.inj hmore
      exact absurd hu (hnone u (by simp))

/-- The operand tokens that can be turned into a word. -/
def Assemblable (tokens : List Token) (t : Token) : Prop :=
  match t.kind with
  | .instruction _ => True
  | .int => t.decimal ≤ Word.greatest
  | .labelName => ∃ u ∈ tokens, u.Defines t.literal
  | _ => False

/-- The word that an operand token stands for among all tokens. -/
def Denotes (tokens : List Token) (t : Token) (w : Word) : Prop :=
  match t.kind with
  | .instruction op => w = op.word
  | .int => w.toInt = t.decimal
  | .labelName =>
    ∃ before, FirstDefined tokens before t.literal ∧ w = Int64.ofNat (operands before).length
  | _ => False

/-- What is said of an operand token that has no word. -/
def complaint (t : Token) : String :=
  match t.kind with
  | .int => "int literal"
  | .labelName => "undefined label " ++ t.literal
  | _ => "line " ++ toString t.line ++ ": cannot assemble " ++ t.literal

/-- Errors that would show a mistake in the assembler and not in the source. -/
def Internal : AssemblyError → Prop
  | .unplacedLabel | .unplacedOperand | .misplacedOperand .. => True
  | .integerOutOfRange | .undefinedLabel _ | .notAssemblable .. => False

private theorem definition?_of_label {t : Token} (h : t.kind = .label) :
    ∃ name, t.label? = some name ∧ definition? t = some (name, t.index) := by
  simp [definition?, label?, h]

private theorem definition?_of_not_label {t : Token} (h : t.kind ≠ .label) : definition? t = none := by
  unfold definition?
  split
  · rename_i hkind _
    exact absurd hkind h
  · rfl

private theorem defines_iff {t : Token} {name : String} :
    (t.kind == .label && t.label? == some name) = true ↔ t.Defines name := by
  simp [Defines]

private theorem lookup_definitions (tokens : List Token) (name : String) :
    (definitions tokens).lookup name =
      (tokens.find? fun t => t.kind == .label && t.label? == some name).map (·.index) := by
  induction tokens with
  | nil => rfl
  | cons t tokens ih =>
    by_cases hkind : t.kind = .label
    · obtain ⟨given, hgiven, hdefinition⟩ := definition?_of_label hkind
      rw [definitions, List.filterMap_cons_some hdefinition, List.lookup_cons]
      by_cases hname : name = given
      · rw [List.find?_cons_of_pos (by simp [hkind, hgiven, hname]), beq_iff_eq.mpr hname]
        rfl
      · rw [List.find?_cons_of_neg (by simp [hgiven, Ne.symm hname]), beq_false_of_ne hname]
        exact ih
    · rw [definitions, List.filterMap_cons_none (definition?_of_not_label hkind),
        List.find?_cons_of_neg (by simp [hkind])]
      exact ih

theorem lookup_eq_some_iff {tokens : List Token} {name : String} {position : Option Nat} :
    (definitions tokens).lookup name = some position ↔ ∃ before t after,
      tokens = before ++ t :: after ∧ t.Defines name ∧ (∀ u ∈ before, ¬ u.Defines name) ∧
      t.index = position := by
  rw [lookup_definitions, Option.map_eq_some_iff]
  constructor
  · rintro ⟨t, hfind, hindex⟩
    obtain ⟨ht, before, after, rfl, hbefore⟩ := List.find?_eq_some_iff_append.mp hfind
    refine ⟨before, t, after, rfl, defines_iff.mp ht, ?_, hindex⟩
    intro u hu hdefines
    have hnot := hbefore u hu
    rw [defines_iff.mpr hdefines] at hnot
    cases hnot
  · rintro ⟨before, t, after, rfl, ht, hbefore, hindex⟩
    refine ⟨t, List.find?_eq_some_iff_append.mpr ⟨defines_iff.mpr ht, before, after, rfl, ?_⟩, hindex⟩
    intro u hu
    rw [Bool.not_eq_true', ← Bool.not_eq_true]
    exact mt defines_iff.mp (hbefore u hu)

theorem lookup_eq_none_iff {tokens : List Token} {name : String} :
    (definitions tokens).lookup name = none ↔ ∀ u ∈ tokens, ¬ u.Defines name := by
  rw [lookup_definitions, Option.map_eq_none_iff, List.find?_eq_none]
  simp [Defines]

/-- An integer token holds digits only, so it has a word if the number fits. -/
private theorem int?_cases {source : String} {t : Token} (hmem : t ∈ lex source)
    (hkind : t.kind = .int) :
    (∃ w, t.int? = some w ∧ w.toInt = t.decimal) ∨
      t.int? = none ∧ ¬ t.decimal ≤ Word.greatest := by
  obtain ⟨⟨kind, text⟩, hfits, hshows⟩ := shows_of_mem_lex hmem (by simp [hkind])
  obtain rfl : kind = .int := hshows.kind.symm.trans hkind
  obtain ⟨hne, hall⟩ := hfits
  have hliteral : t.literal = String.ofList text := by simpa using hshows.literal
  have hint : t.int? = Word.ofInt? t.decimal := by
    rw [int?, hkind, decimal, hliteral, String.toList_ofList]
    exact Numeral.word?_digits hne hall
  rw [hint]
  by_cases hfit : t.decimal ≤ Word.greatest
  · have hword : Word.ofInt? t.decimal = some (Int64.ofInt t.decimal) := if_pos (by omega)
    exact .inl ⟨_, hword, Word.toInt_of_ofInt? hword⟩
  · exact .inr ⟨if_neg (by omega), hfit⟩

theorem Denotes.assemblable {tokens : List Token} {t : Token} {w : Word} (h : Denotes tokens t w) :
    Assemblable tokens t := by
  unfold Denotes at h
  unfold Assemblable
  split at h
  · trivial
  · have hle := w.toInt_le_greatest
    change t.decimal ≤ Word.greatest
    omega
  · obtain ⟨before, ⟨u, after, rfl, hu, -⟩, -⟩ := h
    exact ⟨u, List.mem_append_right before List.mem_cons_self, hu⟩
  · exact h.elim

/-- Either the word of an operand of a source, or the complaint about it. -/
theorem word_cases {source : String} {t : Token} (ht : t ∈ operands (lex source)) :
    (∃ w, word (definitions (lex source)) t = .ok w ∧ Denotes (lex source) t w) ∨
    ∃ e, word (definitions (lex source)) t = .error e ∧ ¬ Assemblable (lex source) t ∧
      ¬ Internal e ∧ e.message = complaint t := by
  obtain ⟨hmem, hoperand⟩ := mem_operands.mp ht
  unfold word Assemblable Denotes complaint
  cases hkind : t.kind with
  | instruction op => exact .inl ⟨op.word, rfl, rfl⟩
  | unknownInstruction => exact .inr ⟨_, rfl, id, id, rfl⟩
  | illegal => exact .inr ⟨_, rfl, id, id, rfl⟩
  | int =>
    rcases int?_cases hmem hkind with ⟨w, hw, hvalue⟩ | ⟨hw, hfit⟩
    · exact .inl ⟨w, by simp only [hw], hvalue⟩
    · exact .inr ⟨.integerOutOfRange, by simp only [hw], hfit, id, rfl⟩
  | labelName =>
    cases hlookup : (definitions (lex source)).lookup t.literal with
    | none =>
      refine .inr ⟨_, rfl, ?_, id, rfl⟩
      rintro ⟨u, hu, hdefines⟩
      exact lookup_eq_none_iff.mp hlookup u hu hdefines
    | some position =>
      obtain ⟨before, u, after, hlex, hu, hbefore, hindex⟩ := lookup_eq_some_iff.mp hlookup
      rw [index_of_defines hlex hu] at hindex
      subst hindex
      exact .inl ⟨_, rfl, before, ⟨u, after, hlex, hu, hbefore⟩, rfl⟩
  | label => simp [hkind, TokenKind.isOperand] at hoperand
  | comment => simp [hkind, TokenKind.isOperand] at hoperand
  | endOfLine => simp [hkind, TokenKind.isOperand] at hoperand
  | endOfInput => simp [hkind, TokenKind.isOperand] at hoperand

private theorem emit_of_index {labels : List (String × Option Nat)} {p : Program} {t : Token}
    (h : t.index = some p.size) :
    emit labels p t = word labels t >>= fun w => .ok (p.push w) := by
  simp [emit, h]

/-- As long as every operand bears the number of words before it, nothing but the words matters. -/
private theorem foldlM_emit {labels : List (String × Option Nat)} {tokens : List Token} {p : Program}
    (h : ∀ before t after, tokens = before ++ t :: after → t.index = some (p.size + before.length)) :
    tokens.foldlM (emit labels) p =
      (fun words => Program.ofList (p.toList ++ words)) <$> tokens.mapM (word labels) := by
  induction tokens generalizing p with
  | nil =>
    simp only [List.foldlM_nil, List.mapM_nil, map_pure, List.append_nil]
    rfl
  | cons t tokens ih =>
    have hhead : t.index = some p.size := h [] t tokens rfl
    have htail (w : Word) (before : List Token) (u : Token) (after : List Token)
        (htokens : tokens = before ++ u :: after) :
        u.index = some ((p.push w).size + before.length) := by
      rw [h (t :: before) u after (by rw [htokens]; rfl), List.length_cons,
        Program.size_push, Nat.add_right_comm]
      rfl
    rw [List.foldlM_cons, emit_of_index hhead, List.mapM_cons]
    cases hword : word labels t with
    | error e => rfl
    | ok w =>
      change tokens.foldlM (emit labels) (p.push w) = _
      rw [ih (htail w), Program.toList_push]
      cases tokens.mapM (word labels) with
      | error e => rfl
      | ok words => exact congrArg (fun l => Except.ok (Program.ofList l)) (List.append_assoc ..)

theorem ofSource_eq_mapM (source : String) :
    Program.ofSource source = Program.ofList <$>
      (operands (lex source)).mapM (word (definitions (lex source))) := by
  have hindex : ∀ before t after, operands (lex source) = before ++ t :: after →
      t.index = some (Program.empty.size + before.length) := by
    intro before t after h
    rw [index_of_operands_eq h]
    exact congrArg some (Nat.zero_add _).symm
  exact foldlM_emit hindex

/-- An assembled program holds the word of every operand, in order. -/
theorem denotes_of_ofSource_eq {source : String} {p : Program} (h : Program.ofSource source = .ok p) :
    List.Forall₂ (Denotes (lex source)) (operands (lex source)) p.toList := by
  rw [ofSource_eq_mapM] at h
  obtain ⟨words, hwords, rfl⟩ := map_eq_ok_iff.mp h
  have hmem := (List.forall₂_and_left _ _).mpr ⟨fun _ ht => ht, mapM_eq_ok_iff.mp hwords⟩
  refine hmem.imp fun t w ⟨ht, hw⟩ => ?_
  rcases word_cases ht with ⟨v, hv, hdenotes⟩ | ⟨e, he, -⟩
  · rw [hw] at hv
    cases hv
    exact hdenotes
  · rw [hw] at he
    cases he

/-- The error of a source is the complaint about its first operand without a word. -/
theorem complaint_of_ofSource_eq {source : String} {e : AssemblyError}
    (h : Program.ofSource source = .error e) :
    ¬ Internal e ∧ ∃ before t after, operands (lex source) = before ++ t :: after ∧
      (∀ u ∈ before, Assemblable (lex source) u) ∧ ¬ Assemblable (lex source) t ∧
      e.message = complaint t := by
  rw [ofSource_eq_mapM, map_eq_error_iff] at h
  obtain ⟨before, t, after, hsplit, hbefore, ht⟩ := mapM_eq_error_iff.mp h
  have hmem : t ∈ operands (lex source) := by
    rw [hsplit]
    exact List.mem_append_right before List.mem_cons_self
  rcases word_cases hmem with ⟨w, hw, -⟩ | ⟨d, hd, hnot, hinternal, hmessage⟩
  · rw [ht] at hw
    cases hw
  · rw [ht] at hd
    cases hd
    refine ⟨hinternal, before, t, after, hsplit, ?_, hnot, hmessage⟩
    intro u hu
    obtain ⟨w, hw⟩ := hbefore u hu
    have humem : u ∈ operands (lex source) := by
      rw [hsplit]
      exact List.mem_append_left _ hu
    rcases word_cases humem with ⟨v, -, hdenotes⟩ | ⟨d, hd, -⟩
    · exact hdenotes.assemblable
    · rw [hw] at hd
      cases hd

theorem exists_ofSource_iff {source : String} :
    (∃ p, Program.ofSource source = .ok p) ↔
      ∀ t ∈ operands (lex source), Assemblable (lex source) t := by
  constructor
  · rintro ⟨p, hp⟩ t ht
    obtain ⟨i, hi⟩ := List.getElem?_of_mem ht
    obtain ⟨w, -, hw⟩ := getElem?_of_forall₂ (denotes_of_ofSource_eq hp) hi
    exact hw.assemblable
  · intro hall
    cases hsource : Program.ofSource source with
    | ok p => exact ⟨p, rfl⟩
    | error e =>
      obtain ⟨-, before, t, after, hsplit, -, hnot, -⟩ := complaint_of_ofSource_eq hsource
      refine absurd (hall t ?_) hnot
      rw [hsplit]
      exact List.mem_append_right before List.mem_cons_self

theorem length_operands_le (source : String) : (operands (lex source)).length ≤ source.length := by
  obtain ⟨shown, last, htokens, hshown, -⟩ :=
    Lexeme.tokens_show (Lexeme.cut_scan source.toList).fits 1 0
  have hscan := Lexeme.length_scan_le source.toList
  have hfilter : (operands shown).length ≤ shown.length := List.length_filter_le ..
  rw [lex_eq_tokens, htokens, operands_append_endOfInput, ← String.length_toList]
  have := hshown.length_eq
  omega

end Assembly

end StackAssembly
