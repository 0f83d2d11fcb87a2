import StackAssembly.Proofs.AssemblyOutcome
import StackAssembly.Proofs.ListingGrammar

/-! A listing read as a source. Both readers make the same program of a text, unless the text holds a
character outside its comments that only listings know; then assembly stops at the first of these. -/
namespace StackAssembly

namespace Lexeme

/-- The lexeme is a word of its own, whatever labels there are. -/
def StandsFor (x : Lexeme) (w : Word) : Prop :=
  (∃ op, x.kind = .instruction op ∧ w = op.word) ∨ x.kind = .int ∧ Numeral.Spells x.text w.toInt

theorem StandsFor.word_token {x : Lexeme} {w : Word} (h : x.StandsFor w)
    (labels : List (String × Option Nat)) (line index : Nat) :
    Assembly.word labels (x.token line index) = .ok w := by
  rcases h with ⟨op, hkind, rfl⟩ | ⟨hkind, hspells⟩
  · simp [Assembly.word, hkind]
  · have hint : (x.token line index).int? = some w := by
      rw [Token.int?, kind_token, hkind]
      simpa [token, hkind] using Numeral.word?_eq_some_iff.mpr hspells
    simp [Assembly.word, hkind, hint]

/-- The lexemes that take up a word. -/
def operands (xs : List Lexeme) : List Lexeme := xs.filter (·.kind.isOperand)

/-- Lexemes that are words of their own become tokens with these words. -/
theorem forall₂_word_tokens {xs : List Lexeme} {values : List Word}
    (h : List.Forall₂ StandsFor (operands xs) values) (labels : List (String × Option Nat))
    (line index : Nat) : List.Forall₂ (fun t w => Assembly.word labels t = .ok w)
      (Token.operands (tokens line index xs)) values := by
  induction xs generalizing values line index with
  | nil =>
    obtain rfl := List.forall₂_nil_left_iff.mp h
    exact .nil
  | cons x xs ih =>
    rw [tokens]
    cases hoperand : x.kind.isOperand with
    | false =>
      rw [operands, List.filter_cons_of_neg (by simp [hoperand])] at h
      rw [Token.operands, List.filter_cons_of_neg (by simp [hoperand])]
      exact ih h _ _
    | true =>
      rw [operands, List.filter_cons_of_pos (by simp [hoperand])] at h
      rw [Token.operands, List.filter_cons_of_pos (by simp [hoperand])]
      obtain ⟨w, others, hw, hothers, rfl⟩ := List.forall₂_cons_left_iff.mp h
      exact .cons (hw.word_token labels line index) (ih hothers _ _)

/-- The operands among the tokens of two runs of lexemes, where counting goes on in the second. -/
theorem exists_operands_tokens_append (line index : Nat) (xs ys : List Lexeme) :
    ∃ line' index', Token.operands (tokens line index (xs ++ ys)) =
      Token.operands (tokens line index xs) ++ Token.operands (tokens line' index' ys) := by
  obtain ⟨shown, last, htokens, happend⟩ := tokens_append line index xs ys
  exact ⟨last, _, by rw [htokens, happend, Token.operands_append, Token.operands_append_endOfInput]⟩

end Lexeme

/-- Illegal tokens are operands, so the first of a text is the first among its operands. -/
theorem Token.find?_illegal {source : String} {before after : List Token} {t : Token}
    (h : operands (lex source) = before ++ t :: after) (ht : t.kind = .illegal)
    (hbefore : ∀ u ∈ before, u.kind ≠ .illegal) :
    (lex source).find? (·.kind == .illegal) = some t := by
  have hillegal : (operands (lex source)).find? (·.kind == .illegal) =
      (lex source).find? (·.kind == .illegal) := by
    rw [operands, List.find?_filter]
    congr 1
    funext u
    cases u.kind <;> simp [TokenKind.isOperand]
  rw [← hillegal, List.find?_eq_some_iff_append]
  exact ⟨by simp [ht], before, after, h, by simpa using hbefore⟩

/-- Assembly stops at an illegal token if all operands before it have a word. -/
theorem Assembly.ofSource_of_illegal {source : String} {before after : List Token} {t : Token}
    (h : Token.operands (lex source) = before ++ t :: after) (ht : t.kind = .illegal)
    (hbefore : ∀ u ∈ before, ∃ w, word (definitions (lex source)) u = .ok w) :
    (lex source).find? (·.kind == .illegal) = some t ∧
      Program.ofSource source = .error (.notAssemblable t.line t.literal) := by
  have hword {u : Token} (hu : u.kind = .illegal) :
      word (definitions (lex source)) u = .error (.notAssemblable u.line u.literal) := by
    rw [word, hu]
  refine ⟨Token.find?_illegal h ht fun u hu hkind => ?_, ?_⟩
  · obtain ⟨w, hw⟩ := hbefore u hu
    rw [hword hkind] at hw
    cases hw
  · rw [ofSource_eq_mapM, map_eq_error_iff, mapM_eq_error_iff]
    exact ⟨before, t, after, h, hbefore, hword ht⟩

namespace Listing

/-- Characters that listings know and sources do not: the comma, the signs and all blanks but the
space, the tab and the ends of lines. -/
def IsForeign (c : Char) : Prop :=
  c ∈ [',', '+', '-'] ∨ Text.isBlank c ∧ c ∉ [' ', '\t', '\n', '\r']

/-- Every foreign character of the text stands in a comment. -/
def Clean (cs : List Char) : Prop :=
  ∀ front c back, cs = front ++ c :: back → IsForeign c → EndsInComment (front ++ [c])

/-- Behind `before` comes the first foreign character outside comments. -/
structure FirstForeign (text before : List Char) (c : Char) : Prop where
  text_eq : ∃ after, text = before ++ c :: after
  foreign : IsForeign c
  outside : ¬ EndsInComment (before ++ [c])
  clean : Clean before

theorem Clean.append {before stretch : List Char} (h : Clean before)
    (hstretch : ∀ front c back, stretch = front ++ c :: back → IsForeign c →
      EndsInComment (before ++ (front ++ [c]))) : Clean (before ++ stretch) := by
  intro front c back heq hc
  rcases List.append_eq_append_iff.mp heq with ⟨more, rfl, hmore⟩ | ⟨more, rfl, hmore⟩
  · rw [List.append_assoc]
    exact hstretch more c back hmore hc
  · cases more with
    | nil =>
      rw [List.append_nil] at hstretch
      exact hstretch [] c back hmore.symm hc
    | cons d more =>
      rw [List.cons_append] at hmore
      obtain ⟨rfl, rfl⟩ := List.cons.inj hmore
      exact h front c more rfl hc

theorem Clean.append_of_forall {before stretch : List Char} (h : Clean before)
    (hstretch : ∀ c ∈ stretch, ¬ IsForeign c) : Clean (before ++ stretch) := by
  apply h.append
  rintro front c back rfl hc
  exact absurd hc (hstretch c (by simp))

theorem not_isForeign_of_isAlphanum {c : Char} (h : c.isAlphanum) : ¬ IsForeign c := by
  have hchar := isWordChar_iff.mp (isWordChar_of_isAlphanum h)
  have hblank := isSeparator_eq_false_iff.mp hchar.1
  rintro (hmem | ⟨hc, -⟩)
  · simp only [List.mem_cons, List.not_mem_nil, or_false] at hmem
    rcases hmem with rfl | rfl | rfl <;> revert h <;> decide
  · exact hblank.1 hc

/-- Separators that a source does not know are illegal in it. -/
private theorem foreign_of_separator {c : Char} (hc : isSeparator c)
    (hknown : c ∉ [' ', '\t', '\n', '\r']) : IsForeign c ∧ Lexeme.IsStray c := by
  have hseparator : Text.isBlank c ∨ c = ',' := by simpa [isSeparator] using hc
  have hnot (h : c.isAlphanum) : False := by
    have hchar := (isWordChar_iff.mp (isWordChar_of_isAlphanum h)).1
    rw [hc] at hchar
    cases hchar
  refine ⟨?_, ?_, ?_, ?_⟩
  · rcases hseparator with hblank | rfl
    · exact .inr ⟨hblank, hknown⟩
    · exact .inl (by simp)
  · exact fun h => hnot (by simp [Char.isAlphanum, h])
  · exact fun h => hnot (by simp [Char.isAlphanum, h])
  · have hnul : c ≠ '\x00' := by
      rintro rfl
      exact absurd hc (by decide)
    simp_all [ne_hash_of_isSeparator hc]

/-- What the lexer finds behind `before`, where the listing has words with these values: lexemes with
the same values, or an illegal one where the first foreign character stands. -/
inductive Scanned (before rest : List Char) (values : List Word) : Prop where
  | same : List.Forall₂ Lexeme.StandsFor (Lexeme.operands (Lexeme.scan rest)) values →
      Scanned before rest values
  | foreign (place : List Char) (c : Char) (front back : List Lexeme) (known : List Word) :
      FirstForeign (before ++ rest) place c →
      Lexeme.scan rest = front ++ ⟨.illegal, [c]⟩ :: back →
      List.Forall₂ Lexeme.StandsFor (Lexeme.operands front) known → Scanned before rest values

/-- A stretch before it adds its own lexemes. -/
theorem Scanned.prepend {before stretch rest : List Char} {xs : List Lexeme}
    {own values : List Word} (h : Scanned (before ++ stretch) rest values)
    (hscan : Lexeme.scan (stretch ++ rest) = xs ++ Lexeme.scan rest)
    (hxs : List.Forall₂ Lexeme.StandsFor (Lexeme.operands xs) own) :
    Scanned before (stretch ++ rest) (own ++ values) := by
  have hoperands (ys : List Lexeme) :
      Lexeme.operands (xs ++ ys) = Lexeme.operands xs ++ Lexeme.operands ys := List.filter_append ..
  cases h with
  | same hsame =>
    refine .same ?_
    rw [hscan, hoperands]
    exact List.rel_append hxs hsame
  | foreign place c front back known hforeign hrest hknown =>
    rw [List.append_assoc] at hforeign
    refine .foreign place c (xs ++ front) back (own ++ known) hforeign
      (by rw [hscan, hrest, List.append_assoc]) ?_
    rw [hoperands]
    exact List.rel_append hxs hknown

theorem Scanned.past_lexeme {before rest : List Char} {x : Lexeme} {own values : List Word}
    (h : Scanned (before ++ x.text) rest values) (hfits : x.Fits)
    (hstop : ∀ c ∈ rest.head?, ¬ x.kind.Absorbs c)
    (hown : List.Forall₂ Lexeme.StandsFor (Lexeme.operands [x]) own) :
    Scanned before (x.text ++ rest) (own ++ values) :=
  h.prepend (Lexeme.scan_append_of_fits hfits hstop) hown

theorem Scanned.of_foreign {before rest : List Char} {c : Char} {values : List Word}
    (hclean : Clean before) (hforeign : IsForeign c) (hstray : Lexeme.IsStray c)
    (houtside : ¬ EndsInComment (before ++ [c])) : Scanned before (c :: rest) values := by
  have hfits : Lexeme.Fits ⟨.illegal, [c]⟩ := ⟨c, rfl, hstray⟩
  have hscan : Lexeme.scan (c :: rest) = ⟨.illegal, [c]⟩ :: Lexeme.scan rest :=
    Lexeme.scan_append_of_fits hfits fun _ _ => id
  exact .foreign before c [] (Lexeme.scan rest) [] ⟨⟨rest, rfl⟩, hforeign, houtside, hclean⟩ hscan .nil

theorem Scanned.of_separator {before rest : List Char} {c : Char} {values : List Word}
    (hc : isSeparator c) (hfresh : Fresh before (c :: rest)) (hclean : Clean before)
    (h : Clean (before ++ [c]) → Scanned (before ++ [c]) rest values) :
    Scanned before (c :: rest) values := by
  by_cases hknown : c ∈ [' ', '\t', '\n', '\r']
  · have hown : ¬ IsForeign c := by
      rintro (hmem | ⟨-, hmem⟩)
      · simp only [List.mem_cons, List.not_mem_nil, or_false] at hmem hknown
        rcases hmem with rfl | rfl | rfl <;> simp at hknown
      · exact hmem hknown
    have hrest := h (hclean.append_of_forall (by simpa using hown))
    by_cases hblank : Lexeme.isBlank c
    · have hscan : Lexeme.scan ([c] ++ rest) = [] ++ Lexeme.scan rest :=
        Lexeme.scan_cons_blank hblank rest
      exact hrest.prepend hscan .nil
    · have hfits : Lexeme.Fits ⟨.endOfLine, [c]⟩ := by
        simp_all [Lexeme.Fits, Lexeme.isBlank]
      have hrest : Scanned (before ++ (⟨.endOfLine, [c]⟩ : Lexeme).text) rest values := hrest
      exact hrest.past_lexeme hfits (fun _ _ => id) .nil
  · obtain ⟨hforeign, hstray⟩ := foreign_of_separator hc hknown
    exact .of_foreign hclean hforeign hstray (hfresh.not_endsInComment hc)

theorem Scanned.of_comment {before body rest : List Char} {values : List Word} (hbody : '\n' ∉ body)
    (hnul : '\x00' ∉ body) (hrest : ∀ c ∈ rest.head?, c = '\n') (hclean : Clean before)
    (h : Clean (before ++ '#' :: body) → Scanned (before ++ '#' :: body) rest values) :
    Scanned before ('#' :: (body ++ rest)) values := by
  have hfits : Lexeme.Fits ⟨.comment, '#' :: body⟩ :=
    ⟨body, rfl, fun c hc => ⟨ne_of_mem_of_not_mem hc hbody, ne_of_mem_of_not_mem hc hnul⟩⟩
  have hstop : ∀ c ∈ rest.head?, ¬ TokenKind.comment.Absorbs c :=
    fun c hc habsorbs => habsorbs.1 (hrest c hc)
  have hinside : Clean (before ++ '#' :: body) :=
    hclean.append fun _ _ _ hsplit _ => endsInComment_of_comment hbody hsplit
  have hrest : Scanned (before ++ (⟨.comment, '#' :: body⟩ : Lexeme).text) rest values := h hinside
  exact hrest.past_lexeme hfits hstop .nil

theorem Scanned.of_word {before word rest : List Char} {w : Word} {values : List Word}
    (hmeans : Means word w) (hrest : ∀ c ∈ rest.head?, ¬ isWordChar c) (hclean : Clean before)
    (hopen : ¬ EndsInComment before)
    (h : Clean (before ++ word) → Scanned (before ++ word) rest values) :
    Scanned before (word ++ rest) (w :: values) := by
  have hsign {c : Char} {rest : List Char} (hc : c = '+' ∨ c = '-') :
      Scanned before (c :: rest) (w :: values) := by
    have houtside : ¬ EndsInComment (before ++ [c]) :=
      not_endsInComment_append hopen (by rcases hc with rfl | rfl <;> simp [isWordChar] <;> decide)
    rcases hc with rfl | rfl
    · exact .of_foreign hclean (.inl (by simp)) ⟨by decide, by decide, by decide⟩ houtside
    · exact .of_foreign hclean (.inl (by simp)) ⟨by decide, by decide, by decide⟩ houtside
  rcases hmeans with ⟨op, rfl, rfl⟩ | hspells
  · have hupper := op.isUpper_of_mem_mnemonic
    have hcapitals : Scanned (before ++ (⟨.instruction op, op.mnemonic.toList⟩ : Lexeme).text) rest
        values := h (hclean.append_of_forall fun c hc =>
      not_isForeign_of_isAlphanum (by simp [Char.isAlphanum, Lexeme.isAlpha_iff, hupper c hc]))
    exact hcapitals.past_lexeme rfl (fun c hc habsorbs => hrest c hc (isWordChar_of_isUpper habsorbs))
      (.cons (.inl ⟨op, rfl, rfl⟩) .nil)
  · generalize hvalue : w.toInt = i at hspells
    cases hspells with
    | plus hdigits => exact hsign (.inl rfl)
    | minus hdigits => exact hsign (.inr rfl)
    | unsigned hdigits =>
      have hnumber : Scanned (before ++ (⟨.int, word⟩ : Lexeme).text) rest values :=
        h (hclean.append_of_forall fun c hc =>
          not_isForeign_of_isAlphanum (by simp [Char.isAlphanum, hdigits.2 c hc]))
      refine hnumber.past_lexeme hdigits
        (fun c hc habsorbs => hrest c hc (isWordChar_of_isDigit habsorbs)) (.cons (.inr ⟨rfl, ?_⟩) .nil)
      rw [hvalue]
      exact .unsigned hdigits

/-- The lexer follows the words of a listing. -/
theorem Cut.scanned {before rest : List Char} {words : List Occurrence} {values : List Word}
    (h : Cut before rest words) (hfresh : Fresh before rest) (hclean : Clean before)
    (hnul : '\x00' ∉ rest) (hvalues : List.Forall₂ (fun o w => Means o.word w) words values) :
    Scanned before rest values := by
  induction h generalizing values with
  | nil =>
    obtain rfl := List.forall₂_nil_left_iff.mp hvalues
    refine .same ?_
    rw [Lexeme.scan_of_none rfl]
    exact .nil
  | separator hc _ ih =>
    exact .of_separator hc hfresh hclean fun hclean =>
      ih (hfresh.past_separator hc) hclean (List.not_mem_of_not_mem_cons hnul) hvalues
  | comment hbody hrest _ ih =>
    obtain ⟨hin, hafter⟩ := not_or.mp (mt List.mem_append.mpr (List.not_mem_of_not_mem_cons hnul))
    exact .of_comment hbody hin hrest hclean fun hclean =>
      ih (.past_comment hbody hrest) hclean hafter hvalues
  | word hne hword hrest _ ih =>
    obtain ⟨w, others, hw, hothers, rfl⟩ := List.forall₂_cons_left_iff.mp hvalues
    obtain ⟨-, hafter⟩ := not_or.mp (mt List.mem_append.mpr hnul)
    exact .of_word hw hrest hclean (hfresh.not_endsInComment_word hne hword) fun hclean =>
      ih (hfresh.past_word hne hword hrest) hclean hafter hothers

/-- A listing is read to the same program as a source, or assembly stops at the first character
outside comments that only listings know: it is the first illegal token, and the message names it
and its line. No text has two programs. -/
theorem ofSource_of_ofListing {text : String} {p : Program} (hnul : '\x00' ∉ text.toList)
    (h : Program.ofListing text = .ok p) :
    (Program.ofSource text = .ok p ∨ ∃ (before : List Char) (c : Char) (t : Token) (e : AssemblyError),
      FirstForeign text.toList before c ∧ (lex text).find? (·.kind == .illegal) = some t ∧
      t.literal = String.ofList [c] ∧ Program.ofSource text = .error e ∧
      e.message = "line " ++ toString t.line ++ ": cannot assemble " ++ String.ofList [c]) ∧
    ∀ q, Program.ofSource text = .ok q → q = p := by
  obtain ⟨words, hcut⟩ := exists_cut [] text.toList
  have hvalues := hcut.ofListing_eq_ok_iff.mp h
  cases hcut.scanned .nil (by simp [Clean]) hnul hvalues with
  | same hsame =>
    have hwords := mapM_eq_ok_iff.mpr
      (Lexeme.forall₂_word_tokens hsame (Assembly.definitions (lex text)) 1 0)
    rw [← lex_eq_tokens] at hwords
    have hok : Program.ofSource text = .ok p := by
      rw [Assembly.ofSource_eq_mapM, map_eq_ok_iff]
      exact ⟨p.toList, hwords, p.ofList_toList⟩
    refine ⟨.inl hok, fun q hq => ?_⟩
    rw [hok] at hq
    exact (Except.ok.inj hq).symm
  | foreign place c front back known hforeign hscan hknown =>
    obtain ⟨line, index, htokens⟩ :=
      Lexeme.exists_operands_tokens_append 1 0 front (⟨.illegal, [c]⟩ :: back)
    rw [← hscan, ← lex_eq_tokens] at htokens
    have hfront := Lexeme.forall₂_word_tokens hknown (Assembly.definitions (lex text)) 1 0
    obtain ⟨hfirst, herror⟩ := Assembly.ofSource_of_illegal htokens rfl fun t ht => by
      obtain ⟨i, hi⟩ := List.getElem?_of_mem ht
      obtain ⟨w, -, hw⟩ := getElem?_of_forall₂ hfront hi
      exact ⟨w, hw⟩
    refine ⟨.inr ⟨place, c, _, _, hforeign, hfirst, rfl, herror, rfl⟩, fun q hq => ?_⟩
    rw [herror] at hq
    cases hq

/-- A comma in a comment does not matter, one outside does. -/
theorem ofSource_comma :
    '\x00' ∉ "ICONST 7 # a, b\nPRINT, HALT".toList ∧
    Program.ofListing "ICONST 7 # a, b\nPRINT, HALT" = .ok (.ofList [1, 7, 14, 15]) ∧
    (Program.ofSource "ICONST 7 # a, b\nPRINT, HALT" = .ok (.ofList [1, 7, 14, 15]) ∨
      ∃ (before : List Char) (c : Char) (t : Token) (e : AssemblyError),
        FirstForeign "ICONST 7 # a, b\nPRINT, HALT".toList before c ∧
        (lex "ICONST 7 # a, b\nPRINT, HALT").find? (·.kind == .illegal) = some t ∧
        t.literal = String.ofList [c] ∧
        Program.ofSource "ICONST 7 # a, b\nPRINT, HALT" = .error e ∧
        e.message = "line " ++ toString t.line ++ ": cannot assemble " ++ String.ofList [c]) ∧
    ∀ q, Program.ofSource "ICONST 7 # a, b\nPRINT, HALT" = .ok q → q = .ofList [1, 7, 14, 15] :=
  ⟨by decide, by decide, ofSource_of_ofListing (by decide) (by decide)⟩

example : Program.ofSource "ICONST 7 # a, b\nPRINT, HALT" = .error (.notAssemblable 2 ",") := by
  decide +kernel

end Listing

end StackAssembly
