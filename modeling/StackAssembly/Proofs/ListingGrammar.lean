import Mathlib.Data.List.TakeWhile
import StackAssembly.Proofs.FirstError
import StackAssembly.Proofs.Spelling

/-! The grammar of listings, character by character. Comments and words are told by what stands
around them in the text, and going through the lines finds exactly these words. -/
namespace StackAssembly.Listing

/-- The last character stands in a comment: a `#` there or before it has no line feed behind it. -/
def EndsInComment (cs : List Char) : Prop :=
  ∃ front body, cs = front ++ '#' :: body ∧ '\n' ∉ body

/-- The character belongs to a word if it comes right behind `before`. -/
def InWord (before : List Char) (c : Char) : Prop :=
  ¬ Text.isBlank c ∧ c ≠ ',' ∧ ¬ EndsInComment (before ++ [c])

/-- A stretch of a text, with all that stands before and behind it. -/
structure Occurrence where
  before : List Char
  word : List Char
  after : List Char

/-- The stretch is a word: all its characters belong to one, and it cannot be prolonged. -/
structure Occurrence.IsWord (text : List Char) (o : Occurrence) : Prop where
  text_eq : text = o.before ++ (o.word ++ o.after)
  ne_nil : o.word ≠ []
  inside : ∀ front c back, o.word = front ++ c :: back → InWord (o.before ++ front) c
  starts : ∀ front c, o.before = front ++ [c] → ¬ InWord front c
  stops : ∀ c back, o.after = c :: back → ¬ InWord (o.before ++ o.word) c

/-- The number of the line that a word stands on, and its text. -/
def Occurrence.numbered (o : Occurrence) : Nat × String :=
  (1 + o.before.count '\n', String.ofList o.word)

/-- Neither a separator nor the beginning of a comment. -/
def isWordChar (c : Char) : Bool := !isSeparator c && c != '#'

theorem isWordChar_iff {c : Char} : isWordChar c ↔ isSeparator c = false ∧ c ≠ '#' := by
  simp [isWordChar]

theorem not_isWordChar_iff {c : Char} : ¬ isWordChar c ↔ isSeparator c ∨ c = '#' := by
  cases h : isSeparator c <;> simp [isWordChar, h]

theorem isSeparator_eq_false_iff {c : Char} : isSeparator c = false ↔ ¬ Text.isBlank c ∧ c ≠ ',' := by
  simp [isSeparator]

theorem isWordChar_of_isAlphanum {c : Char} (h : c.isAlphanum) : isWordChar c := by
  have hrange : 0x30 ≤ c.toNat ∧ c.toNat ≤ 0x7A := by
    rcases Bool.or_eq_true_iff.mp h with halpha | hdigit
    · rcases Lexeme.isAlpha_iff.mp halpha with hupper | hlower
      · obtain ⟨hfirst, hlast⟩ : 0x41 ≤ c.toNat ∧ c.toNat ≤ 0x5A := Lexeme.isUpper_iff_toNat.mp hupper
        omega
      · obtain ⟨hfirst, hlast⟩ : 0x61 ≤ c.toNat ∧ c.toNat ≤ 0x7A := Lexeme.isLower_iff_toNat.mp hlower
        omega
    · obtain ⟨hfirst, hlast⟩ : 0x30 ≤ c.toNat ∧ c.toNat ≤ 0x39 := Char.isDigit_iff_toNat.mp hdigit
      omega
  have hblank : Text.isBlank c = false := Text.isBlank_eq_false (by omega) (by omega)
  have hlower {d : Char} (hd : d.toNat < 0x30) : c ≠ d := by
    rintro rfl
    omega
  rw [isWordChar_iff, isSeparator_eq_false_iff]
  exact ⟨⟨by simp [hblank], hlower (by decide)⟩, hlower (by decide)⟩

theorem isWordChar_of_isUpper {c : Char} (h : c.isUpper) : isWordChar c :=
  isWordChar_of_isAlphanum (by simp [Char.isAlphanum, Lexeme.isAlpha_iff, h])

theorem isWordChar_of_isDigit {c : Char} (h : c.isDigit) : isWordChar c :=
  isWordChar_of_isAlphanum (by simp [Char.isAlphanum, h])

/-- A text gone through from the front, behind `before`, with the words that are found: separators
are skipped one by one, comments and words are as long as they can be. -/
inductive Cut : List Char → List Char → List Occurrence → Prop where
  | nil {before : List Char} : Cut before [] []
  | separator {before rest : List Char} {c : Char} {words : List Occurrence} : isSeparator c →
      Cut (before ++ [c]) rest words → Cut before (c :: rest) words
  | comment {before body rest : List Char} {words : List Occurrence} : '\n' ∉ body →
      (∀ c ∈ rest.head?, c = '\n') → Cut (before ++ '#' :: body) rest words →
      Cut before ('#' :: (body ++ rest)) words
  | word {before word rest : List Char} {words : List Occurrence} : word ≠ [] →
      (∀ c ∈ word, isWordChar c) → (∀ c ∈ rest.head?, ¬ isWordChar c) →
      Cut (before ++ word) rest words → Cut before (word ++ rest) (⟨before, word, rest⟩ :: words)

/-- Every text can be gone through. -/
theorem exists_cut (before cs : List Char) : ∃ words, Cut before cs words := by
  match cs with
  | [] => exact ⟨[], .nil⟩
  | c :: rest =>
    have hlength (p : Char → Bool) : (rest.dropWhile p).length ≤ rest.length :=
      (List.dropWhile_sublist p).length_le
    by_cases hseparator : isSeparator c
    · obtain ⟨words, hwords⟩ := exists_cut (before ++ [c]) rest
      exact ⟨words, .separator hseparator hwords⟩
    by_cases hhash : c = '#'
    · subst hhash
      have hless := hlength (· != '\n')
      obtain ⟨words, hwords⟩ :=
        exists_cut (before ++ '#' :: rest.takeWhile (· != '\n')) (rest.dropWhile (· != '\n'))
      have hbody : '\n' ∉ rest.takeWhile (· != '\n') := fun h => by
        simpa using List.mem_takeWhile_imp h
      have hrest : ∀ c ∈ (rest.dropWhile (· != '\n')).head?, c = '\n' := by
        intro c hc
        simpa using Lexeme.not_member_of_head?_dropWhile hc
      have h := Cut.comment hbody hrest hwords
      rw [List.takeWhile_append_dropWhile] at h
      exact ⟨words, h⟩
    · have hless := hlength isWordChar
      have hc : isWordChar c := by simp [isWordChar, hseparator, hhash]
      obtain ⟨words, hwords⟩ :=
        exists_cut (before ++ c :: rest.takeWhile isWordChar) (rest.dropWhile isWordChar)
      have hword : ∀ d ∈ c :: rest.takeWhile isWordChar, isWordChar d := by
        intro d hd
        rcases List.mem_cons.mp hd with rfl | hd
        · exact hc
        · exact List.mem_takeWhile_imp hd
      have hrest : ∀ d ∈ (rest.dropWhile isWordChar).head?, ¬ isWordChar d :=
        fun _ hd => Lexeme.not_member_of_head?_dropWhile hd
      have h := Cut.word (by simp) hword hrest hwords
      rw [List.cons_append, List.takeWhile_append_dropWhile] at h
      exact ⟨_, h⟩
termination_by cs.length

section Comments

variable {cs body : List Char} {c : Char}

theorem endsInComment_comment (h : '\n' ∉ body) : EndsInComment (cs ++ '#' :: body) :=
  ⟨cs, body, rfl, h⟩

/-- All of a comment stands in a comment. -/
theorem endsInComment_of_comment {front back : List Char} (hbody : '\n' ∉ body)
    (h : '#' :: body = front ++ c :: back) : EndsInComment (cs ++ (front ++ [c])) := by
  cases front with
  | nil =>
    obtain ⟨rfl, -⟩ := List.cons.inj h
    exact endsInComment_comment List.not_mem_nil
  | cons d front =>
    rw [List.cons_append] at h
    obtain ⟨rfl, rfl⟩ := List.cons.inj h
    refine endsInComment_comment fun hmem => hbody ?_
    rw [← List.singleton_append, ← List.append_assoc]
    exact List.mem_append_left back hmem

/-- Only a `#` opens a comment, and a line feed closes it. -/
theorem endsInComment_append_iff (h : '#' ∉ body) :
    EndsInComment (cs ++ body) ↔ EndsInComment cs ∧ '\n' ∉ body := by
  constructor
  · rintro ⟨front, tail, heq, htail⟩
    rcases List.append_eq_append_iff.mp heq with ⟨more, -, rfl⟩ | ⟨more, rfl, hmore⟩
    · simp at h
    · cases more with
      | nil =>
        rw [List.nil_append] at hmore
        simp [← hmore] at h
      | cons d more =>
        rw [List.cons_append] at hmore
        obtain ⟨rfl, rfl⟩ := List.cons.inj hmore
        rw [List.mem_append, not_or] at htail
        exact ⟨⟨front, more, rfl, htail.1⟩, htail.2⟩
  · rintro ⟨⟨front, tail, rfl, htail⟩, hbody⟩
    exact ⟨front, tail ++ body, by simp, by simp [htail, hbody]⟩

/-- A run of word characters opens no comment. -/
theorem not_endsInComment_append {run : List Char} (hopen : ¬ EndsInComment cs)
    (hrun : ∀ c ∈ run, isWordChar c) : ¬ EndsInComment (cs ++ run) := by
  have hhash : '#' ∉ run := fun h => (isWordChar_iff.mp (hrun '#' h)).2 rfl
  rw [endsInComment_append_iff hhash]
  exact fun h => hopen h.1

theorem inWord_iff (h : ¬ EndsInComment cs) : InWord cs c ↔ isWordChar c := by
  rw [InWord, isWordChar_iff, isSeparator_eq_false_iff, and_assoc]
  refine and_congr_right fun _ => and_congr_right fun _ => ?_
  constructor
  · rintro hopen rfl
    exact hopen (endsInComment_comment List.not_mem_nil)
  · intro hhash hends
    exact h ((endsInComment_append_iff (by simpa using Ne.symm hhash)).mp hends).1

end Comments

/-- A word is as long as it can be, so no other begins where it does. -/
theorem Occurrence.IsWord.eq_of_before {text : List Char} {o p : Occurrence} (ho : o.IsWord text)
    (hp : p.IsWord text) (h : o.before = p.before) : o = p := by
  have shorter {o p : Occurrence} (ho : o.IsWord text) (hp : p.IsWord text)
      (h : o.before = p.before) {more : List Char} (hword : p.word = o.word ++ more)
      (hafter : o.after = more ++ p.after) : more = [] := by
    cases more with
    | nil => rfl
    | cons c more =>
      have hinside := hp.inside o.word c more hword
      rw [← h] at hinside
      exact absurd hinside (ho.stops c (more ++ p.after) hafter)
  have hrest : o.word ++ o.after = p.word ++ p.after := by
    have heq := ho.text_eq.symm.trans hp.text_eq
    rw [h] at heq
    exact List.append_cancel_left heq
  obtain ⟨before, word, after⟩ := o
  obtain ⟨before', word', after'⟩ := p
  obtain rfl : before = before' := h
  rcases List.append_eq_append_iff.mp hrest with ⟨more, hword, hafter⟩ | ⟨more, hword, hafter⟩
  · obtain rfl := shorter ho hp rfl hword hafter
    simp_all
  · obtain rfl := shorter hp ho rfl hword hafter
    simp_all

/-- A word that begins behind `before` begins behind the next stretch too, or inside it. -/
theorem Occurrence.IsWord.start_cases {before stretch rest : List Char} {o : Occurrence}
    (h : o.IsWord (before ++ (stretch ++ rest))) (hle : before.length ≤ o.before.length) :
    (before ++ stretch).length ≤ o.before.length ∨ ∃ front c back,
      stretch = front ++ c :: back ∧ o.before = before ++ front ∧ InWord (before ++ front) c := by
  obtain ⟨front, hfront⟩ : before <+: o.before :=
    List.prefix_of_prefix_length_le ⟨_, rfl⟩ ⟨_, h.text_eq.symm⟩ hle
  have hrest : stretch ++ rest = front ++ (o.word ++ o.after) := by
    have heq := h.text_eq
    rw [← hfront, List.append_assoc] at heq
    exact List.append_cancel_left heq
  rcases List.append_eq_append_iff.mp hrest with ⟨more, rfl, -⟩ | ⟨more, rfl, hmore⟩
  · exact .inl (by simp [← hfront])
  · cases more with
    | nil => exact .inl (by simp [← hfront])
    | cons c more =>
      obtain ⟨d, word, hword⟩ := List.exists_cons_of_ne_nil h.ne_nil
      rw [hword, List.cons_append, List.cons_append] at hmore
      obtain ⟨rfl, -⟩ := List.cons.inj hmore
      have hinside := h.inside [] d word hword
      rw [← hfront, List.append_nil] at hinside
      exact .inr ⟨front, d, more, rfl, hfront.symm, hinside⟩

/-- Neither a comment nor a word goes on from `before` into `rest`. -/
structure Fresh (before rest : List Char) : Prop where
  comment : EndsInComment before → ∀ c ∈ rest.head?, c = '\n'
  word : ∀ front c, before = front ++ [c] → InWord front c → ∀ d ∈ rest.head?, ¬ isWordChar d

namespace Fresh

variable {before rest word : List Char}

theorem nil : Fresh [] rest where
  comment := by rintro ⟨front, body, h, -⟩; simp at h
  word := by intro front c h; simp at h

/-- Behind a separator no comment is open. -/
theorem not_endsInComment {c : Char} (h : Fresh before (c :: rest)) (hc : isSeparator c) :
    ¬ EndsInComment (before ++ [c]) := by
  intro hends
  have hhash : '#' ∉ [c] := by
    intro hmem
    obtain rfl := List.mem_singleton.mp hmem
    exact absurd hc (by decide)
  obtain ⟨hbefore, hline⟩ := (endsInComment_append_iff hhash).mp hends
  exact hline (List.mem_singleton.mpr (h.comment hbefore c rfl).symm)

theorem past_separator {c : Char} (h : Fresh before (c :: rest)) (hc : isSeparator c) :
    Fresh (before ++ [c]) rest where
  comment hends := absurd hends (h.not_endsInComment hc)
  word front d heq hin := by
    obtain ⟨rfl, hd⟩ := List.append_inj' heq rfl
    obtain ⟨rfl, -⟩ := List.cons.inj hd
    have hnot := isSeparator_eq_false_iff.mpr ⟨hin.1, hin.2.1⟩
    rw [hc] at hnot
    cases hnot

theorem past_comment {body : List Char} (hbody : '\n' ∉ body) (hrest : ∀ c ∈ rest.head?, c = '\n') :
    Fresh (before ++ '#' :: body) rest where
  comment _ := hrest
  word front d heq hin := by
    refine absurd ?_ hin.2.2
    rw [← heq]
    exact endsInComment_comment hbody

/-- No comment is open where a word begins. -/
theorem not_endsInComment_word (h : Fresh before (word ++ rest)) (hne : word ≠ [])
    (hword : ∀ c ∈ word, isWordChar c) : ¬ EndsInComment before := by
  intro hends
  obtain ⟨c, word, rfl⟩ := List.exists_cons_of_ne_nil hne
  obtain rfl := h.comment hends c rfl
  exact absurd (hword '\n' List.mem_cons_self) (by decide)

theorem past_word (h : Fresh before (word ++ rest)) (hne : word ≠ [])
    (hword : ∀ c ∈ word, isWordChar c) (hrest : ∀ c ∈ rest.head?, ¬ isWordChar c) :
    Fresh (before ++ word) rest where
  comment hends :=
    absurd hends (not_endsInComment_append (h.not_endsInComment_word hne hword) hword)
  word _ _ _ _ := hrest

theorem isWord (h : Fresh before (word ++ rest)) (hne : word ≠ [])
    (hword : ∀ c ∈ word, isWordChar c) (hrest : ∀ c ∈ rest.head?, ¬ isWordChar c) :
    Occurrence.IsWord (before ++ (word ++ rest)) ⟨before, word, rest⟩ where
  text_eq := rfl
  ne_nil := hne
  inside := by
    rintro front c back rfl
    have hopen := h.not_endsInComment_word hne hword
    rw [inWord_iff (not_endsInComment_append hopen fun d hd => hword d (by simp [hd]))]
    exact hword c (by simp)
  starts := by
    intro front c hbefore hin
    obtain ⟨d, word, rfl⟩ := List.exists_cons_of_ne_nil hne
    exact h.word front c hbefore hin d rfl (hword d List.mem_cons_self)
  stops := by
    rintro c back rfl
    have hopen := h.not_endsInComment_word hne hword
    rw [inWord_iff (not_endsInComment_append hopen hword)]
    exact hrest c rfl

end Fresh

theorem not_inWord_of_comment {before body front back : List Char} {c : Char} (hbody : '\n' ∉ body)
    (h : '#' :: body = front ++ c :: back) : ¬ InWord (before ++ front) c := by
  intro hin
  apply hin.2.2
  rw [List.append_assoc]
  exact endsInComment_of_comment hbody h

/-- A stretch that no character of a word stands in is passed over. -/
theorem Occurrence.isWord_past_iff {before stretch rest : List Char} {o : Occurrence}
    (h : ∀ front c back, stretch = front ++ c :: back → ¬ InWord (before ++ front) c) :
    o.IsWord (before ++ stretch ++ rest) ∧ (before ++ stretch).length ≤ o.before.length ↔
      o.IsWord (before ++ (stretch ++ rest)) ∧ before.length ≤ o.before.length := by
  rw [List.append_assoc]
  refine and_congr_right fun hword => ⟨fun hle => ?_, fun hle => ?_⟩
  · rw [List.length_append] at hle
    omega
  · rcases hword.start_cases hle with hle | ⟨front, c, back, hstretch, -, hin⟩
    · exact hle
    · exact absurd hin (h front c back hstretch)

namespace Cut

variable {before rest : List Char} {words : List Occurrence}

/-- What is found behind `before` are the words that begin there or later. -/
theorem mem_iff (h : Cut before rest words) (hfresh : Fresh before rest) (o : Occurrence) :
    o ∈ words ↔ o.IsWord (before ++ rest) ∧ before.length ≤ o.before.length := by
  induction h with
  | @nil before =>
    constructor
    · intro h
      cases h
    · rintro ⟨h, hle⟩
      have hlength := congrArg List.length h.text_eq
      have hpos := List.length_pos_of_ne_nil h.ne_nil
      simp only [List.length_append, List.length_nil] at hlength
      omega
  | @separator before rest c words hc _ ih =>
    rw [ih (hfresh.past_separator hc), Occurrence.isWord_past_iff]
    · rfl
    · intro front d back hfront hin
      obtain rfl : c = d := by
        cases front with
        | nil => exact (List.cons.inj hfront).1
        | cons e front => simp at hfront
      have hnot := isSeparator_eq_false_iff.mpr ⟨hin.1, hin.2.1⟩
      rw [hc] at hnot
      cases hnot
  | @comment before body rest words hbody hrest _ ih =>
    rw [ih (.past_comment hbody hrest), Occurrence.isWord_past_iff]
    · rfl
    · intro front c back hfront
      exact not_inWord_of_comment hbody hfront
  | @word before word rest words hne hword hrest _ ih =>
    have hself := hfresh.isWord hne hword hrest
    have hopen := hfresh.not_endsInComment_word hne hword
    rw [List.mem_cons, ih (hfresh.past_word hne hword hrest), List.append_assoc]
    constructor
    · rintro (rfl | ⟨ho, hle⟩)
      · exact ⟨hself, Nat.le_refl _⟩
      · rw [List.length_append] at hle
        exact ⟨ho, by omega⟩
    · rintro ⟨ho, hle⟩
      rcases ho.start_cases hle with hle | ⟨front, c, back, rfl, hbefore, -⟩
      · exact .inr ⟨ho, hle⟩
      · -- A start in the middle of the word would have a word character before it.
        rcases List.eq_nil_or_concat front with rfl | ⟨front, d, rfl⟩
        · exact .inl (ho.eq_of_before hself (by simpa using hbefore))
        · refine absurd ?_ (ho.starts (before ++ front) d (by simp [hbefore]))
          rw [inWord_iff (not_endsInComment_append hopen fun e he => hword e (by simp [he]))]
          exact hword d (by simp)

theorem length_before_le (h : Cut before rest words) :
    ∀ o ∈ words, before.length ≤ o.before.length := by
  induction h with
  | nil => simp
  | separator _ _ ih =>
    intro o ho
    have hle := ih o ho
    rw [List.length_append] at hle
    omega
  | comment _ _ _ ih =>
    intro o ho
    have hle := ih o ho
    rw [List.length_append] at hle
    omega
  | word _ _ _ _ ih =>
    intro o ho
    rcases List.mem_cons.mp ho with rfl | ho
    · exact Nat.le_refl _
    · have hle := ih o ho
      rw [List.length_append] at hle
      omega

/-- The words are found in the order in which they begin. -/
theorem pairwise_before (h : Cut before rest words) :
    words.Pairwise fun o p => o.before.length < p.before.length := by
  induction h with
  | nil => exact .nil
  | separator _ _ ih => exact ih
  | comment _ _ _ ih => exact ih
  | word hne _ _ hcut ih =>
    refine .cons (fun o ho => ?_) ih
    have hle := hcut.length_before_le o ho
    have hpos := List.length_pos_of_ne_nil hne
    rw [List.length_append] at hle
    exact Nat.lt_of_lt_of_le (Nat.lt_add_of_pos_right hpos) hle

end Cut

section Lines

variable {word line : List Char} {c : Char}

/-- The words of a line without a comment. -/
private def codeWords (code : List Char) : List String :=
  ((code.splitOnP isSeparator).filter (!·.isEmpty)).map String.ofList

private theorem codeWords_word (hne : word ≠ []) (hword : ∀ c ∈ word, isSeparator c = false) :
    codeWords word = [String.ofList word] := by
  simp [codeWords, List.splitOnP_eq_singleton hword, hne]

private theorem codeWords_append_separator (hc : isSeparator c) (front back : List Char) :
    codeWords (front ++ c :: back) = codeWords front ++ codeWords back := by
  simp [codeWords, List.splitOnP_append_cons front back hc]

private theorem lineWords_eq (line : List Char) :
    lineWords line = codeWords (line.takeWhile (· != '#')) := rfl

theorem lineWords_comment (line : List Char) : lineWords ('#' :: line) = [] := rfl

theorem ne_hash_of_isSeparator (hc : isSeparator c) : c ≠ '#' := by
  rintro rfl
  exact absurd hc (by decide)

theorem lineWords_separator (hc : isSeparator c) (line : List Char) :
    lineWords (c :: line) = lineWords line := by
  have htake : (c :: line).takeWhile (· != '#') = c :: line.takeWhile (· != '#') :=
    List.takeWhile_cons_of_pos (by simpa using ne_hash_of_isSeparator hc)
  rw [lineWords_eq, htake, lineWords_eq]
  exact codeWords_append_separator hc [] _

theorem lineWords_word (hne : word ≠ []) (hword : ∀ c ∈ word, isWordChar c)
    (hline : ∀ c ∈ line.head?, ¬ isWordChar c) :
    lineWords (word ++ line) = String.ofList word :: lineWords line := by
  have hseparator : ∀ c ∈ word, isSeparator c = false :=
    fun c hc => (isWordChar_iff.mp (hword c hc)).1
  have htake : (word ++ line).takeWhile (· != '#') = word ++ line.takeWhile (· != '#') :=
    List.takeWhile_append_of_pos fun c hc => by simpa using (isWordChar_iff.mp (hword c hc)).2
  rw [lineWords_eq, htake]
  cases line with
  | nil =>
    rw [List.takeWhile_nil, List.append_nil, codeWords_word hne hseparator]
    rfl
  | cons c line =>
    rcases not_isWordChar_iff.mp (hline c rfl) with hc | rfl
    · have hcode : (c :: line).takeWhile (· != '#') = c :: line.takeWhile (· != '#') :=
        List.takeWhile_cons_of_pos (by simpa using ne_hash_of_isSeparator hc)
      rw [hcode, codeWords_append_separator hc, codeWords_word hne hseparator, lineWords_separator hc,
        lineWords_eq, List.singleton_append]
    · rw [List.takeWhile_cons_of_neg (by simp), List.append_nil, codeWords_word hne hseparator,
        lineWords_comment]

theorem lineWords_append_separator (hc : isSeparator c) (line : List Char) :
    lineWords (line ++ [c]) = lineWords line := by
  rw [lineWords_eq, List.takeWhile_append]
  split
  · rename_i hlength
    have hline : line.takeWhile (· != '#') = line :=
      (List.takeWhile_sublist _).eq_of_length hlength
    have hcode : [c].takeWhile (· != '#') = [c] :=
      List.takeWhile_cons_of_pos (by simpa using ne_hash_of_isSeparator hc)
    rw [hcode, codeWords_append_separator hc, lineWords_eq, hline]
    exact List.append_nil _
  · rfl

/-- A carriage return separates words, so that it does not matter whether it belongs to the line. -/
theorem lineWords_dropReturn (line : List Char) : lineWords (dropReturn line) = lineWords line := by
  unfold dropReturn
  split
  · rename_i hlast
    obtain ⟨front, rfl⟩ := List.getLast?_eq_some_iff.mp hlast
    rw [List.dropLast_concat, lineWords_append_separator (by decide)]
  · rfl

/-- The words of some text with their lines, where counting goes on from a number. -/
def numberedFrom (number : Nat) (cs : List Char) : List (Nat × String) :=
  ((cs.splitOn '\n').zipIdx number).flatMap numberedLine

/-- Neither the carriage returns that lines lose nor an empty line at the end make a difference. -/
theorem numberedWords_eq (text : String) : numberedWords text = numberedFrom 1 text.toList := by
  obtain ⟨front, last, hpieces⟩ : ∃ front last, text.toList.splitOn '\n' = front ++ [last] :=
    ⟨_, _, (List.dropLast_concat_getLast (List.splitOn_ne_nil _ _)).symm⟩
  have hfront (number : Nat) : ((front.map dropReturn).zipIdx number).flatMap numberedLine =
      (front.zipIdx number).flatMap numberedLine := by
    rw [List.zipIdx_map, List.flatMap_map]
    exact List.flatMap_congr fun line _ => by
      rw [numberedLine, Prod.map_fst, lineWords_dropReturn, Prod.map_snd, id_eq, numberedLine]
  have hlast (number : Nat) :
      (((some last).filter (!·.isEmpty)).toList.zipIdx number).flatMap numberedLine =
        ([last].zipIdx number).flatMap numberedLine := by
    cases last <;> rfl
  rw [numberedWords, lines, numberedFrom, hpieces, List.dropLast_concat, List.getLast?_concat,
    List.zipIdx_append, List.zipIdx_append, List.flatMap_append, List.flatMap_append, List.length_map,
    hfront, hlast]

theorem numberedFrom_line {line : List Char} (h : '\n' ∉ line) (number : Nat) :
    numberedFrom number line = (lineWords line).map fun word => (number, word) := by
  simp [numberedFrom, numberedLine, List.splitOn_eq_singleton h]

theorem numberedFrom_line_append {line : List Char} (h : '\n' ∉ line) (number : Nat)
    (rest : List Char) : numberedFrom number (line ++ '\n' :: rest) =
      ((lineWords line).map fun word => (number, word)) ++ numberedFrom (number + 1) rest := by
  simp [numberedFrom, numberedLine, List.splitOn_append_cons_self_of_not_mem h, List.zipIdx_cons]

/-- A stretch without line feed adds what it adds to the words of its line. -/
theorem numberedFrom_append {stretch rest : List Char} (words : List String) (h : '\n' ∉ stretch)
    (hwords : ∀ line, line <+: rest → '\n' ∉ line →
      lineWords (stretch ++ line) = words ++ lineWords line) (number : Nat) :
    numberedFrom number (stretch ++ rest) =
      (words.map fun word => (number, word)) ++ numberedFrom number rest := by
  by_cases hfeed : '\n' ∈ rest
  · obtain ⟨line, after, rfl, hline⟩ := List.eq_append_cons_of_mem hfeed
    rw [← List.append_assoc, numberedFrom_line_append (by simp [h, hline]),
      numberedFrom_line_append hline, hwords line (List.prefix_append ..) hline, List.map_append,
      List.append_assoc]
  · rw [numberedFrom_line (by simp [h, hfeed]), numberedFrom_line hfeed,
      hwords rest (List.prefix_refl _) hfeed, List.map_append]

theorem numberedFrom_separator (hc : isSeparator c) (number : Nat) (rest : List Char) :
    numberedFrom number (c :: rest) = numberedFrom (number + [c].count '\n') rest := by
  by_cases hfeed : c = '\n'
  · subst hfeed
    exact numberedFrom_line_append List.not_mem_nil number rest
  · have hnone : '\n' ∉ [c] := by simpa using Ne.symm hfeed
    rw [List.count_eq_zero.mpr hnone]
    exact numberedFrom_append [] hnone (fun line _ _ => lineWords_separator hc line) number

theorem numberedFrom_comment {body rest : List Char} (hbody : '\n' ∉ body)
    (hrest : ∀ c ∈ rest.head?, c = '\n') (number : Nat) :
    numberedFrom number ('#' :: (body ++ rest)) = numberedFrom number rest := by
  have hnone : '\n' ∉ '#' :: body := by simp [hbody]
  refine numberedFrom_append [] hnone ?_ number
  rintro line ⟨after, rfl⟩ hline
  cases line with
  | nil => rfl
  | cons c line =>
    obtain rfl := hrest c rfl
    simp at hline

theorem numberedFrom_word {rest : List Char} (hne : word ≠ []) (hword : ∀ c ∈ word, isWordChar c)
    (hrest : ∀ c ∈ rest.head?, ¬ isWordChar c) (number : Nat) :
    numberedFrom number (word ++ rest) =
      (number, String.ofList word) :: numberedFrom number rest := by
  have hfeed : '\n' ∉ word := fun h => absurd (hword '\n' h) (by decide)
  refine numberedFrom_append [String.ofList word] hfeed ?_ number
  rintro line ⟨after, rfl⟩ -
  apply lineWords_word hne hword
  intro c hc
  exact hrest c (by simp [List.head?_append, Option.mem_def.mp hc])

/-- The words found with the numbers of their lines are those that the lines hold. -/
theorem Cut.map_numbered {before rest : List Char} {words : List Occurrence}
    (h : Cut before rest words) :
    words.map Occurrence.numbered = numberedFrom (1 + before.count '\n') rest := by
  induction h with
  | nil => rfl
  | separator hc _ ih => rw [ih, numberedFrom_separator hc, List.count_append, Nat.add_assoc]
  | @comment before body rest words hbody hrest _ ih =>
    have hcount : ('#' :: body).count '\n' = 0 := List.count_eq_zero.mpr (by simp [hbody])
    rw [ih, numberedFrom_comment hbody hrest, List.count_append, hcount]
    rfl
  | @word before word rest words hne hword hrest _ ih =>
    have hfeed : '\n' ∉ word := fun h => absurd (hword '\n' h) (by decide)
    rw [List.map_cons, ih, numberedFrom_word hne hword hrest, List.count_append,
      List.count_eq_zero.mpr hfeed]
    rfl

end Lines

namespace Cut

variable {text : String} {words : List Occurrence} (h : Cut [] text.toList words)

include h

private theorem ofListing_eq_mapM :
    Program.ofListing text = Program.ofList <$> (words.map Occurrence.numbered).mapM value := by
  have hnumbered : numberedWords text = words.map Occurrence.numbered :=
    (numberedWords_eq text).trans h.map_numbered.symm
  rw [← hnumbered]
  rfl

/-- A listing reads to the values of its words. -/
theorem ofListing_eq_ok_iff {p : Program} :
    Program.ofListing text = .ok p ↔ List.Forall₂ (fun o w => Means o.word w) words p.toList := by
  have hmeans (values : List Word) : (words.map Occurrence.numbered).mapM value = .ok values ↔
      List.Forall₂ (fun o w => Means o.word w) words values := by
    rw [mapM_eq_ok_iff, List.forall₂_map_left_iff]
    exact ⟨.imp fun o w => value_eq_ok_iff.mp, .imp fun o w => value_eq_ok_iff.mpr⟩
  rw [h.ofListing_eq_mapM, map_eq_ok_iff]
  constructor
  · rintro ⟨values, hvalues, rfl⟩
    exact (hmeans values).mp hvalues
  · intro hwords
    exact ⟨p.toList, (hmeans _).mpr hwords, p.ofList_toList⟩

/-- The error of a listing is its first word that is not valid. -/
theorem ofListing_eq_error_iff {e : InvalidWord} :
    Program.ofListing text = .error e ↔ ∃ front o back, words = front ++ o :: back ∧
      (∀ p ∈ front, Valid p.word) ∧ ¬ Valid o.word ∧
      e = ⟨1 + o.before.count '\n', String.ofList o.word⟩ := by
  rw [h.ofListing_eq_mapM, map_eq_error_iff, mapM_eq_error_iff]
  constructor
  · rintro ⟨before, numbered, after, hsplit, hbefore, herror⟩
    obtain ⟨front, others, rfl, rfl, hothers⟩ := List.map_eq_append_iff.mp hsplit
    obtain ⟨o, back, rfl, rfl, -⟩ := List.map_eq_cons_iff.mp hothers
    refine ⟨front, o, back, rfl, fun p hp => ?_, value_eq_error_iff.mp herror⟩
    obtain ⟨w, hw⟩ := hbefore _ (List.mem_map_of_mem hp)
    exact valid_iff.mpr ⟨w, value_eq_ok_iff.mp hw⟩
  · rintro ⟨front, o, back, rfl, hfront, herror⟩
    refine ⟨front.map Occurrence.numbered, o.numbered, back.map Occurrence.numbered, by simp, ?_,
      value_eq_error_iff.mpr herror⟩
    intro numbered hmem
    obtain ⟨p, hp, rfl⟩ := List.mem_map.mp hmem
    obtain ⟨w, hw⟩ := valid_iff.mp (hfront p hp)
    exact ⟨w, value_eq_ok_iff.mpr hw⟩

end Cut

/-- The words of a listing, by where they stand in the text, decide what it reads to. There is one
list of them in order. If all are valid, the program holds their values; otherwise the first that is
not is the error, with its text and the line it stands on. -/
theorem ofListing_reads_words (text : String) :
    ∃ words : List Occurrence,
      (∀ o, o ∈ words ↔ o.IsWord text.toList) ∧
      (words.Pairwise fun o p => o.before.length < p.before.length) ∧
      ((∀ o ∈ words, Valid o.word) → ∃ values, List.Forall₂ (fun o w => Means o.word w) words values ∧
        Program.ofListing text = .ok (.ofList values)) ∧
      ∀ front o back, words = front ++ o :: back → (∀ p ∈ front, Valid p.word) → ¬ Valid o.word →
        Program.ofListing text = .error ⟨1 + o.before.count '\n', String.ofList o.word⟩ := by
  obtain ⟨words, hcut⟩ := exists_cut [] text.toList
  refine ⟨words, fun o => ?_, hcut.pairwise_before, fun hvalid => ?_, ?_⟩
  · rw [hcut.mem_iff .nil]
    simp
  · cases hread : Program.ofListing text with
    | ok p => exact ⟨p.toList, hcut.ofListing_eq_ok_iff.mp hread, by rw [p.ofList_toList]⟩
    | error e =>
      obtain ⟨front, o, back, rfl, -, ho, -⟩ := hcut.ofListing_eq_error_iff.mp hread
      exact absurd (hvalid o (by simp)) ho
  · intro front o back hsplit hfront ho
    exact hcut.ofListing_eq_error_iff.mpr ⟨front, o, back, hsplit, hfront, ho, rfl⟩

end StackAssembly.Listing
