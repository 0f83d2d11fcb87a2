import Mathlib.Data.List.Infix
import StackAssembly.Proofs.ListingGrammar
import StackAssembly.Proofs.TwoEntryPoints

/-! Line numbers. The line of a token can be counted on the text before it: every line feed ends a
line, and so does every carriage return outside comments. -/
namespace StackAssembly

namespace Listing

theorem endsInComment_iff_mem {cs : List Char} :
    EndsInComment cs ↔ '#' ∈ cs.reverse.takeWhile (· != '\n') := by
  constructor
  · rintro ⟨front, body, rfl, hbody⟩
    have hline : ∀ c ∈ body.reverse, (c != '\n') = true := by
      intro c hc
      simpa using ne_of_mem_of_not_mem (List.mem_reverse.mp hc) hbody
    rw [List.reverse_append, List.reverse_cons, List.append_assoc,
      List.takeWhile_append_of_pos hline]
    simp
  · intro h
    obtain ⟨after, before, hsplit⟩ := List.append_of_mem h
    refine ⟨(before ++ cs.reverse.dropWhile (· != '\n')).reverse, after.reverse, ?_, ?_⟩
    · have hcs := List.takeWhile_append_dropWhile (p := (· != '\n')) (l := cs.reverse)
      rw [hsplit] at hcs
      refine List.reverse_injective (hcs.symm.trans ?_)
      simp
    · intro hfeed
      have hmem : '\n' ∈ cs.reverse.takeWhile (· != '\n') := by
        rw [hsplit]
        exact List.mem_append_left _ (List.mem_reverse.mp hfeed)
      simpa using List.mem_takeWhile_imp hmem

instance (cs : List Char) : Decidable (EndsInComment cs) :=
  decidable_of_iff _ endsInComment_iff_mem.symm

theorem endsInComment_concat_iff {cs : List Char} {c : Char} :
    EndsInComment (cs ++ [c]) ↔ c = '#' ∨ EndsInComment cs ∧ c ≠ '\n' := by
  by_cases hhash : c = '#'
  · subst hhash
    exact iff_of_true (endsInComment_comment List.not_mem_nil) (.inl rfl)
  · rw [endsInComment_append_iff (by simpa using Ne.symm hhash), List.mem_singleton, or_iff_right hhash,
      ne_comm]

end Listing

open Listing

/-- The number of the line that the end of a text stands on: one more than its line feeds and those of
its carriage returns that stand in no comment. -/
def lineNumber (cs : List Char) : Nat :=
  1 + cs.count '\n' + cs.inits.countP fun front => front.getLast? = some '\r' ∧ ¬ EndsInComment front

section Counting

variable {cs : List Char}

theorem lineNumber_concat (cs : List Char) (c : Char) :
    lineNumber (cs ++ [c]) =
      if c = '\n' ∨ c = '\r' ∧ ¬ EndsInComment cs then lineNumber cs + 1 else lineNumber cs := by
  have hinits : (cs ++ [c]).inits = cs.inits ++ [cs ++ [c]] := by simp [List.inits_append]
  have hreturn : (cs ++ [c]).getLast? = some '\r' ∧ ¬ EndsInComment (cs ++ [c]) ↔
      c = '\r' ∧ ¬ EndsInComment cs := by
    rw [List.getLast?_concat, Option.some_inj, endsInComment_concat_iff]
    refine and_congr_right ?_
    rintro rfl
    simp
  rw [lineNumber, lineNumber, hinits, List.countP_append, List.countP_singleton, List.count_append,
    List.count_singleton]
  simp only [decide_eq_true_eq, hreturn, beq_iff_eq]
  by_cases hfeed : c = '\n'
  · have hnot : ¬ (c = '\r' ∧ ¬ EndsInComment cs) := by simp [hfeed]
    rw [if_pos hfeed, if_neg hnot, if_pos (.inl hfeed)]
    omega
  · simp only [hfeed, if_false, false_or]
    split <;> omega

/-- Where no line ends, the number stays. -/
theorem lineNumber_append {stretch : List Char} (h : ∀ c ∈ stretch, c ≠ '\n' ∧ c ≠ '\r') :
    lineNumber (cs ++ stretch) = lineNumber cs := by
  induction stretch generalizing cs with
  | nil => rw [List.append_nil]
  | cons c stretch ih =>
    obtain ⟨hc, hstretch⟩ := List.forall_mem_cons.mp h
    rw [← List.singleton_append, ← List.append_assoc, ih hstretch, lineNumber_concat, if_neg]
    rintro (hfeed | ⟨hreturn, -⟩)
    · exact hc.1 hfeed
    · exact hc.2 hreturn

/-- A carriage return in a comment does not count. -/
theorem lineNumber_comment {body : List Char} (h : '\n' ∉ body) :
    lineNumber (cs ++ '#' :: body) = lineNumber cs := by
  induction body using List.reverseRecOn with
  | nil => exact lineNumber_append (by simp)
  | append_singleton body c ih =>
    obtain ⟨hbody, hc⟩ : '\n' ∉ body ∧ '\n' ∉ [c] := by simpa using h
    rw [← List.cons_append, ← List.append_assoc, lineNumber_concat, if_neg, ih hbody]
    rintro (hfeed | ⟨-, hopen⟩)
    · exact hc (List.mem_singleton.mpr hfeed.symm)
    · exact hopen (endsInComment_comment hbody)

/-- A carriage return and a line feed outside comments are two ends of lines. -/
theorem lineNumber_return_feed (h : ¬ EndsInComment cs) :
    lineNumber (cs ++ ['\r', '\n']) = lineNumber cs + 2 := by
  have hfeed : lineNumber (cs ++ ['\r'] ++ ['\n']) = lineNumber (cs ++ ['\r']) + 1 := by
    rw [lineNumber_concat, if_pos (.inl rfl)]
  have hreturn : lineNumber (cs ++ ['\r']) = lineNumber cs + 1 := by
    rw [lineNumber_concat, if_pos (.inr ⟨rfl, h⟩)]
  rw [List.append_assoc, hreturn] at hfeed
  exact hfeed

end Counting

namespace Lexeme

/-- No comment goes on from `before` into `rest`. -/
def NoCommentAcross (before rest : List Char) : Prop :=
  EndsInComment before → ∀ c ∈ rest.head?, ¬ TokenKind.comment.Absorbs c

namespace NoCommentAcross

variable {before rest : List Char}

theorem nil : NoCommentAcross [] rest := by
  rintro ⟨front, body, h, -⟩
  simp at h

theorem of_not_endsInComment (h : ¬ EndsInComment before) : NoCommentAcross before rest :=
  fun hends => absurd hends h

theorem not_endsInComment {c : Char} (h : NoCommentAcross before (c :: rest))
    (hc : TokenKind.comment.Absorbs c) : ¬ EndsInComment before :=
  fun hends => h hends c rfl hc

/-- A stretch that opens no comment, and that an open one would have taken in. -/
theorem past_stretch {stretch : List Char} (h : NoCommentAcross before (stretch ++ rest))
    (hhash : '#' ∉ stretch) (habsorbed : ∀ c ∈ stretch, TokenKind.comment.Absorbs c) :
    NoCommentAcross (before ++ stretch) rest := by
  cases stretch with
  | nil => rwa [List.append_nil]
  | cons c stretch =>
    have hopen := h.not_endsInComment (habsorbed c List.mem_cons_self)
    apply of_not_endsInComment
    rw [endsInComment_append_iff hhash]
    exact fun hends => hopen hends.1

theorem past_blanks {gap : List Char} (h : NoCommentAcross before (gap ++ rest))
    (hgap : ∀ c ∈ gap, isBlank c) :
    lineNumber (before ++ gap) = lineNumber before ∧ NoCommentAcross (before ++ gap) rest := by
  have hclass {c d : Char} (hc : c ∈ gap) (hd : isBlank d = false) : c ≠ d := by
    rintro rfl
    rw [hgap c hc] at hd
    cases hd
  refine ⟨lineNumber_append fun c hc => ⟨hclass hc (by decide), hclass hc (by decide)⟩, ?_⟩
  refine h.past_stretch (fun hhash => hclass hhash (by decide) rfl) fun c hc => ?_
  exact ⟨hclass hc (by decide), hclass hc (by decide)⟩

end NoCommentAcross

/-- Only comments and ends of lines hold a character that the count of lines looks at. -/
theorem Fits.plain {x : Lexeme} (h : x.Fits) (hcomment : x.kind ≠ .comment)
    (hline : x.kind ≠ .endOfLine) : ∀ c ∈ x.text, c ∉ ['#', '\n', '\r'] := by
  intro c hc
  have hclass {member : Char → Bool} (hmember : member c = true)
      (hnone : ['#', '\n', '\r'].all (!member ·) = true) : c ∉ ['#', '\n', '\r'] := by
    intro hin
    have hnot := List.all_eq_true.mp hnone c hin
    rw [hmember] at hnot
    cases hnot
  obtain ⟨kind, text⟩ := x
  cases kind with
  | instruction op => exact hclass ((capitals_of_fits_instruction h).2.1 c hc) (by decide)
  | unknownInstruction => exact hclass (h.2.1 c hc) (by decide)
  | label =>
    obtain ⟨name, hname, rfl⟩ := h
    rcases List.mem_append.mp hc with hc | hc
    · exact hclass (hname.chars c hc) (by decide)
    · obtain rfl := List.mem_singleton.mp hc
      decide
  | labelName => exact hclass (IsName.chars h c hc) (by decide)
  | int => exact hclass (h.2 c hc) (by decide)
  | comment => exact absurd rfl hcomment
  | endOfLine => exact absurd rfl hline
  | endOfInput => exact h.elim
  | illegal =>
    obtain ⟨d, rfl, -, -, hd⟩ := h
    obtain rfl := List.mem_singleton.mp hc
    simp only [List.mem_cons, List.not_mem_nil, or_false, not_or] at hd ⊢
    exact ⟨hd.1, hd.2.2.2.1, hd.2.2.2.2.1⟩

/-- A lexeme takes the count of lines one further if it is the end of a line, and no comment goes on
behind it. -/
theorem NoCommentAcross.past_lexeme {before rest : List Char} {x : Lexeme}
    (h : NoCommentAcross before (x.text ++ rest)) (hfits : x.Fits)
    (hstop : ∀ c ∈ rest.head?, ¬ x.kind.Absorbs c) :
    lineNumber (before ++ x.text) =
        (if x.kind = .endOfLine then lineNumber before + 1 else lineNumber before) ∧
      NoCommentAcross (before ++ x.text) rest := by
  by_cases hline : x.kind = .endOfLine
  · rw [if_pos hline]
    obtain ⟨kind, text⟩ := x
    obtain rfl : kind = .endOfLine := hline
    rcases hfits with htext | htext
    · obtain rfl : text = ['\n'] := htext
      refine ⟨by rw [lineNumber_concat, if_pos (.inl rfl)], of_not_endsInComment ?_⟩
      simp [endsInComment_concat_iff]
    · -- In a comment the carriage return would not have been a lexeme of its own.
      obtain rfl : text = ['\r'] := htext
      have hopen := h.not_endsInComment (c := '\r') (by simp [TokenKind.Absorbs])
      refine ⟨by rw [lineNumber_concat, if_pos (.inr ⟨rfl, hopen⟩)], of_not_endsInComment ?_⟩
      simp [endsInComment_concat_iff, hopen]
  rw [if_neg hline]
  by_cases hcomment : x.kind = .comment
  · obtain ⟨kind, text⟩ := x
    obtain rfl : kind = .comment := hcomment
    obtain ⟨body, rfl, hbody⟩ := hfits
    exact ⟨lineNumber_comment fun hfeed => (hbody '\n' hfeed).1 rfl, fun _ => hstop⟩
  · have hplain := hfits.plain hcomment hline
    simp only [List.mem_cons, List.not_mem_nil, or_false, not_or] at hplain
    refine ⟨lineNumber_append fun c hc => (hplain c hc).2, h.past_stretch ?_ fun c hc => ?_⟩
    · exact fun hhash => (hplain '#' hhash).1 rfl
    · exact ⟨(hplain c hc).2.1, hfits.ne_nul c hc⟩

/-- A lexeme where it stands: right behind `before`. -/
structure Spot where
  before : List Char
  lexeme : Lexeme
  deriving DecidableEq, Repr

/-- The text behind `before`, cut into lexemes and the blanks around them, with the place of every
lexeme. Each fits its kind and is followed by nothing that it would have taken in. -/
inductive Placed : List Char → List Char → List Spot → Prop where
  | blanks {before gap : List Char} : (∀ c ∈ gap, isBlank c) → Placed before gap []
  | lexeme {before gap rest : List Char} {x : Lexeme} {spots : List Spot} :
      (∀ c ∈ gap, isBlank c) → x.Fits → (∀ c ∈ rest.head?, ¬ x.kind.Absorbs c) →
      Placed (before ++ gap ++ x.text) rest spots →
      Placed before (gap ++ (x.text ++ rest)) (⟨before ++ gap, x⟩ :: spots)

theorem Cut.placed {cs : List Char} {xs : List Lexeme} (h : Cut cs xs) (before : List Char) :
    ∃ spots, Placed before cs spots ∧ spots.map (·.lexeme) = xs := by
  induction h generalizing before with
  | blanks hgap => exact ⟨[], .blanks hgap, rfl⟩
  | @lexeme gap rest x xs hgap hfits hstop _ ih =>
    obtain ⟨spots, hspots, hxs⟩ := ih (before ++ gap ++ x.text)
    exact ⟨_ :: spots, .lexeme hgap hfits hstop hspots, congrArg (x :: ·) hxs⟩

/-- The blanks before a lexeme are all that a text begins with. -/
theorem Fits.takeWhile_isBlank {x : Lexeme} (h : x.Fits) {gap : List Char}
    (hgap : ∀ c ∈ gap, isBlank c) (rest : List Char) :
    (gap ++ (x.text ++ rest)).takeWhile isBlank = gap := by
  obtain ⟨c, cs, htext, hc⟩ := h.head_not_blank
  rw [List.takeWhile_append_of_pos hgap, htext, List.cons_append, List.takeWhile_cons_of_neg hc,
    List.append_nil]

/-- Every lexeme has only one place. -/
theorem Placed.unique {before cs : List Char} {spots others : List Spot} (h : Placed before cs spots)
    (hothers : Placed before cs others) : spots = others := by
  have hnone {gap rest : List Char} {x : Lexeme} (hfits : x.Fits)
      (hall : ∀ c ∈ gap ++ (x.text ++ rest), isBlank c) : False := by
    obtain ⟨c, cs, htext, hc⟩ := hfits.head_not_blank
    exact hc (hall c (by simp [htext]))
  induction h generalizing others with
  | blanks hall =>
    cases hothers with
    | blanks => rfl
    | lexeme _ hfits => exact (hnone hfits hall).elim
  | @lexeme before gap rest x spots hgap hfits hstop _ ih =>
    generalize hcs : gap ++ (x.text ++ rest) = cs at hothers
    cases hothers with
    | blanks hall =>
      rw [← hcs] at hall
      exact (hnone hfits hall).elim
    | @lexeme _ gap' rest' x' others hgap' hfits' hstop' hrest =>
      have hblanks := congrArg (List.takeWhile isBlank) hcs
      rw [hfits.takeWhile_isBlank hgap, hfits'.takeWhile_isBlank hgap'] at hblanks
      subst hblanks
      have hread := read?_append_of_fits hfits hstop
      rw [List.append_cancel_left hcs, read?_append_of_fits hfits' hstop'] at hread
      obtain ⟨rfl, rfl⟩ := Prod.mk.inj (Option.some.inj hread)
      rw [ih hrest]

/-- Counting ends of lines among lexemes comes to the same as counting them in the text. -/
theorem Placed.tokens {before cs : List Char} {spots : List Spot} (h : Placed before cs spots)
    (hacross : NoCommentAcross before cs) (index : Nat) :
    ∃ shown, Lexeme.tokens (lineNumber before) index (spots.map (·.lexeme)) =
        shown ++ [⟨.endOfInput, "", lineNumber (before ++ cs), none⟩] ∧
      List.Forall₂ (fun t s => Token.Shows t s.lexeme ∧ t.line = lineNumber s.before) shown spots := by
  induction h generalizing index with
  | @blanks before gap hgap =>
    rw [← List.append_nil gap] at hacross
    rw [(hacross.past_blanks hgap).1]
    exact ⟨[], rfl, .nil⟩
  | @lexeme before gap rest x spots hgap hfits hstop _ ih =>
    obtain ⟨hline, hacross⟩ := hacross.past_blanks hgap
    obtain ⟨hnext, hacross⟩ := hacross.past_lexeme hfits hstop
    obtain ⟨shown, htokens, hshown⟩ := ih hacross (if x.kind.isOperand then index + 1 else index)
    rw [hnext, hline] at htokens
    refine ⟨x.token (lineNumber before) index :: shown, ?_, .cons ⟨hfits.shows_token _ _, hline.symm⟩ hshown⟩
    rw [List.map_cons, Lexeme.tokens, htokens]
    simp

end Lexeme

namespace Lexer

/-- The lexer after a schedule of pulls. -/
def afterPulls (l : Lexer) : List Pull → Lexer
  | [] => l
  | way :: schedule => (l.pull way).2.afterPulls schedule

/-- The lexer has read `consumed` of the text and stands at the line that this leads to. -/
structure Stands (source consumed : List Char) (l : Lexer) : Prop where
  source_eq : source = consumed ++ l.rest
  line_eq : l.line = lineNumber consumed
  across : Lexeme.NoCommentAcross consumed l.rest

namespace Stands

variable {source consumed : List Char} {l : Lexer}

/-- Reading a token goes on to the line behind it. -/
theorem nextToken (h : Stands source consumed l) :
    ∃ more, Stands source (consumed ++ more) l.nextToken.2 := by
  have hgap : ∀ c ∈ l.rest.takeWhile Lexeme.isBlank, Lexeme.isBlank c :=
    fun c hc => List.mem_takeWhile_imp hc
  obtain ⟨hsource, hline, hacross⟩ := h
  rw [← List.takeWhile_append_dropWhile (p := Lexeme.isBlank) (l := l.rest)] at hsource hacross
  obtain ⟨hblanks, hacross⟩ := hacross.past_blanks hgap
  cases hread : Lexeme.read? (l.rest.dropWhile Lexeme.isBlank) with
  | none =>
    rw [nextToken_of_none hread]
    refine ⟨l.rest.takeWhile Lexeme.isBlank, ?_, hline.trans hblanks.symm, hacross⟩
    rw [List.append_assoc]
    exact hsource
  | some found =>
    obtain ⟨x, rest⟩ := found
    obtain ⟨hfits, hstop⟩ := Lexeme.fits_of_read? Lexeme.head?_dropWhile_isBlank hread
    rw [← Lexeme.read?_append hread] at hsource hacross
    obtain ⟨hnext, hacross⟩ := hacross.past_lexeme hfits hstop
    rw [(nextToken_of_some hread).1]
    refine ⟨l.rest.takeWhile Lexeme.isBlank ++ x.text, ?_, ?_, ?_⟩
    · change source = consumed ++ (l.rest.takeWhile Lexeme.isBlank ++ x.text) ++ rest
      simpa using hsource
    · rw [← List.append_assoc, hnext, hblanks, ← hline]
    · rw [← List.append_assoc]
      exact hacross

theorem pull (h : Stands source consumed l) (way : Pull) :
    ∃ more, Stands source (consumed ++ more) (l.pull way).2 := by
  cases way with
  | nextToken => exact h.nextToken
  | next =>
    rw [Lexer.pull, next]
    split
    · exact ⟨[], by rwa [List.append_nil]⟩
    · obtain ⟨more, hmore⟩ := h.nextToken
      exact ⟨more, hmore.source_eq, hmore.line_eq, hmore.across⟩

theorem afterPulls (h : Stands source consumed l) (schedule : List Pull) :
    ∃ more, Stands source (consumed ++ more) (l.afterPulls schedule) := by
  induction schedule generalizing consumed l with
  | nil => exact ⟨[], by rwa [List.append_nil]⟩
  | cons way schedule ih =>
    obtain ⟨first, hfirst⟩ := h.pull way
    obtain ⟨others, hothers⟩ := ih hfirst
    exact ⟨first ++ others, by rwa [← List.append_assoc]⟩

end Stands

theorem stands_ofString (source : String) : Stands source.toList [] (ofString source) where
  source_eq := rfl
  line_eq := rfl
  across := .nil

end Lexer

/-- Line numbers are right. A token bears the number of the line that the text before its first
character leads to, and the end of input that of the whole text up to the first NUL. After any calls
that read tokens, the lexer stands at the line that what it has read leads to. What counts is every
line feed and every carriage return outside comments, one by one. -/
theorem lex_counts_lines (source : String) :
    (∃ (shown : List Token) (spots : List Lexeme.Spot),
      Lexeme.Placed [] (source.toList.takeWhile (· ≠ '\x00')) spots ∧
      (∀ others, Lexeme.Placed [] (source.toList.takeWhile (· ≠ '\x00')) others → others = spots) ∧
      lex source = shown ++
        [⟨.endOfInput, "", lineNumber (source.toList.takeWhile (· ≠ '\x00')), none⟩] ∧
      List.Forall₂ (fun t s => Token.Shows t s.lexeme ∧ t.line = lineNumber s.before) shown spots) ∧
    (∀ schedule : List Lexer.Pull, ∃ consumed,
      source.toList = consumed ++ ((Lexer.ofString source).afterPulls schedule).rest ∧
      ((Lexer.ofString source).afterPulls schedule).line = lineNumber consumed) ∧
    (∀ cs body : List Char, '\n' ∉ body → lineNumber (cs ++ '#' :: body) = lineNumber cs) ∧
    ∀ cs : List Char, ¬ EndsInComment cs → lineNumber (cs ++ ['\r', '\n']) = lineNumber cs + 2 := by
  refine ⟨?_, fun schedule => ?_, fun _ _ => lineNumber_comment, fun _ => lineNumber_return_feed⟩
  · obtain ⟨spots, hspots, hscan⟩ := (Lexeme.cut_scan source.toList).placed []
    obtain ⟨shown, htokens, hshown⟩ := hspots.tokens .nil 0
    refine ⟨shown, spots, hspots, fun others hothers => hothers.unique hspots, ?_, hshown⟩
    rw [hscan] at htokens
    exact (lex_eq_tokens source).trans htokens
  · obtain ⟨consumed, hstands⟩ := (Lexer.stands_ofString source).afterPulls schedule
    exact ⟨consumed, hstands.source_eq, hstands.line_eq⟩

example : (lex "\r\n#\r\n7").map (fun t => (t.kind, t.line)) = [(.endOfLine, 1), (.endOfLine, 2),
    (.comment, 3), (.endOfLine, 3), (.int, 4), (.endOfInput, 4)] := by
  decide +kernel

end StackAssembly
