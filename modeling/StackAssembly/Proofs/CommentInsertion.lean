import StackAssembly.Proofs.HiddenText
import StackAssembly.Proofs.LineByLine

/-! Comments have no part in the program. A comment put before a line feed changes no lexeme that is not
a comment itself, and assembly looks at no others. -/
namespace StackAssembly

namespace Lexeme

/-- Only a comment goes on over a `#`. -/
theorem not_absorbs_hash {kind : TokenKind} (h : kind ≠ .comment) : ¬ kind.Absorbs '#' := by
  cases kind with
  | comment => exact absurd rfl h
  | _ => simp [TokenKind.Absorbs]

/-- The lexemes that are no comments. -/
def uncommented (xs : List Lexeme) : List Lexeme := xs.filter (·.kind ≠ .comment)

theorem uncommented_cons_comment (text : List Char) (xs : List Lexeme) :
    uncommented (⟨.comment, text⟩ :: xs) = uncommented xs :=
  List.filter_cons_of_neg (by simp)

theorem uncommented_append (xs ys : List Lexeme) :
    uncommented (xs ++ ys) = uncommented xs ++ uncommented ys :=
  List.filter_append ..

theorem uncommented_cons_congr {xs ys : List Lexeme} (h : uncommented xs = uncommented ys) (x : Lexeme) :
    uncommented (x :: xs) = uncommented (x :: ys) := by
  rw [← List.singleton_append, uncommented_append, h, ← uncommented_append, List.singleton_append]

/-- A comment behind a text is a lexeme of its own, or prolongs the comment that the text ends in. -/
theorem Cut.append_comment {cs body : List Char} {xs : List Lexeme} (h : Cut cs xs)
    (hbody : ∀ c ∈ body, c ≠ '\n' ∧ c ≠ '\x00') :
    ∃ ys, Cut (cs ++ '#' :: body) ys ∧ uncommented ys = uncommented xs := by
  have hlast {gap text : List Char} (hgap : ∀ c ∈ gap, isBlank c) (hfits : Fits ⟨.comment, text⟩) :
      Cut (gap ++ text) [⟨.comment, text⟩] := by
    have hcut : Cut (gap ++ (text ++ [])) [⟨.comment, text⟩] :=
      .lexeme hgap hfits (by simp) (.blanks (by simp))
    rwa [List.append_nil] at hcut
  induction h with
  | blanks hgap =>
    exact ⟨[⟨.comment, '#' :: body⟩], hlast hgap ⟨body, rfl, hbody⟩, uncommented_cons_comment _ _⟩
  | @lexeme gap rest x xs hgap hfits hstop hrest ih =>
    by_cases hopen : rest = [] ∧ x.kind = .comment
    · -- The text ends in this comment, so the new one is taken in.
      obtain ⟨rfl, hkind⟩ := hopen
      obtain ⟨kind, text⟩ := x
      obtain rfl : kind = .comment := hkind
      obtain rfl : xs = [] := hrest.scan_eq.symm.trans (scan_of_none rfl)
      obtain ⟨front, htext, hfront⟩ := hfits
      have hlonger : Fits ⟨.comment, text ++ '#' :: body⟩ := by
        refine ⟨front ++ '#' :: body, congrArg (· ++ '#' :: body) htext, ?_⟩
        exact List.forall_mem_append.mpr
          ⟨hfront, List.forall_mem_cons.mpr ⟨⟨by decide, by decide⟩, hbody⟩⟩
      refine ⟨[⟨.comment, text ++ '#' :: body⟩], ?_, ?_⟩
      · rw [List.append_nil, List.append_assoc]
        exact hlast hgap hlonger
      · rw [uncommented_cons_comment, uncommented_cons_comment]
    · obtain ⟨ys, hys, hkept⟩ := ih
      have hstops : ∀ c ∈ (rest ++ '#' :: body).head?, ¬ x.kind.Absorbs c := by
        cases rest with
        | nil =>
          rintro c ⟨⟩
          exact not_absorbs_hash fun hkind => hopen ⟨rfl, hkind⟩
        | cons d rest => exact hstop
      refine ⟨x :: ys, ?_, uncommented_cons_congr hkept x⟩
      rw [List.append_assoc, List.append_assoc]
      exact .lexeme hgap hfits hstops hys

/-- Behind a NUL nothing matters, and elsewhere only a comment comes in. -/
theorem uncommented_scan_comment (a b : List Char) {body : List Char}
    (hbody : ∀ c ∈ body, c ≠ '\n' ∧ c ≠ '\x00') :
    uncommented (scan (a ++ '#' :: body ++ '\n' :: b)) = uncommented (scan (a ++ '\n' :: b)) := by
  by_cases hnul : '\x00' ∈ a
  · obtain ⟨front, back, rfl⟩ := List.append_of_mem hnul
    simp only [List.append_assoc, List.cons_append, scan_append_nul]
  · have hvisible : visible a = a := by
      rw [visible, List.takeWhile_eq_self_iff]
      intro c hc
      exact decide_eq_true (ne_of_mem_of_not_mem hc hnul)
    have hcut := cut_scan a
    rw [hvisible] at hcut
    obtain ⟨ys, hys, hkept⟩ := hcut.append_comment hbody
    rw [hys.scan_append_lineFeed, hcut.scan_append_lineFeed, uncommented_append, uncommented_append,
      hkept]

/-- Comments move neither of the two counters. -/
theorem tokens_uncommented (line index : Nat) (xs : List Lexeme) :
    tokens line index (uncommented xs) = (tokens line index xs).filter (·.kind ≠ .comment) := by
  induction xs generalizing line index with
  | nil => rfl
  | cons x xs ih =>
    rw [tokens]
    by_cases hkind : x.kind = .comment
    · rw [uncommented, List.filter_cons_of_neg (by simp [hkind]),
        List.filter_cons_of_neg (by simp [hkind]), ← uncommented, ih]
      simp [hkind, TokenKind.isOperand]
    · rw [uncommented, List.filter_cons_of_pos (by simp [hkind]),
        List.filter_cons_of_pos (by simp [hkind]), ← uncommented, tokens, ih]

end Lexeme

theorem Assembly.definitions_uncommented (tokens : List Token) :
    definitions (tokens.filter (·.kind ≠ .comment)) = definitions tokens := by
  rw [definitions, definitions, List.filterMap_filter]
  congr 1
  funext t
  by_cases hkind : t.kind = .comment
  · simp [definition?, hkind]
  · simp [hkind]

theorem Token.operands_uncommented (tokens : List Token) :
    operands (tokens.filter (·.kind ≠ .comment)) = operands tokens := by
  rw [operands, operands, List.filter_filter]
  congr 1
  funext t
  cases hkind : t.kind <;> simp [TokenKind.isOperand]

/-- Assembly passes over comments. -/
theorem Program.ofTokens_uncommented (tokens : List Token) :
    ofTokens (tokens.filter (·.kind ≠ .comment)) = ofTokens tokens := by
  have hoperands := Token.operands_uncommented tokens
  rw [Token.operands, Token.operands] at hoperands
  rw [ofTokens, ofTokens, hoperands, Assembly.definitions_uncommented]

theorem Program.ofSource_eq_uncommented (source : String) :
    ofSource source =
      ofTokens (Lexeme.tokens 1 0 (Lexeme.uncommented (Lexeme.scan source.toList))) := by
  rw [Lexeme.tokens_uncommented, ofTokens_uncommented, ← lex_eq_tokens, ofSource]

/-- Comments do not change the program. Wherever a line feed stands in a text, the text with a comment
right before it is assembled to the same words, or fails with the same message and the same line in
it. -/
theorem Program.ofSource_insert_comment (a b c : String) (hfeed : '\n' ∉ c.toList)
    (hnul : '\x00' ∉ c.toList) :
    Program.ofSource (a ++ "#" ++ c ++ "\n" ++ b) = Program.ofSource (a ++ "\n" ++ b) := by
  have hbody : ∀ d ∈ c.toList, d ≠ '\n' ∧ d ≠ '\x00' :=
    fun d hd => ⟨ne_of_mem_of_not_mem hd hfeed, ne_of_mem_of_not_mem hd hnul⟩
  have hcomment : (a ++ "#" ++ c ++ "\n" ++ b).toList = a.toList ++ '#' :: c.toList ++ '\n' :: b.toList := by
    simp
  have hplain : (a ++ "\n" ++ b).toList = a.toList ++ '\n' :: b.toList := by simp
  rw [ofSource_eq_uncommented, ofSource_eq_uncommented, hcomment, hplain,
    Lexeme.uncommented_scan_comment _ _ hbody]

/-- A comment right behind a name, with an end of line of its own that does not count. -/
theorem Program.ofSource_insert_comment_return :
    '\n' ∉ "\rADD # y:".toList ∧ '\x00' ∉ "\rADD # y:".toList ∧
    Program.ofSource ("JMP x" ++ "#" ++ "\rADD # y:" ++ "\n" ++ "x: ADD") =
      .error (.notAssemblable 2 "ADD") := by
  have hfeed : '\n' ∉ "\rADD # y:".toList := by decide
  have hnul : '\x00' ∉ "\rADD # y:".toList := by decide
  have hplain : Program.ofSource ("JMP x" ++ "\n" ++ "x: ADD") = .error (.notAssemblable 2 "ADD") := by
    decide +kernel
  exact ⟨hfeed, hnul, (Program.ofSource_insert_comment "JMP x" "x: ADD" _ hfeed hnul).trans hplain⟩

end StackAssembly
