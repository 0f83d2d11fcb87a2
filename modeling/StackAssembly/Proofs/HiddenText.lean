import StackAssembly.Event
import StackAssembly.Proofs.AssemblyOutcome
import StackAssembly.Proofs.TwoEntryPoints

/-! What stands behind a NUL is hidden. Two lexers with the same tokens to come go on alike under any
calls, and no text behind a NUL has a part in the tokens to come. -/
namespace StackAssembly

namespace Lexeme

theorem visible_append_nul (cs rest : List Char) : visible (cs ++ '\x00' :: rest) = visible cs := by
  induction cs with
  | nil => rfl
  | cons c cs ih =>
    by_cases hc : c = '\x00'
    · subst hc
      rfl
    · have hread (rest : List Char) : visible (c :: rest) = c :: visible rest :=
        List.takeWhile_cons_of_pos (by simpa using hc)
      rw [List.cons_append, hread, hread, ih]

/-- The visible part of a text decides its lexemes. -/
theorem scan_eq_of_visible_eq {cs ds : List Char} (h : visible cs = visible ds) :
    scan cs = scan ds := by
  have hcut := cut_scan cs
  rw [h] at hcut
  exact hcut.scan_eq.symm.trans (cut_scan ds).scan_eq

theorem scan_append_nul (cs rest : List Char) : scan (cs ++ '\x00' :: rest) = scan cs :=
  scan_eq_of_visible_eq (visible_append_nul cs rest)

end Lexeme

theorem toList_append_nul (a b : String) : (a ++ "\x00" ++ b).toList = a.toList ++ '\x00' :: b.toList := by
  simp

theorem lex_append_nul (a b : String) : lex (a ++ "\x00" ++ b) = lex a := by
  rw [lex_eq_tokens, lex_eq_tokens, toList_append_nul, Lexeme.scan_append_nul]

namespace Lexer

/-- What can be asked of a lexer: a token in either way, or the line it stands at. -/
inductive Call where
  | pull (way : Pull)
  | line
  deriving DecidableEq, Repr

inductive Answer where
  | token (token? : Option Token)
  | line (number : Nat)
  deriving DecidableEq, Repr

/-- What is seen of a call: its answer, and what it logs. -/
structure Reply where
  answer : Answer
  event? : Option Event
  deriving DecidableEq, Repr

def call (l : Lexer) : Call → Reply × Lexer
  | .pull way => (⟨.token (l.pull way).1, (l.pull way).1.bind Token.event?⟩, (l.pull way).2)
  | .line => (⟨.line l.line, none⟩, l)

/-- A schedule of calls on one lexer. -/
def replies (l : Lexer) : List Call → List Reply
  | [] => []
  | c :: schedule => (l.call c).1 :: (l.call c).2.replies schedule

/-- The first token to come bears the line that the lexer stands at. -/
theorem line_head?_upcoming (l : Lexer) : l.upcoming.head?.map (·.line) = some l.line := by
  rw [upcoming]
  cases Lexeme.scan l.rest <;> rfl

/-- The two lexers have the same tokens to come, and have both finished or both not. -/
structure Alike (l m : Lexer) : Prop where
  upcoming : l.upcoming = m.upcoming
  finished : l.finished = m.finished

namespace Alike

variable {l m : Lexer}

theorem line (h : Alike l m) : l.line = m.line := by
  have hline := l.line_head?_upcoming
  rw [h.upcoming, m.line_head?_upcoming] at hline
  exact (Option.some.inj hline).symm

/-- A pull comes to the same on both, and leaves them alike. -/
theorem pull (h : Alike l m) (way : Pull) :
    (l.pull way).1 = (m.pull way).1 ∧ Alike (l.pull way).2 (m.pull way).2 := by
  have hl := pull_pulls l way
  have hm := pull_pulls m way
  generalize l.pull way = done at hl
  generalize m.pull way = other at hm
  -- Each of the two pulls is idle, gives a token or gives the end, and both do the same of these.
  cases hl with
  | idle hfinished =>
    cases hm with
    | idle => exact ⟨rfl, h⟩
    | token hway | ends hway => cases hfinished.symm.trans (h.finished.trans (hway rfl))
  | @token _ t after hway hkind hupcoming hafter =>
    cases hm with
    | idle hfinished => cases hfinished.symm.trans (h.finished.symm.trans (hway rfl))
    | token _ _ hother hfinished =>
      obtain ⟨rfl, htail⟩ := List.cons.inj (hupcoming.symm.trans (h.upcoming.trans hother))
      exact ⟨rfl, htail, hafter.trans (h.finished.trans hfinished.symm)⟩
    | ends _ hend hother =>
      obtain ⟨rfl, -⟩ := List.cons.inj (hupcoming.symm.trans (h.upcoming.trans hother))
      exact absurd hend hkind
  | @ends _ t after hway hkind hupcoming hafter _ hends =>
    cases hm with
    | idle hfinished => cases hfinished.symm.trans (h.finished.symm.trans (hway rfl))
    | token _ hnot hother =>
      obtain ⟨rfl, -⟩ := List.cons.inj (hupcoming.symm.trans (h.upcoming.trans hother))
      exact absurd hkind hnot
    | ends _ _ hother hothers _ hfinished =>
      obtain ⟨rfl, -⟩ := List.cons.inj (hupcoming.symm.trans (h.upcoming.trans hother))
      refine ⟨rfl, hafter.trans hothers.symm, Bool.eq_iff_iff.mpr ?_⟩
      rw [hends, hfinished, h.finished]

theorem call (h : Alike l m) (c : Call) :
    (l.call c).1 = (m.call c).1 ∧ Alike (l.call c).2 (m.call c).2 := by
  cases c with
  | pull way =>
    obtain ⟨htoken, hafter⟩ := h.pull way
    refine ⟨?_, hafter⟩
    rw [Lexer.call, Lexer.call, htoken]
  | line =>
    refine ⟨?_, h⟩
    rw [Lexer.call, Lexer.call, h.line]

/-- No schedule of calls can tell the two apart. -/
theorem replies (h : Alike l m) (schedule : List Call) : l.replies schedule = m.replies schedule := by
  induction schedule generalizing l m with
  | nil => rfl
  | cons c schedule ih =>
    obtain ⟨hreply, hafter⟩ := h.call c
    rw [Lexer.replies, Lexer.replies, hreply, ih hafter]

end Alike

theorem alike_append_nul (a b : String) : Alike (ofString (a ++ "\x00" ++ b)) (ofString a) where
  upcoming := (lex_eq_tokens _).symm.trans ((lex_append_nul a b).trans (lex_eq_tokens a))
  finished := rfl

/-- Nothing behind a NUL can be observed: whatever is asked of a lexer and in whatever order, it answers
and logs the same as one over the text before the NUL alone. So the two texts have the same tokens, and
assembly makes the same program of them or fails in the same way. -/
theorem nothing_seen_behind_nul (a b : String) :
    (∀ schedule : List Call,
      (ofString (a ++ "\x00" ++ b)).replies schedule = (ofString a).replies schedule) ∧
    lex (a ++ "\x00" ++ b) = lex a ∧
    Program.ofSource (a ++ "\x00" ++ b) = Program.ofSource a := by
  refine ⟨(alike_append_nul a b).replies, lex_append_nul a b, ?_⟩
  rw [Program.ofSource, lex_append_nul, Program.ofSource]

example : (ofString "\r-\x00-").replies [.line, .pull .next, .line, .pull .nextToken, .pull .next] =
    [⟨.line 1, none⟩, ⟨.token (some ⟨.endOfLine, "", 1, none⟩), none⟩, ⟨.line 2, none⟩,
      ⟨.token (some ⟨.illegal, "-", 2, some 0⟩), some (.illegalCharacter 2 0 '-')⟩,
      ⟨.token (some ⟨.endOfInput, "", 2, none⟩), none⟩] := by
  decide

end Lexer

end StackAssembly
