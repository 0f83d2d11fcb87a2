import Mathlib.Data.List.DropRight
import StackAssembly.Proofs.TokenStream

/-! A lexer read in two ways. Calls of `next` and of `nextToken`, in any order, take their tokens from one
stream; only `next` ever has nothing more to give. -/
namespace StackAssembly

/-- The tokens, and behind them the last one over and over. -/
def Token.endless (tokens : List Token) (i : Nat) : Option Token := tokens[i]?.or tokens.getLast?

theorem Token.endless_singleton (t : Token) (i : Nat) : endless [t] i = some t := by
  cases i <;> rfl

theorem Token.endless_cons_succ (t : Token) {tokens : List Token} (h : tokens ≠ []) (i : Nat) :
    endless (t :: tokens) (i + 1) = endless tokens i := by
  obtain ⟨u, rest, rfl⟩ := List.exists_cons_of_ne_nil h
  rw [endless, endless, List.getElem?_cons_succ, List.getLast?_cons_cons]

theorem Lexeme.length_tokens (line index : Nat) (xs : List Lexeme) :
    (tokens line index xs).length = xs.length + 1 := by
  induction xs generalizing line index with
  | nil => rfl
  | cons x xs ih => rw [tokens, List.length_cons, ih, List.length_cons]

theorem length_lex_le (source : String) : (lex source).length ≤ source.length + 1 := by
  rw [lex_eq_tokens, Lexeme.length_tokens, ← String.length_toList]
  exact Nat.succ_le_succ (Lexeme.length_scan_le source.toList)

namespace Lexer

/-- The two ways to ask a lexer for a token. -/
inductive Pull where
  | next | nextToken
  deriving DecidableEq, Repr

def pull (l : Lexer) : Pull → Option Token × Lexer
  | .next => l.next
  | .nextToken => (some l.nextToken.1, l.nextToken.2)

/-- What is seen of a pull: its answer, and the line that the lexer stands at afterwards. -/
structure Pulled where
  pull : Pull
  token? : Option Token
  line : Nat
  deriving DecidableEq, Repr

/-- The answer is the end of input. -/
def Pulled.GivesEnd (r : Pulled) : Prop := ∃ t, r.token? = some t ∧ t.kind = .endOfInput

/-- A schedule of pulls on one lexer. -/
def pulls (l : Lexer) : List Pull → List Pulled
  | [] => []
  | way :: schedule =>
    ⟨way, (l.pull way).1, (l.pull way).2.line⟩ :: (l.pull way).2.pulls schedule

theorem map_pull_pulls (l : Lexer) (schedule : List Pull) :
    (l.pulls schedule).map (·.pull) = schedule := by
  induction schedule generalizing l with
  | nil => rfl
  | cons way schedule ih => rw [pulls, List.map_cons, ih]

/-- The tokens still to come up to the end of input, whether or not it has been handed out. -/
def upcoming (l : Lexer) : List Token := Lexeme.tokens l.line l.index (Lexeme.scan l.rest)

theorem upcoming_ne_nil (l : Lexer) : l.upcoming ≠ [] := by
  apply List.ne_nil_of_length_pos
  rw [upcoming, Lexeme.length_tokens]
  exact Nat.succ_pos _

/-- What a pull comes to. Once `next` has given the end of input it gives nothing and changes nothing.
Every other pull takes a token from those to come, except that the end of input stays among them; only
`next` takes notice of it. -/
inductive Pulls (l : Lexer) : Pull → Option Token × Lexer → Prop where
  | idle (hfinished : l.finished = true) : Pulls l .next (none, l)
  | token {way : Pull} {t : Token} {after : Lexer} (hway : way = .next → l.finished = false)
    (hkind : t.kind ≠ .endOfInput) (hupcoming : l.upcoming = t :: after.upcoming)
    (hfinished : after.finished = l.finished) : Pulls l way (some t, after)
  | ends {way : Pull} {t : Token} {after : Lexer} (hway : way = .next → l.finished = false)
    (hkind : t.kind = .endOfInput) (hupcoming : l.upcoming = [t]) (hafter : after.upcoming = [t])
    (hline : after.line = l.line) (hfinished : after.finished = true ↔ l.finished = true ∨ way = .next) :
    Pulls l way (some t, after)

/-- `nextToken` takes a token from those to come, or leaves the end of input where it is. -/
private theorem upcoming_nextToken (l : Lexer) :
    l.nextToken.1.kind = .endOfInput ∧ l.upcoming = [l.nextToken.1] ∧
        l.nextToken.2.upcoming = [l.nextToken.1] ∧ l.nextToken.2.line = l.line ∨
      l.nextToken.1.kind ≠ .endOfInput ∧ l.upcoming = l.nextToken.1 :: l.nextToken.2.upcoming := by
  cases hread : Lexeme.read? (l.rest.dropWhile Lexeme.isBlank) with
  | none =>
    have hpending : Lexeme.read? (l.pending.dropWhile Lexeme.isBlank) = none := by
      rw [pending, List.dropWhile_idempotent]
      exact hread
    rw [nextToken_of_none hread, upcoming, upcoming, Lexeme.scan_of_none hread,
      Lexeme.scan_of_none hpending]
    exact .inl ⟨rfl, rfl, rfl, rfl⟩
  | some found =>
    obtain ⟨x, rest⟩ := found
    obtain ⟨htoken, hkind⟩ := nextToken_of_some hread
    rw [htoken, upcoming, upcoming, Lexeme.scan_of_some hread]
    exact .inr ⟨hkind, rfl⟩

theorem pull_pulls (l : Lexer) (way : Pull) : Pulls l way (l.pull way) := by
  have hgives {way : Pull} {finished : Bool} (hway : way = .next → l.finished = false)
      (hfinished : finished = true ↔
        l.finished = true ∨ way = .next ∧ l.nextToken.1.kind = .endOfInput) :
      Pulls l way (some l.nextToken.1, { l.nextToken.2 with finished }) := by
    rcases l.upcoming_nextToken with ⟨hkind, hupcoming, hafter, hline⟩ | ⟨hkind, hupcoming⟩
    · exact .ends hway hkind hupcoming hafter hline (by simpa [hkind] using hfinished)
    · exact .token hway hkind hupcoming (by simpa [hkind, ← Bool.eq_iff_iff] using hfinished)
  cases way with
  | next =>
    rw [pull, next]
    split
    · rename_i hfinished
      exact .idle hfinished
    · rename_i hunfinished
      exact hgives (fun _ => eq_false_of_ne_true hunfinished) (by simp [hunfinished])
  | nextToken =>
    have hpull : Pulls l .nextToken
        (some l.nextToken.1, { l.nextToken.2 with finished := l.finished }) :=
      hgives (by simp) (by simp)
    rw [← nextToken_finished l] at hpull
    exact hpull

/-- The first record of a schedule is that of the first pull, and the others go on from there. -/
theorem pulls_eq_cons {l : Lexer} {schedule : List Pull} {r : Pulled} {rest : List Pulled}
    (h : l.pulls schedule = r :: rest) :
    ∃ after others, schedule = r.pull :: others ∧ l.pull r.pull = (r.token?, after) ∧
      Pulls l r.pull (r.token?, after) ∧ r.line = after.line ∧ after.pulls others = rest := by
  cases schedule with
  | nil => cases h
  | cons way others =>
    obtain ⟨rfl, htail⟩ := List.cons.inj h
    exact ⟨_, others, rfl, rfl, pull_pulls l way, rfl, htail⟩

/-- The tokens given are the stream from its beginning. -/
theorem endless_of_pulls {l : Lexer} {schedule : List Pull} {i : Nat} {t : Token}
    (h : ((l.pulls schedule).filterMap (·.token?))[i]? = some t) :
    Token.endless l.upcoming i = some t := by
  induction schedule generalizing l i with
  | nil => cases h
  | cons way schedule ih =>
    have hpulls := pull_pulls l way
    rw [pulls] at h
    generalize l.pull way = done at h hpulls
    cases hpulls with
    | idle => exact ih h
    | @token _ _ after _ _ hupcoming =>
      rw [hupcoming]
      cases i with
      | zero => exact h
      | succ i =>
        rw [Token.endless_cons_succ _ after.upcoming_ne_nil]
        exact ih h
    | @ends _ _ after _ _ hupcoming hafter =>
      rw [hupcoming, Token.endless_singleton]
      cases i with
      | zero => exact h
      | succ i =>
        have hnext := ih (l := after) (i := i) h
        rwa [hafter, Token.endless_singleton] at hnext

variable {l : Lexer} {schedule : List Pull} {before rest : List Pulled} {r : Pulled}

/-- A pull gives nothing exactly if it is a call of `next` and an earlier one has given the end. -/
theorem token?_eq_none_iff (h : l.pulls schedule = before ++ r :: rest) :
    r.token? = none ↔ r.pull = .next ∧
      (l.finished = true ∨ ∃ q ∈ before, q.pull = .next ∧ q.GivesEnd) := by
  induction before generalizing l schedule with
  | nil =>
    obtain ⟨after, others, -, -, hpulls, -⟩ := pulls_eq_cons h
    obtain ⟨way, token, line⟩ := r
    cases hpulls with
    | idle hfinished => simp [hfinished]
    | token hway | ends hway => simpa using hway
  | cons q before ih =>
    obtain ⟨after, others, -, -, hpulls, -, htail⟩ := pulls_eq_cons h
    rw [ih htail]
    obtain ⟨way, token, line⟩ := q
    cases hpulls with
    | idle hfinished => simp [hfinished]
    | token _ hkind _ hfinished => simp [hfinished, Pulled.GivesEnd, hkind]
    | ends _ hkind _ _ _ hfinished => simp [hfinished, Pulled.GivesEnd, hkind, or_assoc]

/-- A pull that gives nothing may as well not have been made. -/
theorem pulls_without (h : l.pulls schedule = before ++ r :: rest) (hr : r.token? = none) :
    l.pulls ((before ++ rest).map (·.pull)) = before ++ rest := by
  induction before generalizing l schedule with
  | nil =>
    obtain ⟨after, others, -, -, hpulls, -, rfl⟩ := pulls_eq_cons h
    obtain ⟨way, token, line⟩ := r
    obtain rfl : token = none := hr
    cases hpulls with
    | idle => rw [List.nil_append, map_pull_pulls]
  | cons q before ih =>
    obtain ⟨after, others, -, hpull, -, hline, htail⟩ := pulls_eq_cons h
    rw [List.cons_append, List.map_cons, pulls, hpull, ih htail, ← hline]

/-- At the end of input the line stays. -/
theorem line_of_upcoming_eq_singleton {t : Token} (hl : l.upcoming = [t]) (hr : r ∈ l.pulls schedule) :
    r.line = l.line := by
  induction schedule generalizing l with
  | nil => cases hr
  | cons way schedule ih =>
    have hpulls := pull_pulls l way
    rw [pulls] at hr
    generalize l.pull way = done at hr hpulls
    have hafter : done.2.upcoming = [t] ∧ done.2.line = l.line := by
      cases hpulls with
      | idle => exact ⟨hl, rfl⟩
      | @token _ _ after _ _ hupcoming =>
        rw [hl] at hupcoming
        exact absurd (List.cons.inj hupcoming).2.symm after.upcoming_ne_nil
      | ends _ _ hupcoming hafter hline => exact ⟨hafter.trans (hupcoming.symm.trans hl), hline⟩
    rcases List.mem_cons.mp hr with rfl | hr
    · exact hafter.2
    · rw [ih hafter.1 hr, hafter.2]

theorem line_of_givesEnd {q : Pulled} (h : l.pulls schedule = before ++ r :: rest) (hq : q ∈ before)
    (hend : q.GivesEnd) : r.line = q.line := by
  induction before generalizing l schedule with
  | nil => cases hq
  | cons first before ih =>
    obtain ⟨after, others, -, -, hpulls, hline, htail⟩ := pulls_eq_cons h
    rcases List.mem_cons.mp hq with rfl | hq
    · obtain ⟨way, token, line⟩ := q
      obtain ⟨t, rfl, hkind⟩ := hend
      cases hpulls with
      | token _ hother => exact absurd hkind hother
      | ends _ _ _ hafter =>
        have hr : r ∈ after.pulls others := by
          rw [htail]
          exact List.mem_append_right before List.mem_cons_self
        rw [hline]
        exact line_of_upcoming_eq_singleton hafter hr
    · exact ih htail hq

/-- As many pulls as there are tokens to come include one that gives the end of input. -/
theorem exists_givesEnd (hl : l.finished = false) (h : l.upcoming.length ≤ schedule.length) :
    ∃ q ∈ (l.pulls schedule).take l.upcoming.length, q.GivesEnd := by
  induction schedule generalizing l with
  | nil => exact absurd (List.length_eq_zero_iff.mp (Nat.le_zero.mp h)) l.upcoming_ne_nil
  | cons way schedule ih =>
    have hpulls := pull_pulls l way
    rw [pulls]
    generalize l.pull way = done at hpulls
    cases hpulls with
    | idle hfinished => cases hl.symm.trans hfinished
    | token _ _ hupcoming hfinished =>
      rw [hupcoming] at h ⊢
      obtain ⟨q, hq, hend⟩ := ih (hfinished.trans hl) (Nat.le_of_succ_le_succ h)
      exact ⟨q, List.mem_cons_of_mem _ hq, hend⟩
    | @ends _ t _ _ hkind hupcoming =>
      rw [hupcoming]
      exact ⟨_, List.mem_cons_self, t, rfl, hkind⟩

/-- However calls of `next` and `nextToken` are mixed on one lexer, they read one stream: the tokens of the
text, and its end of input over and over. The tokens given are those of the stream in order. Nothing is
given exactly by a call of `next` after one that gave the end, and the other calls show the same without
it. Once the end has been given the line stays. A text has at most one token more than characters, and
that many calls meet the end. -/
theorem pulls_read_one_stream (source : String) (schedule : List Pull) :
    ((ofString source).pulls schedule).map (·.pull) = schedule ∧
    (∀ i t, (((ofString source).pulls schedule).filterMap (·.token?))[i]? = some t →
      Token.endless (lex source) i = some t) ∧
    (∀ before r rest, (ofString source).pulls schedule = before ++ r :: rest →
      (r.token? = none ↔ r.pull = .next ∧ ∃ q ∈ before, q.pull = .next ∧ q.GivesEnd) ∧
      (r.token? = none →
        (ofString source).pulls ((before ++ rest).map (·.pull)) = before ++ rest) ∧
      ∀ q ∈ before, q.GivesEnd → r.line = q.line) ∧
    (lex source).length ≤ source.length + 1 ∧
    ((lex source).length ≤ schedule.length →
      ∃ q ∈ ((ofString source).pulls schedule).take (lex source).length, q.GivesEnd) := by
  have hupcoming : (ofString source).upcoming = lex source := (lex_eq_tokens source).symm
  refine ⟨map_pull_pulls _ schedule, fun i t h => ?_, fun before r rest h => ⟨?_, ?_, ?_⟩,
    length_lex_le source, ?_⟩
  · rw [← hupcoming]
    exact endless_of_pulls h
  · rw [token?_eq_none_iff h]
    simp [ofString]
  · exact pulls_without h
  · intro q hq hend
    exact line_of_givesEnd h hq hend
  · rw [← hupcoming]
    exact exists_givesEnd rfl

example : ((ofString "7\n").pulls [.next, .nextToken, .nextToken, .next, .next, .nextToken]).map
    (fun r => (r.token?.map (·.kind), r.line)) = [(some .int, 1), (some .endOfLine, 2),
      (some .endOfInput, 2), (some .endOfInput, 2), (none, 2), (some .endOfInput, 2)] := by
  decide

end Lexer

end StackAssembly
