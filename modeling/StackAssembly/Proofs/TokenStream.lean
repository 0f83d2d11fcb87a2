import Mathlib.Data.List.Forall2
import StackAssembly.Proofs.LongestMatch
import StackAssembly.Token.Lexer

/-! The token stream of a text: its lexemes in order, with the two counters that turn them into
tokens. -/
namespace StackAssembly

/-- An operand takes a position and a label points at one. -/
def TokenKind.numbering (kind : TokenKind) : Numbering :=
  if kind.isOperand then .takes else if kind = .label then .points else .unnumbered

theorem index?_numbering (kind : TokenKind) (index : Nat) :
    kind.numbering.index? index = if kind.isOperand || kind == .label then some index else none := by
  cases kind <;> rfl

theorem next_numbering (kind : TokenKind) (index : Nat) :
    kind.numbering.next index = if kind.isOperand then index + 1 else index := by
  cases kind <;> rfl

namespace Lexeme

/-- Each way of reading numbers its lexemes as their kind asks for: it takes a position if and only if
what it reads is an operand. -/
theorem numbering_of_reading? {cs : List Char} {r : Reading} (h : reading? cs = some r) :
    r.numbering = r.lexeme.kind.numbering := by
  cases cs with
  | nil => cases h
  | cons c cs =>
    simp only [reading?] at h
    split at h
    · cases h
    split at h
    · cases h
      rfl
    split at h
    · cases h
      rfl
    split at h
    · cases h
      rw [run, TokenKind.numbering, isOperand_instructionKind, if_pos rfl]
    split at h
    · cases h
      unfold name
      split <;> rfl
    split at h
    · cases h
      rfl
    · cases h
      rfl

/-- The token of a lexeme on a line, with so many operands before it. -/
def token (x : Lexeme) (line index : Nat) : Token where
  kind := x.kind
  literal := if x.kind = .endOfLine then "" else String.ofList x.text
  line := line
  index := if x.kind.isOperand || x.kind == .label then some index else none

/-- The tokens of lexemes, where counting goes on from a line and a position. -/
def tokens (line index : Nat) : List Lexeme → List Token
  | [] => [⟨.endOfInput, "", line, none⟩]
  | x :: xs =>
    x.token line index :: tokens (if x.kind = .endOfLine then line + 1 else line)
      (if x.kind.isOperand then index + 1 else index) xs

@[simp] theorem kind_token (x : Lexeme) (line index : Nat) : (x.token line index).kind = x.kind := rfl

/-- The counters written out: the token of a lexeme bears the number of line ends and of operands
before it. -/
theorem tokens_eq_mapIdx (line index : Nat) (xs : List Lexeme) :
    tokens line index xs =
      xs.mapIdx (fun i x => x.token (line + (xs.take i).countP (·.kind = .endOfLine))
        (index + (xs.take i).countP (·.kind.isOperand))) ++
      [⟨.endOfInput, "", line + xs.countP (·.kind = .endOfLine), none⟩] := by
  induction xs generalizing line index with
  | nil => rfl
  | cons x xs ih =>
    have count (p : Lexeme → Bool) (n : Nat) (ys : List Lexeme) :
        (if p x then n + 1 else n) + ys.countP p = n + (x :: ys).countP p := by
      rw [List.countP_cons]
      split <;> omega
    have hline := count (·.kind = .endOfLine) line
    have hindex := count (·.kind.isOperand) index
    simp only [decide_eq_true_eq] at hline
    rw [tokens, ih, List.mapIdx_cons, List.cons_append]
    simp only [hline, hindex, List.take_succ_cons]
    rfl

/-- Behind lexemes counting goes on from the line of the end of input that would follow them, and
from the number of their operands. -/
theorem tokens_append (line index : Nat) (xs ys : List Lexeme) :
    ∃ shown last, tokens line index xs = shown ++ [⟨.endOfInput, "", last, none⟩] ∧
      tokens line index (xs ++ ys) =
        shown ++ tokens last (index + xs.countP (·.kind.isOperand)) ys := by
  induction xs generalizing line index with
  | nil => exact ⟨[], line, rfl, rfl⟩
  | cons x xs ih =>
    obtain ⟨shown, last, htokens, happend⟩ := ih (if x.kind = .endOfLine then line + 1 else line)
      (if x.kind.isOperand then index + 1 else index)
    refine ⟨x.token line index :: shown, last, by rw [tokens, htokens]; rfl, ?_⟩
    have hcount : (if x.kind.isOperand then index + 1 else index) + xs.countP (·.kind.isOperand) =
        index + (x :: xs).countP (·.kind.isOperand) := by
      rw [List.countP_cons]
      split <;> omega
    rw [List.cons_append, tokens, happend, hcount]
    rfl

/-- The position a token bears is the number of operands before it. -/
theorem index_of_tokens_eq {line index : Nat} {xs : List Lexeme} {before after : List Token}
    {t : Token} (h : tokens line index xs = before ++ t :: after) :
    t.index = if t.kind.isOperand || t.kind == .label
      then some (index + before.countP (·.kind.isOperand)) else none := by
  induction xs generalizing line index before with
  | nil =>
    cases before with
    | nil =>
      cases h
      rfl
    | cons u before => simp [tokens] at h
  | cons x xs ih =>
    rw [tokens] at h
    cases before with
    | nil =>
      cases h
      rfl
    | cons u before =>
      obtain ⟨rfl, htail⟩ := List.cons.inj h
      rw [ih htail, List.countP_cons, kind_token]
      congr 2
      split <;> omega

end Lexeme

namespace Lexer

private theorem drain_of_finished {l : Lexer} (h : l.finished = true) : l.drain.1 = [] := by
  rw [drain]
  split
  · rfl
  · rename_i hn
    simp [next, h] at hn

private theorem drain_of_unfinished {l : Lexer} (h : l.finished = false) :
    l.drain.1 = l.nextToken.1 ::
      ({ l.nextToken.2 with finished := l.nextToken.1.kind == .endOfInput } : Lexer).drain.1 := by
  have hnext : l.next = (some l.nextToken.1,
      { l.nextToken.2 with finished := l.nextToken.1.kind == .endOfInput }) := by
    simp [next, h]
  rw [drain]
  split
  · rename_i hn
    rw [hnext] at hn
    cases hn
  · rename_i hn
    rw [hnext] at hn
    cases hn
    rfl

theorem nextToken_of_none {l : Lexer} (h : Lexeme.read? (l.rest.dropWhile Lexeme.isBlank) = none) :
    l.nextToken = (⟨.endOfInput, "", l.line, none⟩, { l with rest := l.pending }) := by
  rw [nextToken, pending, Option.map_eq_none_iff.mp h]

/-- No lexeme is an end of input, so neither is the token made of it. -/
theorem nextToken_of_some {l : Lexer} {x : Lexeme} {rest : List Char}
    (h : Lexeme.read? (l.rest.dropWhile Lexeme.isBlank) = some (x, rest)) :
    l.nextToken = (x.token l.line l.index,
      { l with
        rest
        line := if x.kind = .endOfLine then l.line + 1 else l.line
        index := if x.kind.isOperand then l.index + 1 else l.index }) ∧ x.kind ≠ .endOfInput := by
  refine ⟨?_, (Lexeme.fits_of_read? Lexeme.head?_dropWhile_isBlank h).1.kind_ne_endOfInput⟩
  obtain ⟨numbering, hreading⟩ := Lexeme.exists_reading? h
  obtain rfl : numbering = x.kind.numbering := Lexeme.numbering_of_reading? hreading
  rw [nextToken, pending, hreading]
  simp only [Reading.token, Lexer.past, index?_numbering, next_numbering, Lexeme.token]

/-- A lexer that has not yet given the end of input gives the tokens of what is left to read. -/
theorem drain_eq_tokens {l : Lexer} (h : l.finished = false) :
    l.drain.1 = Lexeme.tokens l.line l.index (Lexeme.scan l.rest) := by
  generalize hcs : l.rest = cs
  fun_induction Lexeme.scan cs generalizing l with
  | case1 cs hread =>
    rw [drain_of_unfinished h, nextToken_of_none (hcs ▸ hread), drain_of_finished rfl, Lexeme.tokens]
  | case2 cs x rest hread ih =>
    obtain ⟨htoken, hkind⟩ := nextToken_of_some (hcs ▸ hread)
    rw [drain_of_unfinished h, htoken, Lexeme.tokens, Lexeme.kind_token, beq_false_of_ne hkind,
      ih rfl rfl]

end Lexer

theorem lex_eq_tokens (source : String) :
    lex source = Lexeme.tokens 1 0 (Lexeme.scan source.toList) :=
  Lexer.drain_eq_tokens rfl

theorem index_of_lex_eq {source : String} {before after : List Token} {t : Token}
    (h : lex source = before ++ t :: after) :
    t.index = if t.kind.isOperand || t.kind == .label
      then some (before.countP (·.kind.isOperand)) else none := by
  rw [lex_eq_tokens] at h
  simpa using Lexeme.index_of_tokens_eq h

/-- The token shows the lexeme: its kind, its text as the literal and, for the definition of a
label, the name without the colon. The end of a line has an empty literal. -/
structure Token.Shows (t : Token) (x : Lexeme) : Prop where
  kind : t.kind = x.kind
  literal : t.literal = if x.kind = .endOfLine then "" else String.ofList x.text
  name : x.kind = .label → ∃ name, x.text = name ++ [':'] ∧ t.label? = some (String.ofList name)

namespace Lexeme

theorem IsName.dropWhile_colon {name : List Char} (h : IsName name) :
    (name ++ [':']).reverse.dropWhile (· == ':') = name.reverse := by
  rw [List.reverse_append, List.reverse_singleton, List.singleton_append,
    List.dropWhile_cons_of_pos (by rfl)]
  cases hrev : name.reverse with
  | nil => rfl
  | cons c cs =>
    have hmem : c ∈ name := List.mem_reverse.mp (by rw [hrev]; exact List.mem_cons_self)
    have hc : ¬ (c == ':') := by
      intro hcolon
      obtain rfl := beq_iff_eq.mp hcolon
      exact absurd (h.chars _ hmem) (by decide)
    exact List.dropWhile_cons_of_neg hc

theorem Fits.shows_token {x : Lexeme} (h : x.Fits) (line index : Nat) :
    (x.token line index).Shows x := by
  refine ⟨rfl, rfl, fun hlabel => ?_⟩
  obtain ⟨kind, text⟩ := x
  obtain rfl : kind = .label := hlabel
  obtain ⟨name, hname, rfl⟩ := h
  refine ⟨name, rfl, ?_⟩
  simp only [Token.label?, token, reduceCtorEq, if_false, String.toList_ofList, hname.dropWhile_colon,
    List.reverse_reverse]

theorem Cut.fits {cs : List Char} {xs : List Lexeme} (h : Cut cs xs) : ∀ x ∈ xs, x.Fits := by
  induction h with
  | blanks _ => simp
  | lexeme _ hfits _ _ ih =>
    intro y hy
    rcases List.mem_cons.mp hy with rfl | hy
    · exact hfits
    · exact ih y hy

/-- Every lexeme is shown by one token, in order, and the end of input comes last. -/
theorem tokens_show {xs : List Lexeme} (h : ∀ x ∈ xs, x.Fits) (line index : Nat) :
    ∃ shown last, tokens line index xs = shown ++ [⟨.endOfInput, "", last, none⟩] ∧
      List.Forall₂ Token.Shows shown xs ∧ ∀ t ∈ shown, ∃ x ∈ xs, t.Shows x := by
  induction xs generalizing line index with
  | nil => exact ⟨[], line, rfl, .nil, by simp⟩
  | cons x xs ih =>
    obtain ⟨hx, hxs⟩ := List.forall_mem_cons.mp h
    obtain ⟨shown, last, htokens, hshown, hmem⟩ := ih hxs _ _
    have hhead := hx.shows_token line index
    refine ⟨_ :: shown, last, by rw [tokens, htokens]; rfl, .cons hhead hshown, ?_⟩
    intro t ht
    rcases List.mem_cons.mp ht with rfl | ht
    · exact ⟨x, List.mem_cons_self, hhead⟩
    · obtain ⟨y, hy, hshows⟩ := hmem t ht
      exact ⟨y, List.mem_cons_of_mem x hy, hshows⟩

end Lexeme

/-- Apart from the end of input, a token shows a lexeme of the form of its kind. -/
theorem shows_of_mem_lex {source : String} {t : Token} (h : t ∈ lex source)
    (hkind : t.kind ≠ .endOfInput) : ∃ x : Lexeme, x.Fits ∧ t.Shows x := by
  have hfits := (Lexeme.cut_scan source.toList).fits
  obtain ⟨shown, line, htokens, -, hmem⟩ := Lexeme.tokens_show hfits 1 0
  rw [lex_eq_tokens, htokens] at h
  rcases List.mem_append.mp h with h | h
  · obtain ⟨x, hx, hshows⟩ := hmem t h
    exact ⟨x, hfits x hx, hshows⟩
  · obtain rfl := List.mem_singleton.mp h
    exact absurd rfl hkind

/-- Nothing of a text is lost, doubled or invented. Up to the first NUL it is cut into blanks and
lexemes, each of the form of its kind and as long as it can be, and the tokens show these lexemes in
order; the end of input stands behind them and nowhere else. There is no other such cut. -/
theorem lex_shows_only_cut (source : String) :
    ∃ (shown : List Token) (xs : List Lexeme) (line : Nat),
      lex source = shown ++ [⟨.endOfInput, "", line, none⟩] ∧
      (∀ t ∈ shown, t.kind ≠ .endOfInput) ∧
      List.Forall₂ Token.Shows shown xs ∧
      Lexeme.Cut (source.toList.takeWhile (· ≠ '\x00')) xs ∧
      ∀ ys, Lexeme.Cut (source.toList.takeWhile (· ≠ '\x00')) ys → ys = xs := by
  have hcut := Lexeme.cut_scan source.toList
  obtain ⟨shown, line, htokens, hshown, hmem⟩ := Lexeme.tokens_show hcut.fits 1 0
  refine ⟨shown, _, line, (lex_eq_tokens source).trans htokens, ?_, hshown, hcut, ?_⟩
  · intro t ht
    obtain ⟨x, hx, hshows⟩ := hmem t ht
    rw [hshows.kind]
    exact (hcut.fits x hx).kind_ne_endOfInput
  · intro ys hys
    exact hys.scan_eq.symm.trans hcut.scan_eq

end StackAssembly
