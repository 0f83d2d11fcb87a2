import StackAssembly.Proofs.AssemblyOutcome

/-! Lexing line by line. A line feed cuts a text in two: nothing but the count of lines and the count
of operands goes over from the first part to the second. -/
namespace StackAssembly

/-- The token as it stands behind so many lines and so many operands more. -/
def Token.moved (lines operands : Nat) (t : Token) : Token :=
  { t with line := t.line + lines, index := t.index.map (· + operands) }

namespace Lexeme

/-- Whatever the text before a line feed ends in, it is cut as if nothing followed. -/
theorem Cut.scan_append_lineFeed {cs : List Char} {xs : List Lexeme} (h : Cut cs xs)
    (rest : List Char) : scan (cs ++ '\n' :: rest) = xs ++ ⟨.endOfLine, ['\n']⟩ :: scan rest := by
  induction h with
  | blanks hgap =>
    rw [scan_append_blanks hgap]
    exact scan_append_of_fits (x := ⟨.endOfLine, ['\n']⟩) (.inl rfl) fun _ _ => id
  | @lexeme _ behind x _ hgap hfits hstop _ ih =>
    have hstops : ∀ c ∈ (behind ++ '\n' :: rest).head?, ¬ x.kind.Absorbs c := by
      cases behind with
      | nil =>
        rintro c ⟨⟩
        exact x.kind.not_absorbs_lineFeed
      | cons d behind => exact hstop
    rw [List.append_assoc, List.append_assoc, scan_append_blanks hgap,
      scan_append_of_fits hfits hstops, ih]
    rfl

theorem token_moved (x : Lexeme) (lines operands line index : Nat) :
    x.token (line + lines) (index + operands) = (x.token line index).moved lines operands := by
  simp only [token, Token.moved, Token.mk.injEq, true_and]
  split <;> rfl

/-- Counting from further on moves every token by as much. -/
theorem tokens_moved (lines operands line index : Nat) (xs : List Lexeme) :
    tokens (line + lines) (index + operands) xs =
      (tokens line index xs).map (Token.moved lines operands) := by
  induction xs generalizing line index with
  | nil => rfl
  | cons x xs ih =>
    have hline : (if x.kind = .endOfLine then line + lines + 1 else line + lines) =
        (if x.kind = .endOfLine then line + 1 else line) + lines := by
      split <;> omega
    have hindex : (if x.kind.isOperand then index + operands + 1 else index + operands) =
        (if x.kind.isOperand then index + 1 else index) + operands := by
      split <;> omega
    rw [tokens, tokens, List.map_cons, token_moved, hline, hindex, ih]

theorem length_operands_tokens (line index : Nat) (xs : List Lexeme) :
    (Token.operands (tokens line index xs)).length = xs.countP (·.kind.isOperand) := by
  rw [Token.operands, ← List.countP_eq_length_filter]
  induction xs generalizing line index with
  | nil => rfl
  | cons x xs ih => rw [tokens, List.countP_cons, List.countP_cons, ih, kind_token]

end Lexeme

/-- Lexing is a homomorphism over lines. For every text without a NUL and every other text, the tokens
of the two with a line feed between them are those of the first without the end of input, the end of
its last line, and those of the second with their lines and positions moved by what the first has of
each. -/
theorem lex_append_line (a b : String) (ha : '\x00' ∉ a.toList) :
    ∃ shown last, lex a = shown ++ [⟨.endOfInput, "", last, none⟩] ∧
      lex (a ++ "\n" ++ b) = shown ++ ⟨.endOfLine, "", last, none⟩ ::
        (lex b).map (Token.moved last (Token.operands (lex a)).length) := by
  have hvisible : Lexeme.visible a.toList = a.toList := by
    rw [Lexeme.visible, List.takeWhile_eq_self_iff]
    intro c hc
    exact decide_eq_true (ne_of_mem_of_not_mem hc ha)
  have hcut := Lexeme.cut_scan a.toList
  rw [hvisible] at hcut
  have hscan : Lexeme.scan (a ++ "\n" ++ b).toList =
      Lexeme.scan a.toList ++ ⟨.endOfLine, ['\n']⟩ :: Lexeme.scan b.toList := by
    rw [String.toList_append, String.toList_append, List.append_assoc]
    exact hcut.scan_append_lineFeed b.toList
  obtain ⟨shown, last, htokens, happend⟩ := Lexeme.tokens_append 1 0 (Lexeme.scan a.toList)
    (⟨.endOfLine, ['\n']⟩ :: Lexeme.scan b.toList)
  refine ⟨shown, last, (lex_eq_tokens a).trans htokens, ?_⟩
  rw [lex_eq_tokens, lex_eq_tokens a, lex_eq_tokens b, hscan, happend, Lexeme.length_operands_tokens,
    ← Lexeme.tokens_moved, Lexeme.tokens, Nat.add_comm 1 last]
  rfl

/-- A name without a colon and an open comment before the line feed, a colon of its own behind it. -/
theorem lex_append_line_open_ends :
    '\x00' ∉ "JMP ab #\r".toList ∧
    lex ("JMP ab #\r" ++ "\n" ++ ":b: 7X") = [
      ⟨.instruction .jmp, "JMP", 1, some 0⟩, ⟨.labelName, "ab", 1, some 1⟩, ⟨.comment, "#\r", 1, none⟩,
      ⟨.endOfLine, "", 1, none⟩, ⟨.illegal, ":", 2, some 2⟩, ⟨.label, "b:", 2, some 3⟩,
      ⟨.int, "7", 2, some 3⟩, ⟨.unknownInstruction, "X", 2, some 4⟩, ⟨.endOfInput, "", 2, none⟩] := by
  have ha : '\x00' ∉ "JMP ab #\r".toList := by decide
  have hfirst : lex "JMP ab #\r" = [⟨.instruction .jmp, "JMP", 1, some 0⟩,
      ⟨.labelName, "ab", 1, some 1⟩, ⟨.comment, "#\r", 1, none⟩] ++ [⟨.endOfInput, "", 1, none⟩] := by
    decide +kernel
  have hsecond : lex ":b: 7X" = [⟨.illegal, ":", 1, some 0⟩, ⟨.label, "b:", 1, some 1⟩,
      ⟨.int, "7", 1, some 1⟩, ⟨.unknownInstruction, "X", 1, some 2⟩, ⟨.endOfInput, "", 1, none⟩] := by
    decide +kernel
  obtain ⟨shown, last, hlex, happend⟩ := lex_append_line "JMP ab #\r" ":b: 7X" ha
  obtain ⟨rfl, hlast⟩ := List.append_inj' (hfirst.symm.trans hlex) rfl
  cases hlast
  refine ⟨ha, happend.trans ?_⟩
  rw [hfirst, hsecond]
  rfl

end StackAssembly
