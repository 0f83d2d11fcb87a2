import StackAssembly.Proofs.ExpressionCode
import StackAssembly.Proofs.LineByLine
import StackAssembly.Proofs.StepAndRun

/-! The countdown: a source with a loop, a jump out of it and a variable, followed from its text to what it
prints, for every number that it can start from. -/
namespace StackAssembly.Countdown
open Token Assembly

/-- The source behind the constant that is counted down from. -/
def loopText : String :=
  "        GSTORE 0\n" ++
  "loop:   GLOAD 0\n" ++
  "        JMPF done\n" ++
  "        GLOAD 0\n" ++
  "        PRINT\n" ++
  "        ICONST 1\n" ++
  "        GLOAD 0\n" ++
  "        ISUB\n" ++
  "        GSTORE 0\n" ++
  "        JMP loop\n" ++
  "done:   HALT\n"

/-- The beginning of the source, with the constant, before the rest of it. -/
def opening (n : Nat) (rest : String) : String :=
  "# print 3, 2, 1\n" ++ ("        ICONST " ++ n.repr ++ ("\n" ++ rest))

def source (n : Nat) : String := opening n loopText

/-- The variable that counts, and what becomes of it in one turn of the loop. -/
def counter : Expr := .var 0 (Nat.zero_le _)

def lowered : Expr := .binary .sub counter (.const 1)

/-- The words behind the constant. The loop begins at address 4 and is left for address 20. -/
def loopWords : List Word :=
  [Opcode.gstore.word, 0] ++ counter.code ++ [Opcode.jmpf.word, 20] ++ counter.code ++
    [Opcode.print.word] ++ lowered.code ++ [Opcode.gstore.word, 0, Opcode.jmp.word, 4, Opcode.halt.word]

def program (n : Nat) : Program := .ofList (Opcode.iconst.word :: Int64.ofNat n :: loopWords)

/-- The tokens of the source up to the constant, and of the rest. -/
def firstTokens (n : Nat) : List Token := [
  ⟨.comment, "# print 3, 2, 1", 1, none⟩, ⟨.endOfLine, "", 1, none⟩,
  ⟨.instruction .iconst, "ICONST", 2, some 0⟩, ⟨.int, n.repr, 2, some 1⟩, ⟨.endOfLine, "", 2, none⟩]

def loopTokens : List Token := Lexeme.tokens 3 2 (Lexeme.scan loopText.toList)

theorem fits_digits (n : Nat) : Lexeme.Fits ⟨.int, Nat.toDigits 10 n⟩ :=
  (Numeral.digits?_eq_some_iff.mp (Numeral.digits?_toDigits n)).1

theorem toList_opening (n : Nat) (rest : String) : (opening n rest).toList =
    "# print 3, 2, 1".toList ++ ('\n' :: ("        ".toList ++
      ("ICONST".toList ++ (' ' :: (Nat.toDigits 10 n ++ ('\n' :: rest.toList)))))) := by
  have hfirst : "# print 3, 2, 1\n".toList = "# print 3, 2, 1".toList ++ ['\n'] := by decide
  have hsecond : "        ICONST ".toList = "        ".toList ++ ("ICONST".toList ++ [' ']) := by decide
  have hfeed : "\n".toList = ['\n'] := rfl
  unfold opening
  simp only [String.toList_append, hfirst, hsecond, hfeed, Nat.toList_repr, List.append_assoc,
    List.cons_append, List.nil_append]

/-- The number is the only part of the source that is not fixed, and a line feed ends it. -/
theorem scan_opening (n : Nat) (rest : String) : Lexeme.scan (opening n rest).toList =
    ⟨.comment, "# print 3, 2, 1".toList⟩ :: ⟨.endOfLine, ['\n']⟩ ::
      ⟨.instruction .iconst, "ICONST".toList⟩ :: ⟨.int, Nat.toDigits 10 n⟩ :: ⟨.endOfLine, ['\n']⟩ ::
        Lexeme.scan rest.toList := by
  have hcomment : Lexeme.Fits ⟨.comment, "# print 3, 2, 1".toList⟩ :=
    ⟨" print 3, 2, 1".toList, rfl, by simp⟩
  have hop : Lexeme.Fits ⟨.instruction .iconst, "ICONST".toList⟩ := rfl
  have hfeed (cs : List Char) : Lexeme.scan ('\n' :: cs) = ⟨.endOfLine, ['\n']⟩ :: Lexeme.scan cs :=
    Lexeme.scan_append_of_fits (x := ⟨.endOfLine, ['\n']⟩) (.inl rfl) (fun _ _ => id)
  rw [toList_opening, Lexeme.scan_append_of_fits hcomment (by simp [TokenKind.Absorbs]), hfeed,
    Lexeme.scan_append_blanks (by simp [Lexeme.isBlank]),
    Lexeme.scan_append_of_fits hop (by simp [TokenKind.Absorbs]), Lexeme.scan_cons_blank rfl,
    Lexeme.scan_append_of_fits (fits_digits n) (by simp [TokenKind.Absorbs]), hfeed]

theorem lex_opening (n : Nat) (rest : String) :
    lex (opening n rest) = firstTokens n ++ Lexeme.tokens 3 2 (Lexeme.scan rest.toList) := by
  have hnumber : String.ofList (Nat.toDigits 10 n) = n.repr := by
    rw [← Nat.toList_repr, String.ofList_toList]
  rw [lex_eq_tokens, scan_opening, firstTokens, ← hnumber]
  rfl

theorem lex_source (n : Nat) : lex (source n) = firstTokens n ++ loopTokens := lex_opening n loopText

/-- Behind the constant both labels are defined, and with them every operand has its word. -/
theorem loopTokens_assemble : definitions loopTokens = [("loop", some 4), ("done", some 20)] ∧
    (operands loopTokens).mapM (word [("loop", some 4), ("done", some 20)]) = .ok loopWords := by
  decide +kernel

theorem definitions_source (n : Nat) :
    definitions (lex (source n)) = [("loop", some 4), ("done", some 20)] := by
  have hfirst : definitions (firstTokens n) = [] := rfl
  rw [lex_source, definitions, List.filterMap_append, ← definitions, ← definitions, hfirst, List.nil_append,
    loopTokens_assemble.1]

theorem operands_source (n : Nat) : operands (lex (source n)) =
    ⟨.instruction .iconst, "ICONST", 2, some 0⟩ :: ⟨.int, n.repr, 2, some 1⟩ :: operands loopTokens := by
  have hfirst : operands (firstTokens n) =
    [⟨.instruction .iconst, "ICONST", 2, some 0⟩, ⟨.int, n.repr, 2, some 1⟩] := rfl
  rw [lex_source, operands_append, hfirst, List.cons_append, List.cons_append, List.nil_append]

theorem ofWord_ofNat {n : Nat} (hn : n ≤ Word.greatest) : Numeral.ofWord (Int64.ofNat n) = n.repr := by
  unfold Numeral.ofWord
  rw [Word.toInt_ofNat hn]
  rfl

theorem int?_number {n : Nat} (hn : n ≤ Word.greatest) :
    (⟨.int, n.repr, 2, some 1⟩ : Token).int? = some (Int64.ofNat n) := by
  change Numeral.word? n.repr = _
  have hspells := Numeral.word?_eq_some_iff.mpr (Numeral.spells_ofWord (Int64.ofNat n))
  rwa [String.ofList_toList, ofWord_ofNat hn] at hspells

/-- The source assembles, and the names of the labels become the addresses 4 and 20. -/
theorem ofSource_source {n : Nat} (hn : n ≤ Word.greatest) :
    Program.ofSource (source n) = .ok (program n) := by
  rw [ofSource_eq_mapM, definitions_source, operands_source, List.mapM_cons, List.mapM_cons,
    loopTokens_assemble.2]
  simp only [word, int?_number hn]
  rfl

/-- The machine on its way through the program, with the variable at `k`. -/
def state (ip : Nat) (stack : List Word) (k : Nat) (text : String) : Machine Transcript :=
  { ip, stack := .ofList stack, store := ⟨#[Int64.ofNat k]⟩, sink := ⟨text⟩ }

section Loop
open Machine

variable {n k : Nat} {text : String}

theorem reaches_counter (before rest : List Word)
    (hp : (program n).toList = before ++ counter.code ++ rest) :
    Reaches (program n) (state before.length [] k text) 1
      (state (before.length + 2) [Int64.ofNat k] k text) := by
  obtain ⟨v, hv, hreaches⟩ := counter.reaches_code (m := state before.length [] k text) hp rfl rfl
  obtain rfl : v = Int64.ofNat k := Int64.toInt_inj.mp hv
  exact hreaches

/-- Taking one from a number above zero does not wrap. -/
theorem reaches_lowered (before rest : List Word)
    (hp : (program n).toList = before ++ lowered.code ++ rest) (hk : k + 1 ≤ Word.greatest) :
    Reaches (program n) (state before.length [] (k + 1) text) 3
      (state (before.length + 5) [Int64.ofNat k] (k + 1) text) := by
  obtain ⟨v, hv, hreaches⟩ := lowered.reaches_code (m := state before.length [] (k + 1) text) hp rfl rfl
  have hvalue : v.toInt = Word.wrap ((Int64.ofNat (k + 1)).toInt - 1) := hv
  have hlow : ((k + 1 : Nat) : Int) - 1 = (Int64.ofNat k).toInt := by
    rw [Word.toInt_ofNat (Nat.le_of_succ_le hk)]
    omega
  rw [Word.toInt_ofNat hk, hlow, Word.wrap_toInt] at hvalue
  obtain rfl : v = Int64.ofNat k := Int64.toInt_inj.mp hvalue
  exact hreaches

theorem ofNat_succ_ne_zero (hk : k + 1 ≤ Word.greatest) : Int64.ofNat (k + 1) ≠ 0 := by
  intro hzero
  have hint : ((k + 1 : Nat) : Int) = 0 := (Word.toInt_ofNat hk).symm.trans (congrArg Int64.toInt hzero)
  omega

/-- The first half of a turn: a variable above zero keeps the loop going and is printed. -/
theorem reaches_print (n : Nat) (hk : k + 1 ≤ Word.greatest) (text : String) :
    Reaches (program n) (state 4 [] (k + 1) text) 4
      (state 11 [] (k + 1) (text ++ ((k + 1).repr ++ "\n"))) := by
  have htested : Reaches (program n) (state 4 [] (k + 1) text) 1
      (state 6 [Int64.ofNat (k + 1)] (k + 1) text) :=
    reaches_counter ((program n).toList.take 4) _ rfl
  have hgoes : (Int64.ofNat (k + 1) != 0) ≠ false := by simpa using ofNat_succ_ne_zero hk
  have hpassed : Reaches (program n) (state 6 [Int64.ofNat (k + 1)] (k + 1) text) 1
      (state 8 [] (k + 1) text) :=
    reaches_of_executes rfl rfl (.passed rfl hgoes) rfl
  have hloaded : Reaches (program n) (state 8 [] (k + 1) text) 1
      (state 10 [Int64.ofNat (k + 1)] (k + 1) text) :=
    reaches_counter ((program n).toList.take 8) _ rfl
  have hline : Sink.printLine (⟨text⟩ : Transcript) (Numeral.ofWord (Int64.ofNat (k + 1))) =
      (.ok (), ⟨text ++ ((k + 1).repr ++ "\n")⟩) := by
    rw [ofWord_ofNat hk]
    rfl
  have hprinted : Reaches (program n) (state 10 [Int64.ofNat (k + 1)] (k + 1) text) 1
      (state 11 [] (k + 1) (text ++ ((k + 1).repr ++ "\n"))) :=
    reaches_of_executes rfl rfl (.printed rfl hline) rfl
  exact ((htested.trans hpassed).trans hloaded).trans hprinted

/-- The second half: one is taken from the variable, and the loop begins again. -/
theorem reaches_lower (n : Nat) (hk : k + 1 ≤ Word.greatest) (text : String) :
    Reaches (program n) (state 11 [] (k + 1) text) 5 (state 4 [] k text) := by
  have hlowered : Reaches (program n) (state 11 [] (k + 1) text) 3
      (state 16 [Int64.ofNat k] (k + 1) text) :=
    reaches_lowered ((program n).toList.take 11) _ rfl hk
  have hstored : Reaches (program n) (state 16 [Int64.ofNat k] (k + 1) text) 1 (state 18 [] k text) :=
    reaches_of_executes rfl rfl (.stored (k := 0) rfl rfl rfl rfl) rfl
  have hback : Reaches (program n) (state 18 [] k text) 1 (state 4 [] k text) :=
    reaches_of_executes rfl rfl (.jump rfl) rfl
  exact (hlowered.trans hstored).trans hback

/-- The lines from a number down to 1. -/
def lines (n : Nat) : String := String.join ((List.range n).map fun k => (n - k).repr ++ "\n")

theorem lines_succ (k : Nat) : lines (k + 1) = (k + 1).repr ++ "\n" ++ lines k := by
  simp [lines, List.range_succ_eq_map, Function.comp_def, String.join_cons]

/-- Turn after turn the variable comes down to zero, and nothing is left on the stack. -/
theorem reaches_turns (n : Nat) (hk : k ≤ Word.greatest) (text : String) :
    Reaches (program n) (state 4 [] k text) (9 * k) (state 4 [] 0 (text ++ lines k)) := by
  induction k generalizing text with
  | zero =>
    have hnone : text ++ lines 0 = text := String.append_empty
    rw [hnone]
    exact ⟨fun j hj => absurd hj (Nat.not_lt_zero j), rfl⟩
  | succ k ih =>
    have hturn := (reaches_print n hk text).trans (reaches_lower n hk _)
    have hturns := hturn.trans (ih (Nat.le_of_succ_le hk) _)
    rwa [String.append_assoc, ← lines_succ, Nat.add_comm _ (9 * k), ← Nat.mul_succ] at hturns

theorem reaches_loop (n : Nat) : Reaches (program n) (start {}) 2 (state 4 [] n "") := by
  have hconst : Reaches (program n) (start ({} : Transcript)) 1
      { start {} with ip := 2, stack := .ofList [Int64.ofNat n] } :=
    reaches_of_executes rfl rfl .const rfl
  exact hconst.trans (reaches_of_executes rfl rfl (.stored (k := 0) rfl rfl rfl rfl) rfl)

theorem reaches_done (n : Nat) (text : String) :
    Reaches (program n) (state 4 [] 0 text) 2 (state 20 [] 0 text) := by
  have htested : Reaches (program n) (state 4 [] 0 text) 1 (state 6 [0] 0 text) :=
    reaches_counter ((program n).toList.take 4) _ rfl
  exact htested.trans (reaches_of_executes rfl rfl (.taken rfl rfl rfl) rfl)

/-- The whole way to the last instruction. -/
theorem reaches_halt (hn : n ≤ Word.greatest) :
    Reaches (program n) (start {}) (9 * n + 4) (state 20 [] 0 (lines n)) := by
  have hall := ((reaches_loop n).trans (reaches_turns n hn "")).trans (reaches_done n _)
  rwa [String.empty_append, Nat.add_right_comm, Nat.add_comm _ (9 * n)] at hall

end Loop

/-- The countdown works from every number that is a word. Its source assembles, and a run that may make
at least nine steps for each number and five more ends without a fault. By then the numbers from the first
down to 1 are printed, each on a line of its own and none if the first is 0; the stack is empty, and the
only variable is 0. -/
theorem counts_down (n : Nat) (hn : n ≤ Word.greatest) :
    ∃ p, Program.ofSource (source n) = .ok p ∧
      ∀ (keep : Event → Bool) (limit : Nat), 9 * n + 5 ≤ limit →
        (p.run keep limit).verdict? = some (.ok ()) ∧
        (p.run keep limit).machine.sink.text = lines n ∧
        (p.run keep limit).machine.stack.toList = [] ∧
        (p.run keep limit).machine.store.toList = [0] := by
  refine ⟨program n, ofSource_source hn, fun keep limit hlimit => ?_⟩
  have hreaches := reaches_halt hn
  have hhalts : (state 20 [] 0 (lines n)).step (program n) = _ :=
    (Machine.Steps.executed rfl rfl .halt).step_eq
  have hstops : Machine.StopsAt (program n) (.start ({} : Transcript)) (9 * n + 4) := by
    refine ⟨hreaches.steps, ?_⟩
    rw [hreaches.machine, hhalts]
    simp
  obtain ⟨hverdict, hmade⟩ := Machine.run_of_stopsAt keep hstops hlimit
  have hmachine := hmade.machine
  rw [hreaches.machine, hhalts] at hverdict
  rw [Machine.after_succ, hreaches.machine, hhalts] at hmachine
  have hrun : (program n).run keep limit = (Machine.start {}).run (program n) keep limit := rfl
  rw [hrun, hmachine]
  exact ⟨hverdict, rfl, rfl, rfl⟩

/-- The countdown from 3. -/
theorem counts_down_three :
    ∃ p, Program.ofSource ("# print 3, 2, 1\n" ++
      "        ICONST 3\n" ++
      "        GSTORE 0\n" ++
      "loop:   GLOAD 0\n" ++
      "        JMPF done\n" ++
      "        GLOAD 0\n" ++
      "        PRINT\n" ++
      "        ICONST 1\n" ++
      "        GLOAD 0\n" ++
      "        ISUB\n" ++
      "        GSTORE 0\n" ++
      "        JMP loop\n" ++
      "done:   HALT\n") = .ok p ∧
      (p.run (fun _ => true) 32).verdict? = some (.ok ()) ∧
      (p.run (fun _ => true) 32).machine.sink.text = "3\n2\n1\n" := by
  obtain ⟨p, hsource, hrun⟩ := counts_down 3 (by decide)
  obtain ⟨hverdict, htext, -⟩ := hrun (fun _ => true) 32 (by decide)
  exact ⟨p, hsource, hverdict, htext⟩

end StackAssembly.Countdown
