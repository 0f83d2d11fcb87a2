import StackAssembly.Proofs.AssemblyOutcome
import StackAssembly.Proofs.InstructionEffects

/-! Instruction boundaries: in a source whose operand tokens fall into whole instructions, execution
only ever stops at the beginning of one of them or at the end of the program. -/
namespace StackAssembly
open Token Assembly

/-- An instruction as it is written: the token of its opcode and the tokens of its operands. -/
structure Statement where
  head : Token
  op : Opcode
  arguments : List Token
  head_kind : head.kind = .instruction op
  length_arguments : arguments.length = op.arity

namespace Statement

def tokens (s : Statement) : List Token := s.head :: s.arguments

/-- The tokens from the front end between the opcode of a statement and one of its operands. -/
def Splits (statements : List Statement) (front : List Token) : Prop :=
  ∃ whole s rest given missing, statements = whole ++ s :: rest ∧
    s.arguments = given ++ missing ∧ missing ≠ [] ∧ front = whole.flatMap tokens ++ s.head :: given

/-- The operand tokens are those of whole statements. Arguments are integers that fit or names with
a definition, and names only where a jump goes; the first definition of a name stands inside no
statement. -/
structure WellFormed (all : List Token) (statements : List Statement) : Prop where
  split : operands all = statements.flatMap tokens
  argument : ∀ s ∈ statements, ∀ t ∈ s.arguments,
    t.kind = .int ∧ t.decimal ≤ Word.greatest ∨
      t.kind = .labelName ∧ ∃ u ∈ all, u.Defines t.literal
  jump : ∀ s ∈ statements, s.op ∈ [.jmp, .jmpt, .jmpf] → ∀ t ∈ s.arguments, t.kind = .labelName
  unsplit : ∀ s ∈ statements, ∀ t ∈ s.arguments, t.kind = .labelName →
    ∀ before, FirstDefined all before t.literal → ¬ Splits statements (operands before)

/-- A step of the program from here misreads no word, and the machine is where a statement begins or
at the end of the program. -/
structure Safe {σ : Type} [Sink σ] (p : Program) (statements : List Statement) (m : Machine σ) :
    Prop where
  known : ∀ a w, (m.step p).result ≠ .error (.unknownOpcode a w)
  complete : ∀ a, (m.step p).result ≠ .error (.missingOperand a)
  inRange : ∀ op ∈ [Opcode.jmp, .jmpt, .jmpf, .gload], p.get? m.ip = some op.word →
    ∀ a w, (m.step p).result ≠ .error (.addressOutOfRange a w)
  aligned : m.status = .running → (∃ s ∈ statements, s.head.index = some m.ip) ∨ m.ip = p.size

/-- A place where whole statements end. -/
def Boundary (statements : List Statement) (address : Nat) : Prop :=
  ∃ front back, statements = front ++ back ∧ address = (front.flatMap tokens).length

/-- Some of the operand tokens from the front are whole statements, or they split one. -/
private theorem whole_or_splits {statements : List Statement} {front back : List Token}
    (h : statements.flatMap tokens = front ++ back) :
    (∃ whole rest, statements = whole ++ rest ∧ front = whole.flatMap tokens) ∨
      Splits statements front := by
  induction statements generalizing front with
  | nil =>
    obtain ⟨rfl, -⟩ := List.append_eq_nil_iff.mp h.symm
    exact .inl ⟨[], [], rfl, rfl⟩
  | cons s statements ih =>
    cases front with
    | nil => exact .inl ⟨[], s :: statements, rfl, rfl⟩
    | cons t front =>
      rw [List.flatMap_cons, tokens, List.cons_append, List.cons_append] at h
      obtain ⟨rfl, htail⟩ := List.cons.inj h
      rcases List.append_eq_append_iff.mp htail with ⟨more, rfl, hmore⟩ | ⟨missing, hargs, -⟩
      · rcases ih hmore with ⟨whole, rest, rfl, rfl⟩ | ⟨whole, u, rest, given, missing, rfl, hu, hne, rfl⟩
        · exact .inl ⟨s :: whole, rest, rfl, by simp [tokens]⟩
        · exact .inr ⟨s :: whole, u, rest, given, missing, rfl, hu, hne, by simp [tokens]⟩
      · cases missing with
        | nil => exact .inl ⟨[s], statements, rfl, by simp [tokens, hargs]⟩
        | cons u missing => exact .inr ⟨[], s, statements, front, u :: missing, rfl, hargs, by simp, rfl⟩

theorem not_splits_whole (front back : List Statement) :
    ¬ Splits (front ++ back) (front.flatMap tokens) := by
  rintro ⟨whole, s, rest, given, missing, hsplit, hargs, hmissing, hfront⟩
  have hlength := congrArg List.length hfront
  have hpos := List.length_pos_of_ne_nil hmissing
  rcases List.append_eq_append_iff.mp hsplit with ⟨more, rfl, -⟩ | ⟨more, rfl, hmore⟩
  · simp only [List.flatMap_append, List.length_append, List.length_cons] at hlength
    omega
  · cases more with
    | nil => simp at hlength
    | cons u more =>
      obtain ⟨rfl, -⟩ := List.cons.inj hmore
      simp only [List.flatMap_append, List.flatMap_cons, tokens, hargs, List.length_append,
        List.length_cons] at hlength
      omega

theorem WellFormed.assemblable {all : List Token} {statements : List Statement}
    (h : WellFormed all statements) : ∀ t ∈ operands all, Assemblable all t := by
  intro t ht
  rw [h.split] at ht
  obtain ⟨s, hs, ht⟩ := List.mem_flatMap.mp ht
  rcases List.mem_cons.mp ht with rfl | ht
  · simp [Assemblable, s.head_kind]
  · rcases h.argument s hs t ht with ⟨hkind, hfit⟩ | ⟨hkind, hdefined⟩
    · simpa [Assemblable, hkind] using hfit
    · simpa [Assemblable, hkind] using hdefined

section Assembled

variable {source : String} {statements : List Statement} {p : Program}
  (hwf : WellFormed (lex source) statements) (hp : Program.ofSource source = .ok p)

include hwf hp

/-- The words of a statement stand where it does among the tokens. -/
private theorem get?_statement {front back : List Statement} {s : Statement}
    (hsplit : statements = front ++ s :: back) {j : Nat} {t : Token} (ht : s.tokens[j]? = some t) :
    ∃ w, p.get? ((front.flatMap tokens).length + j) = some w ∧ Denotes (lex source) t w := by
  have hall : (operands (lex source))[(front.flatMap tokens).length + j]? = some t := by
    rw [hwf.split, hsplit, List.flatMap_append, List.flatMap_cons,
      List.getElem?_append_right (Nat.le_add_right ..), Nat.add_sub_cancel_left]
    exact List.getElem?_append_left (List.getElem?_eq_some_iff.mp ht).1 ▸ ht
  rw [Program.get?_eq_toList]
  exact getElem?_of_forall₂ (denotes_of_ofSource_eq hp) hall

/-- At the beginning of a statement its own instruction is found, with the word of its argument. -/
private theorem fetch_statement {front back : List Statement} {s : Statement}
    (hsplit : statements = front ++ s :: back) :
    ∃ i, p.fetch (front.flatMap tokens).length = .instruction i ∧ i.opcode = s.op ∧
      ∀ w, i.operand? = some w → ∃ t ∈ s.arguments, Denotes (lex source) t w := by
  obtain ⟨w, hw, hdenotes⟩ := get?_statement hwf hp hsplit (j := 0) (t := s.head) rfl
  have hword : w = s.op.word := by simpa [Denotes, s.head_kind] using hdenotes
  subst hword
  have hnext (t : Token) (ht : s.arguments[0]? = some t) :=
    get?_statement hwf hp hsplit (j := 1) (t := t) ht
  have hfirst (harity : s.op.arity ≠ 0) : ∃ t, s.arguments[0]? = some t :=
    ⟨_, List.getElem?_eq_getElem (by have := s.length_arguments; omega)⟩
  cases hi : s.op.instruction? (p.get? ((front.flatMap tokens).length + 1)) with
  | none =>
    obtain ⟨harity, hnone⟩ := Instruction.instruction?_eq_none_iff.mp hi
    obtain ⟨t, ht⟩ := hfirst (by omega)
    obtain ⟨v, hv, -⟩ := hnext t ht
    rw [hnone] at hv
    cases hv
  | some i =>
    refine ⟨i, (Program.fetch_eq_instruction_iff hw).mpr hi, Instruction.opcode_of_instruction? hi, ?_⟩
    intro v hv
    rw [Instruction.operand?_of_instruction? hi] at hv
    split at hv
    · cases hv
    rename_i harity
    obtain ⟨t, ht⟩ := hfirst harity
    obtain ⟨u, hu, hdenotes⟩ := hnext t ht
    rw [hv] at hu
    cases hu
    exact ⟨t, List.mem_of_getElem? ht, hdenotes⟩

private theorem size_statements : p.size = (statements.flatMap tokens).length := by
  rw [← hwf.split, (denotes_of_ofSource_eq hp).length_eq]
  rfl

/-- At a boundary the program ends, or a statement begins and the next boundary is behind it. -/
private theorem fetch_boundary {address : Nat} (hb : Boundary statements address) :
    address = p.size ∨ ∃ s ∈ statements, s.head.index = some address ∧
      ∃ i, p.fetch address = .instruction i ∧ i.opcode = s.op ∧
        (∀ w, i.operand? = some w → ∃ t ∈ s.arguments, Denotes (lex source) t w) ∧
        Boundary statements (address + i.size) := by
  obtain ⟨front, back, hsplit, rfl⟩ := hb
  cases back with
  | nil =>
    rw [List.append_nil] at hsplit
    exact .inl (hsplit ▸ (size_statements hwf hp).symm)
  | cons s back =>
    obtain ⟨i, hfetch, hop, hoperand⟩ := fetch_statement hwf hp hsplit
    have htokens : operands (lex source) =
        front.flatMap tokens ++ s.head :: (s.arguments ++ back.flatMap tokens) := by
      rw [hwf.split, hsplit, List.flatMap_append, List.flatMap_cons]
      rfl
    have hbehind : Boundary statements ((front.flatMap tokens).length + i.size) := by
      refine ⟨front ++ [s], back, by simp [hsplit], ?_⟩
      rw [Instruction.size_eq_arity, hop, ← s.length_arguments, List.flatMap_append, List.length_append,
        List.flatMap_singleton, tokens, List.length_cons, Nat.add_comm 1]
    exact .inr ⟨s, by simp [hsplit], index_of_operands_eq htokens, i, hfetch, hop, hoperand, hbehind⟩

omit hp in
/-- The word of an argument is an address, and that of a name is a boundary. -/
private theorem address?_argument (hsource : source.length ≤ Word.greatest) {s : Statement} {t : Token}
    {w : Word} (hs : s ∈ statements) (ht : t ∈ s.arguments) (hw : Denotes (lex source) t w) :
    ∃ a, Word.address? w = some a ∧ (t.kind = .labelName → Boundary statements a) := by
  rcases hwf.argument s hs t ht with ⟨hkind, -⟩ | ⟨hkind, -⟩
  · have hvalue : w.toInt = t.decimal := by simpa [Denotes, hkind] using hw
    exact ⟨w.toInt.toNat, if_neg (by omega), by simp [hkind]⟩
  · obtain ⟨before, hfirst, rfl⟩ : ∃ before, FirstDefined (lex source) before t.literal ∧
        w = Int64.ofNat (operands before).length := by simpa [Denotes, hkind] using hw
    obtain ⟨u, after, hlex, -⟩ := id hfirst
    have hfront : operands (lex source) = operands before ++ operands (u :: after) := by
      rw [hlex, operands_append]
    have hvalue : (Int64.ofNat (operands before).length).toInt = (operands before).length := by
      have hle := length_operands_le source
      rw [hfront, List.length_append] at hle
      exact Word.toInt_ofNat (by omega)
    refine ⟨(operands before).length, ?_, fun _ => ?_⟩
    · rw [Word.address?, hvalue]
      exact if_neg (by omega)
    · rcases whole_or_splits (hwf.split.symm.trans hfront) with ⟨whole, rest, hall, hwhole⟩ | hsplits
      · exact ⟨whole, rest, hall, congrArg List.length hwhole⟩
      · exact absurd hsplits (hwf.unsplit s hs t ht hkind before hfirst)

variable {σ : Type} [Sink σ] {m : Machine σ}

/-- A step that starts at a boundary, if at all, halts the machine or executes a statement. -/
private theorem step_cases (hm : m.status = .running → Boundary statements m.ip) :
    ((m.step p).result = .ok .halted ∧ (m.step p).machine.status = .halted) ∨
      m.status = .running ∧ ∃ s ∈ statements, ∃ i, p.fetch m.ip = .instruction i ∧ i.opcode = s.op ∧
        (∀ w, i.operand? = some w → ∃ t ∈ s.arguments, Denotes (lex source) t w) ∧
        Boundary statements (m.ip + i.size) := by
  cases hrun : m.status with
  | halted =>
    rw [Machine.step_of_halted hrun]
    exact .inl ⟨rfl, hrun⟩
  | running =>
    rcases fetch_boundary hwf hp (hm hrun) with hend | ⟨s, hs, -, hinstruction⟩
    · rw [Machine.step_of_pastEnd hrun (Program.fetch_eq_pastEnd_iff.mpr hend.ge)]
      exact .inl ⟨rfl, rfl⟩
    · exact .inr ⟨rfl, s, hs, hinstruction⟩

variable (hsource : source.length ≤ Word.greatest)

include hsource

/-- A step from a boundary leads to a boundary, unless it halts. -/
private theorem step_boundary (hm : m.status = .running → Boundary statements m.ip) :
    (m.step p).machine.status = .running → Boundary statements (m.step p).machine.ip := by
  intro hnext
  rcases step_cases hwf hp hm with ⟨-, hhalted⟩ | ⟨hrun, s, hs, i, hfetch, hop, hoperand, hbehind⟩
  · cases hhalted.symm.trans hnext
  · rcases Machine.step_ip hrun hfetch with hip | ⟨target, htarget, haddress⟩
    · rw [hip]
      exact hbehind
    · obtain ⟨hw, hjump⟩ := Instruction.operand?_of_target? htarget
      obtain ⟨t, ht, hdenotes⟩ := hoperand target hw
      obtain ⟨a, ha, hboundary⟩ := address?_argument hwf hsource hs ht hdenotes
      rw [haddress] at ha
      cases ha
      exact hboundary (hwf.jump s hs (hop ▸ hjump) t ht)

/-- What can fail at a boundary: a missing word on the stack, the output, or an instruction that finds
its slot out of reach. -/
private theorem step_fault (hm : m.status = .running → Boundary statements m.ip) {fault : Fault}
    (h : (m.step p).result = .error fault) :
    fault = .stackUnderflow m.ip ∨ (∃ cause, fault = .outputFailed m.ip cause) ∨
      ∃ i w, fault = .addressOutOfRange m.ip w ∧ p.fetch m.ip = .instruction i ∧
        i.opcode ∈ [.load, .gstore, .store] := by
  rcases step_cases hwf hp hm with ⟨hok, -⟩ | ⟨hrun, s, hs, i, hfetch, -, hoperand, -⟩
  · cases hok.symm.trans h
  · refine (Machine.step_error hrun hfetch h).imp_right (Or.imp_right ?_)
    rintro ⟨w, rfl, hw, hcause⟩
    obtain ⟨t, ht, hdenotes⟩ := hoperand w hw
    obtain ⟨a, ha, -⟩ := address?_argument hwf hsource hs ht hdenotes
    have haddress : Word.address? w ≠ none := by simp [ha]
    exact ⟨i, w, rfl, hfetch, hcause.resolve_left haddress⟩

private theorem safe_of_boundary (hm : m.status = .running → Boundary statements m.ip) :
    Safe p statements m := by
  constructor
  · intro a w h
    rcases step_fault hwf hp hsource hm h with h | ⟨_, h⟩ | ⟨_, _, h, -⟩ <;> cases h
  · intro a h
    rcases step_fault hwf hp hsource hm h with h | ⟨_, h⟩ | ⟨_, _, h, -⟩ <;> cases h
  · intro op hop hword a w h
    rcases step_fault hwf hp hsource hm h with h | ⟨_, h⟩ | ⟨i, v, -, hfetch, hi⟩
    · cases h
    · cases h
    · rw [Instruction.opcode_of_instruction? ((Program.fetch_eq_instruction_iff hword).mp hfetch)] at hi
      have hdisjoint : ∀ op ∈ [Opcode.jmp, .jmpt, .jmpf, .gload], op ∉ [.load, .gstore, .store] := by
        decide
      exact hdisjoint op hop hi
  · intro hrun
    rcases fetch_boundary hwf hp (hm hrun) with hend | ⟨s, hs, hindex, -⟩
    · exact .inr hend
    · exact .inl ⟨s, hs, hindex⟩

end Assembled

/-- A source made of whole statements assembles, and its program never misreads a word: whatever the
sink and however many steps are made, opcodes are known and have their operands, jumps and loads from
the store find an address, and a running machine is where a statement begins or at the end. No text in
memory has more than 2^63 - 1 characters, so every position in it is a word. -/
theorem safe_of_wellFormed (source : String) (statements : List Statement)
    (hsource : source.length ≤ Word.greatest) (hwf : WellFormed (lex source) statements) :
    ∃ p, Program.ofSource source = .ok p ∧
      ∀ (σ : Type) [Sink σ] (sink : σ) (n : Nat), Safe p statements ((Machine.start sink).after p n) := by
  obtain ⟨p, hp⟩ := exists_ofSource_iff.mpr hwf.assemblable
  refine ⟨p, hp, fun σ _ sink n => safe_of_boundary hwf hp hsource ?_⟩
  apply Machine.after_keeps (P := fun m => m.status = .running → Boundary statements m.ip)
  · intro m hm
    exact step_boundary hwf hp hsource hm
  · intro _
    exact ⟨[], statements, rfl, rfl⟩

/-- A loop that waits for a variable to be set, with a jump forwards and one backwards. -/
def waiting : List Statement := [
  ⟨⟨.instruction .gload, "GLOAD", 1, some 0⟩, .gload, [⟨.int, "0", 1, some 1⟩], rfl, rfl⟩,
  ⟨⟨.instruction .jmpt, "JMPT", 1, some 2⟩, .jmpt, [⟨.labelName, "done", 1, some 3⟩], rfl, rfl⟩,
  ⟨⟨.instruction .jmp, "JMP", 1, some 4⟩, .jmp, [⟨.labelName, "wait", 1, some 5⟩], rfl, rfl⟩,
  ⟨⟨.instruction .halt, "HALT", 1, some 6⟩, .halt, [], rfl, rfl⟩]

private theorem lex_waiting : lex "wait: GLOAD 0 JMPT done JMP wait done: HALT" =
    ⟨.label, "wait:", 1, some 0⟩ :: (waiting.take 3).flatMap tokens ++
      ⟨.label, "done:", 1, some 6⟩ :: ((waiting.drop 3).flatMap tokens ++
        [⟨.endOfInput, "", 1, none⟩]) := by
  decide +kernel

private theorem wellFormed_waiting :
    WellFormed (lex "wait: GLOAD 0 JMPT done JMP wait done: HALT") waiting := by
  have hwait : FirstDefined (lex "wait: GLOAD 0 JMPT done JMP wait done: HALT") [] "wait" :=
    ⟨⟨.label, "wait:", 1, some 0⟩, _, lex_waiting, by decide, by decide⟩
  have hdone : FirstDefined (lex "wait: GLOAD 0 JMPT done JMP wait done: HALT")
      (⟨.label, "wait:", 1, some 0⟩ :: (waiting.take 3).flatMap tokens) "done" :=
    ⟨⟨.label, "done:", 1, some 6⟩, _, lex_waiting, by decide, by decide⟩
  have hnames : ∀ s ∈ waiting, ∀ t ∈ s.arguments, t.kind = .labelName →
      t.literal = "wait" ∨ t.literal = "done" := by decide
  refine ⟨by rw [lex_waiting]; decide, by rw [lex_waiting]; decide, by decide, ?_⟩
  intro s hs t ht hkind before hfirst
  rcases hnames s hs t ht hkind with hname | hname
  · rw [hname] at hfirst
    rw [hfirst.unique hwait]
    exact not_splits_whole [] waiting
  · rw [hname] at hfirst
    rw [hfirst.unique hdone]
    exact not_splits_whole (waiting.take 3) (waiting.drop 3)

private theorem ofSource_waiting :
    (Program.ofSource "wait: GLOAD 0 JMPT done JMP wait done: HALT").toOption.map Program.toList =
      some [10, 0, 8, 6, 7, 0, 15] := by
  decide +kernel

/-- The variable is zero, so that the loop is gone around twice in six steps: the conditional jump is
passed, and the other one taken. -/
theorem safe_waiting :
    "wait: GLOAD 0 JMPT done JMP wait done: HALT".length ≤ Word.greatest ∧
    WellFormed (lex "wait: GLOAD 0 JMPT done JMP wait done: HALT") waiting ∧
    ∃ p, Program.ofSource "wait: GLOAD 0 JMPT done JMP wait done: HALT" = .ok p ∧
      p.toList = [10, 0, 8, 6, 7, 0, 15] ∧
      (∀ (σ : Type) [Sink σ] (sink : σ) (n : Nat), Safe p waiting ((Machine.start sink).after p n)) ∧
      ((List.range 7).map fun n => ((Machine.start ({} : Transcript)).after p n).ip) =
        [0, 2, 4, 0, 2, 4, 0] := by
  refine ⟨by decide, wellFormed_waiting, ?_⟩
  obtain ⟨p, hp, hsafe⟩ := safe_of_wellFormed _ waiting (by decide) wellFormed_waiting
  have hwords : p.toList = [10, 0, 8, 6, 7, 0, 15] := by
    have hassembled := ofSource_waiting
    rw [hp] at hassembled
    exact Option.some_inj.mp hassembled
  refine ⟨p, hp, hwords, hsafe, ?_⟩
  obtain rfl : p = .ofList [10, 0, 8, 6, 7, 0, 15] := by rw [← hwords, Program.ofList_toList]
  decide

end Statement

end StackAssembly
