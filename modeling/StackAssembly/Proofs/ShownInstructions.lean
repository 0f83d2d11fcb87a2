import StackAssembly.Proofs.InstructionEffects
import StackAssembly.Proofs.LosslessDisassembly

/-! The disassembly shows what the machine executes. Going through a program by the table of arities
and executing it meet the same instructions, as long as no jump leads between two lines. -/
namespace StackAssembly

/-- The line for what is found at an address; nothing is shown past the end. -/
def Fetched.shown? : Fetched → Option Entry
  | pastEnd => none
  | unknown word => some (.raw word)
  | truncated op => some (.missingOperand op)
  | instruction i =>
    match i.operand? with
    | none => some (.bare i.opcode)
    | some operand => some (.withOperand i.opcode operand)

/-- The line of an instruction shows as many words as the machine takes for it. -/
theorem Fetched.length_words_of_shown? {i : Instruction} {entry : Entry}
    (h : (instruction i).shown? = some entry) : entry.words.length = i.size := by
  simp only [shown?] at h
  rw [Instruction.size]
  cases hoperand : i.operand? with
  | none =>
    rw [hoperand] at h
    cases h
    rfl
  | some operand =>
    rw [hoperand] at h
    cases h
    rfl

namespace Entry

private theorem mnemonic_inj {op op' : Opcode} (h : op.mnemonic.toList = op'.mnemonic.toList) :
    op = op' := by
  have hname := congrArg Opcode.ofMnemonic? (String.toList_inj.mp h)
  rw [Opcode.ofMnemonic?_mnemonic, Opcode.ofMnemonic?_mnemonic] at hname
  exact Option.some.inj hname

private theorem ofWord_inj {w w' : Word} (h : (Numeral.ofWord w).toList = (Numeral.ofWord w').toList) :
    w = w' := by
  have hw := Numeral.word?_eq_some_iff.mpr (Numeral.spells_ofWord w)
  rw [h, Numeral.word?_eq_some_iff.mpr (Numeral.spells_ofWord w')] at hw
  exact (Option.some.inj hw).symm

private theorem ofWord_ne_mark (w : Word) : (Numeral.ofWord w).toList ≠ "?".toList := by
  intro h
  have hchars := (Numeral.spells_ofWord w).chars.2
  rw [h] at hchars
  exact absurd (hchars '?' (by decide)) (by decide)

private theorem mnemonic_ne_mark (op : Opcode) : op.mnemonic.toList ≠ ".word".toList := by
  cases op <;> decide

/-- What a line shows can be read off its fields. -/
theorem fields_injective : Function.Injective fields := by
  intro e e' h
  cases e <;> cases e' <;> simp only [fields, List.cons.injEq, and_true, reduceCtorEq, and_false] at h
  case raw.raw w w' => rw [ofWord_inj h.2]
  case raw.withOperand => exact absurd h.1.symm (mnemonic_ne_mark _)
  case raw.missingOperand => exact absurd h.1.symm (mnemonic_ne_mark _)
  case bare.bare => rw [mnemonic_inj h]
  case withOperand.raw => exact absurd h.1 (mnemonic_ne_mark _)
  case withOperand.withOperand => rw [mnemonic_inj h.1, ofWord_inj h.2]
  case withOperand.missingOperand => exact absurd h.2 (ofWord_ne_mark _)
  case missingOperand.raw => exact absurd h.1 (mnemonic_ne_mark _)
  case missingOperand.withOperand => exact absurd h.2.symm (ofWord_ne_mark _)
  case missingOperand.missingOperand => rw [mnemonic_inj h]

end Entry

/-- A line can be read off its text. -/
theorem Line.content_injective : Function.Injective Line.content := by
  intro l l' h
  have hfields : l.fields = l'.fields := by rw [← l.splitOn_content, h, l'.splitOn_content]
  obtain ⟨haddress, hentry⟩ := List.cons.inj hfields
  have hdigits := Numeral.digits?_padded 4 l'.address
  rw [← haddress, Numeral.digits?_padded] at hdigits
  exact congrArg₂ Line.mk (Option.some.inj hdigits) (Entry.fields_injective hentry)

namespace Disassembly

/-- One of the lines of the text is the given one. -/
def Shows (text : String) (l : Line) : Prop := l.content ∈ text.toList.splitOn '\n'

/-- The address stands in front of a line of the text. -/
def Lists (text : String) (address : Nat) : Prop := ∃ entry, Shows text ⟨address, entry⟩

theorem shows_disassembly_iff {p : Program} {l : Line} : Shows p.disassembly l ↔ l ∈ p.lines := by
  have hne : l.content ≠ [] := by
    intro hnil
    have hfields := l.splitOn_content
    rw [hnil] at hfields
    have hlength := congrArg List.length hfields
    cases hentry : l.entry <;> simp [Line.fields, Entry.fields, hentry] at hlength
  rw [Shows, p.toList_disassembly, splitOn_lines p.lineFeed_not_mem_lines, List.mem_append,
    List.mem_singleton, or_iff_left hne, List.mem_map_of_injective Line.content_injective]

/-- Every line is the first one of the words that are left at its address. -/
theorem exists_lines_eq_cons {address : Nat} {words : List Word} {l : Line}
    (h : l ∈ lines address words) : ∃ before left tail, words = before ++ left ∧
      l.address = address + before.length ∧ lines l.address left = l :: tail ∧
      tail ⊆ lines address words := by
  -- A line behind the first one comes from the rest of the words, some words further on.
  have hlater {start : Nat} {rest : List Word} {first : Line} (front : List Word)
      (hrest : ∃ before left tail, rest = before ++ left ∧
        l.address = start + front.length + before.length ∧ lines l.address left = l :: tail ∧
        tail ⊆ lines (start + front.length) rest) :
      ∃ before left tail, front ++ rest = before ++ left ∧ l.address = start + before.length ∧
        lines l.address left = l :: tail ∧ tail ⊆ first :: lines (start + front.length) rest := by
    obtain ⟨before, left, tail, rfl, haddress, hlines, htail⟩ := hrest
    refine ⟨front ++ before, left, tail, by simp, ?_, hlines, List.subset_cons_of_subset _ htail⟩
    rw [haddress, List.length_append, Nat.add_assoc]
  fun_induction lines address words with
  | case1 => cases h
  | case2 address word rest hop ih =>
    rcases List.mem_cons.mp h with rfl | h
    · exact ⟨[], word :: rest, lines (address + 1) rest, rfl, rfl, by simp [lines, hop],
        List.subset_cons_self ..⟩
    · exact hlater [word] (ih h)
  | case3 address word rest op hop harity ih =>
    rcases List.mem_cons.mp h with rfl | h
    · exact ⟨[], word :: rest, lines (address + 1) rest, rfl, rfl, by simp [lines, hop, harity],
        List.subset_cons_self ..⟩
    · exact hlater [word] (ih h)
  | case4 address word op hop harity =>
    rw [List.mem_singleton] at h
    subst h
    exact ⟨[], [word], [], rfl, rfl, by simp [lines, hop, harity], List.nil_subset _⟩
  | case5 address word op hop harity operand rest ih =>
    rcases List.mem_cons.mp h with rfl | h
    · exact ⟨[], word :: operand :: rest, lines (address + 2) rest, rfl, rfl,
        by simp [lines, hop, harity], List.subset_cons_self ..⟩
    · exact hlater [word, operand] (ih h)

/-- The first line shows the words from the front, and behind them come the lines of the rest. -/
theorem lines_eq_cons {address : Nat} {words : List Word} {l : Line} {tail : List Line}
    (h : lines address words = l :: tail) : ∃ rest, words = l.entry.words ++ rest ∧
      tail = lines (address + l.entry.words.length) rest := by
  revert h
  fun_cases lines address words with
  | case1 =>
    intro h
    cases h
  | case2 word rest hop =>
    rintro ⟨⟩
    exact ⟨rest, rfl, rfl⟩
  | case3 word rest op hop harity =>
    rintro ⟨⟩
    exact ⟨rest, by rw [← Opcode.ofWord?_eq_some_iff.mp hop]; rfl, rfl⟩
  | case4 word op hop harity =>
    rintro ⟨⟩
    exact ⟨[], by rw [← Opcode.ofWord?_eq_some_iff.mp hop]; rfl, rfl⟩
  | case5 word op hop harity operand rest =>
    rintro ⟨⟩
    exact ⟨rest, by rw [← Opcode.ofWord?_eq_some_iff.mp hop]; rfl, rfl⟩

/-- Where words are left, a line begins. -/
theorem exists_lines_cons (address : Nat) (word : Word) (rest : List Word) :
    ∃ entry tail, lines address (word :: rest) = ⟨address, entry⟩ :: tail := by
  unfold lines
  split
  · exact ⟨_, _, rfl⟩
  split
  · exact ⟨_, _, rfl⟩
  split <;> exact ⟨_, _, rfl⟩

end Disassembly

namespace Program

/-- The machine takes an operand exactly where the table of arities has one. -/
theorem shown?_fetch {p : Program} {address : Nat} {op : Opcode} (h : p.get? address = some op.word) :
    (p.fetch address).shown? = some (if op.arity = 0 then .bare op else
      match p.get? (address + 1) with
      | none => .missingOperand op
      | some operand => .withOperand op operand) := by
  simp only [fetch, h, Opcode.ofWord?_word]
  cases op <;> cases p.get? (address + 1) <;> rfl

theorem shown?_fetch_of_lines {p : Program} {before left : List Word} {l : Line} {tail : List Line}
    (hp : p.toList = before ++ left) (h : Disassembly.lines before.length left = l :: tail) :
    (p.fetch before.length).shown? = some l.entry := by
  have hget (k : Nat) : p.get? (before.length + k) = left[k]? := by
    rw [get?_eq_toList, hp, List.getElem?_append_right (Nat.le_add_right ..), Nat.add_sub_cancel_left]
  revert h
  fun_cases Disassembly.lines before.length left with
  | case1 =>
    intro h
    cases h
  | case2 word rest hop =>
    rintro ⟨⟩
    have hword : p.get? before.length = some word := hget 0
    simp only [fetch, hword, hop]
    rfl
  | case3 word rest op hop harity =>
    rintro ⟨⟩
    rw [← Opcode.ofWord?_eq_some_iff.mp hop] at hget
    have hword : p.get? before.length = some op.word := hget 0
    rw [shown?_fetch hword, if_pos harity]
  | case4 word op hop harity =>
    rintro ⟨⟩
    rw [← Opcode.ofWord?_eq_some_iff.mp hop] at hget
    have hword : p.get? before.length = some op.word := hget 0
    rw [shown?_fetch hword, if_neg harity, hget 1]
    rfl
  | case5 word op hop harity operand rest =>
    rintro ⟨⟩
    rw [← Opcode.ofWord?_eq_some_iff.mp hop] at hget
    have hword : p.get? before.length = some op.word := hget 0
    rw [shown?_fetch hword, if_neg harity, hget 1]
    rfl

theorem size_eq_length (p : Program) : p.size = p.toList.length := by
  simp [size, toList]

/-- Addresses are listed until the words end. -/
theorem lists_or_end {p : Program} (before : List Word) {rest : List Word}
    (hp : p.toList = before ++ rest) (h : Disassembly.lines before.length rest ⊆ p.lines) :
    Disassembly.Lists p.disassembly before.length ∨ p.size ≤ before.length := by
  cases rest with
  | nil =>
    right
    rw [size_eq_length, hp, List.append_nil]
  | cons word rest =>
    left
    obtain ⟨entry, tail, hlines⟩ := Disassembly.exists_lines_cons before.length word rest
    rw [hlines] at h
    exact ⟨entry, Disassembly.shows_disassembly_iff.mpr (h List.mem_cons_self)⟩

/-- A line shows what is fetched at its address, and the next line or the end of the program follows
its words. -/
theorem fetch_of_mem_lines {p : Program} {l : Line} (h : l ∈ p.lines) :
    (p.fetch l.address).shown? = some l.entry ∧
      (Disassembly.Lists p.disassembly (l.address + l.entry.words.length) ∨
        p.size ≤ l.address + l.entry.words.length) := by
  obtain ⟨before, left, tail, hp, haddress, hlines, htail⟩ := Disassembly.exists_lines_eq_cons h
  rw [Nat.zero_add] at haddress
  rw [haddress] at hlines ⊢
  refine ⟨shown?_fetch_of_lines hp hlines, ?_⟩
  obtain ⟨rest, rfl, rfl⟩ := Disassembly.lines_eq_cons hlines
  rw [← List.length_append] at htail ⊢
  exact lists_or_end _ (by rw [hp, List.append_assoc]) htail

/-- Every jump on a line leads to a line or past the end, unless its operand is negative. -/
def JumpsToLines (p : Program) : Prop :=
  ∀ address op operand, Disassembly.Shows p.disassembly ⟨address, .withOperand op operand⟩ →
    op ∈ [.jmp, .jmpt, .jmpf] → 0 ≤ operand.toInt →
      Disassembly.Lists p.disassembly operand.toInt.toNat ∨ p.size ≤ operand.toInt.toNat

end Program

namespace Machine

variable {σ : Type} [Sink σ]

/-- The step of a machine executes an instruction and goes on from `next`, unless the instruction is a
jump: the instruction comes to one of its ends, and a fault halts the machine. -/
inductive CarriesOut (m : Machine σ) (next : Nat) (i : Instruction) : Step σ → Prop where
  | done {m' : Machine σ} (hexecutes : Executes m.ip { m with ip := next } i (.ok (), m')) :
    CarriesOut m next i ⟨m', .ok m'.status, .executing m.ip i.opcode m.stack.size ::
      if i = .halt then [.halted m.ip] else []⟩
  | failed {fault : Fault} {m' : Machine σ}
    (hexecutes : Executes m.ip { m with ip := next } i (.error fault, m')) :
    CarriesOut m next i ⟨{ m' with status := .halted }, .error fault,
      [.executing m.ip i.opcode m.stack.size, .failed fault]⟩

theorem carriesOut_of_fetch {p : Program} {m : Machine σ} {i : Instruction} (hrun : m.status = .running)
    (hfetch : p.fetch m.ip = .instruction i) : m.CarriesOut (m.ip + i.size) i (m.step p) := by
  have hexecutes := execute_executes m.ip { m with ip := m.ip + i.size } i
  rw [step_of_fetch hrun hfetch]
  generalize { m with ip := m.ip + i.size }.execute m.ip i = done at hexecutes
  obtain ⟨result, m'⟩ := done
  cases result with
  | error fault => exact .failed hexecutes
  | ok _ => exact .done hexecutes

/-- What an executed instruction fails for, it refuses. -/
theorem CarriesOut.refuses {m : Machine σ} {next : Nat} {i : Instruction} {s : Step σ} {fault : Fault}
    (h : m.CarriesOut next i s) (hfault : s.result = .error fault) : Refuses m.ip i fault := by
  cases h with
  | done => cases hfault
  | failed hexecutes =>
    cases hfault
    exact hexecutes.refuses

/-- The step of a running machine is what a line shows: it executes the opcode with the operand that
stand there, or fails for what is wrong with the line. -/
def Performs (m : Machine σ) (s : Step σ) : Entry → Prop
  | .raw word => s.result = .error (.unknownOpcode m.ip word)
  | .missingOperand _ => s.result = .error (.missingOperand m.ip)
  | .bare op => ∃ i : Instruction, i.opcode = op ∧ i.operand? = none ∧ m.CarriesOut (m.ip + 1) i s
  | .withOperand op operand => ∃ i : Instruction, i.opcode = op ∧ i.operand? = some operand ∧
      m.CarriesOut (m.ip + 2) i s

theorem performs_of_fetch {p : Program} {m : Machine σ} {entry : Entry} (hrun : m.status = .running)
    (h : (p.fetch m.ip).shown? = some entry) : m.Performs (m.step p) entry := by
  cases hfetch : p.fetch m.ip with
  | pastEnd =>
    rw [hfetch] at h
    cases h
  | unknown word =>
    rw [hfetch] at h
    cases h
    rw [step_of_unknown hrun hfetch]
    rfl
  | truncated op =>
    rw [hfetch] at h
    cases h
    rw [step_of_truncated hrun hfetch]
    rfl
  | instruction i =>
    have hcarries := carriesOut_of_fetch hrun hfetch
    rw [hfetch, Fetched.shown?] at h
    rw [Instruction.size] at hcarries
    cases hoperand : i.operand? with
    | none =>
      rw [hoperand] at h hcarries
      cases h
      exact ⟨i, rfl, hoperand, hcarries⟩
    | some operand =>
      rw [hoperand] at h hcarries
      cases h
      exact ⟨i, rfl, hoperand, hcarries⟩

theorem Performs.unknown_iff {m : Machine σ} {s : Step σ} {entry : Entry} (h : m.Performs s entry) :
    (∃ a w, s.result = .error (.unknownOpcode a w)) ↔ ∃ w, entry = .raw w := by
  cases entry with
  | raw word => exact ⟨fun _ => ⟨word, rfl⟩, fun _ => ⟨m.ip, word, h⟩⟩
  | missingOperand op => simp [show s.result = _ from h]
  | bare op | withOperand op operand =>
    obtain ⟨i, -, -, hcarries⟩ := h
    refine ⟨fun ⟨_, _, hfault⟩ => ?_, fun ⟨_, hentry⟩ => by cases hentry⟩
    rcases hcarries.refuses hfault with h | ⟨_, h⟩ | ⟨_, h, -⟩ <;> cases h

theorem Performs.truncated_iff {m : Machine σ} {s : Step σ} {entry : Entry} (h : m.Performs s entry) :
    (∃ a, s.result = .error (.missingOperand a)) ↔ ∃ op, entry = .missingOperand op := by
  cases entry with
  | raw word => simp [show s.result = _ from h]
  | missingOperand op => exact ⟨fun _ => ⟨op, rfl⟩, fun _ => ⟨m.ip, h⟩⟩
  | bare op | withOperand op operand =>
    obtain ⟨i, -, -, hcarries⟩ := h
    refine ⟨fun ⟨_, hfault⟩ => ?_, fun ⟨_, hentry⟩ => by cases hentry⟩
    rcases hcarries.refuses hfault with h | ⟨_, h⟩ | ⟨_, h, -⟩ <;> cases h

/-- The machine stands at a line of the disassembly or past the end, and the next step is what the line
shows. It meets an unknown opcode exactly where a raw word stands, and misses an operand exactly where
the line says so. -/
structure FollowsLines (p : Program) (m : Machine σ) : Prop where
  listed : Disassembly.Lists p.disassembly m.ip ∨ p.size ≤ m.ip
  performed : ∀ entry, Disassembly.Shows p.disassembly ⟨m.ip, entry⟩ → m.Performs (m.step p) entry
  unknown : ∀ entry, Disassembly.Shows p.disassembly ⟨m.ip, entry⟩ →
    ((∃ a w, (m.step p).result = .error (.unknownOpcode a w)) ↔ ∃ w, entry = .raw w)
  truncated : ∀ entry, Disassembly.Shows p.disassembly ⟨m.ip, entry⟩ →
    ((∃ a, (m.step p).result = .error (.missingOperand a)) ↔ ∃ op, entry = .missingOperand op)

/-- A step from a line leads to a line or past the end, unless it halts. -/
theorem step_listed {p : Program} (hjumps : p.JumpsToLines) {m : Machine σ}
    (hm : m.status = .running → Disassembly.Lists p.disassembly m.ip ∨ p.size ≤ m.ip) :
    (m.step p).machine.status = .running →
      Disassembly.Lists p.disassembly (m.step p).machine.ip ∨ p.size ≤ (m.step p).machine.ip := by
  intro hnext
  -- Only an instruction leaves the machine running; the line at `ip` shows which one it was.
  obtain ⟨hrun, i, hfetch⟩ := fetch_of_step_running hnext
  rcases hm hrun with ⟨entry, hshows⟩ | hend
  · obtain ⟨hentry, hbehind⟩ :=
      Program.fetch_of_mem_lines (Disassembly.shows_disassembly_iff.mp hshows)
    rw [hfetch] at hentry
    rcases step_ip hrun hfetch with hip | ⟨target, htarget, haddress⟩
    · rw [hip, ← Fetched.length_words_of_shown? hentry]
      exact hbehind
    · obtain ⟨hoperand, hop⟩ := Instruction.operand?_of_target? htarget
      rw [Fetched.shown?, hoperand] at hentry
      cases hentry
      have hvalue := Word.address?_eq_some_iff.mp haddress
      have hlisted := hjumps m.ip i.opcode target hshows hop (by omega)
      rwa [hvalue, Int.toNat_natCast] at hlisted
  · rw [Program.fetch_eq_pastEnd_iff.mpr hend] at hfetch
    cases hfetch

end Machine

namespace Program

/-- Disassembler and machine decode alike: if jumps lead only to lines or past the end, a running machine
is always at a line or past the end, whatever the sink and however many steps were made, and executes
what the line shows. -/
theorem executes_as_shown (p : Program) (hjumps : p.JumpsToLines) (σ : Type) [Sink σ] (sink : σ)
    (n : Nat) (hrun : ((Machine.start sink).after p n).status = .running) :
    Machine.FollowsLines p ((Machine.start sink).after p n) := by
  have hlisted := Machine.after_keeps
    (P := fun m => m.status = .running → Disassembly.Lists p.disassembly m.ip ∨ p.size ≤ m.ip)
    (fun _ => Machine.step_listed hjumps) (m := Machine.start sink)
    (fun _ => lists_or_end [] rfl (List.Subset.refl _)) n hrun
  have hperforms entry
      (hshows : Disassembly.Shows p.disassembly ⟨((Machine.start sink).after p n).ip, entry⟩) :=
    Machine.performs_of_fetch hrun
      (fetch_of_mem_lines (Disassembly.shows_disassembly_iff.mp hshows)).1
  exact ⟨hlisted, hperforms, fun entry hshows => (hperforms entry hshows).unknown_iff,
    fun entry hshows => (hperforms entry hshows).truncated_iff⟩

/-- A jump over a raw word, jumps past the end and to no address, and an operand missing at the end. -/
def detour : Program := ofList [7, 3, 42, 1, 5, 9, 100, 8, -1, 14, 7]

private theorem lines_detour : detour.lines =
    [⟨0, .withOperand .jmp 3⟩, ⟨2, .raw 42⟩, ⟨3, .withOperand .iconst 5⟩, ⟨5, .withOperand .jmpf 100⟩,
      ⟨7, .withOperand .jmpt (-1)⟩, ⟨9, .bare .print⟩, ⟨10, .missingOperand .jmp⟩] := by
  decide

private theorem jumpsToLines_detour : detour.JumpsToLines := by
  intro address op operand hshows hop hnonneg
  simp only [Disassembly.Lists, Disassembly.shows_disassembly_iff, lines_detour] at hshows ⊢
  simp only [List.mem_cons, Line.mk.injEq, Entry.withOperand.injEq, reduceCtorEq, and_false,
    List.not_mem_nil, or_false, false_or] at hshows
  rcases hshows with ⟨-, rfl, rfl⟩ | ⟨-, rfl, rfl⟩ | ⟨-, rfl, rfl⟩ | ⟨-, rfl, rfl⟩
  · exact .inl ⟨.withOperand .iconst 5, by decide⟩
  · exact absurd hop (by decide)
  · exact .inr (by decide)
  · exact absurd hnonneg (by decide)

/-- A line with a jump to an address leaves the machine there, and changes nothing else. -/
private theorem machine_of_jmp {σ : Type} [Sink σ] {m : Machine σ} {s : Step σ} {target : Word} {ip : Nat}
    (h : m.Performs s (.withOperand .jmp target)) (htarget : Word.address? target = some ip) :
    s.machine = { m with ip } := by
  obtain ⟨i, hop, hoperand, hcarries⟩ := h
  cases i with
  | jump w =>
    cases hoperand
    cases hcarries with
    | done hexecutes =>
      cases hexecutes with
      | jump hw =>
        rw [htarget] at hw
        cases hw
        rfl
      | stored hi => cases hi
    | failed hexecutes =>
      cases hexecutes with
      | underflow hstack => cases hstack
      | noAddress hi hw =>
        cases hi
        rw [htarget] at hw
        cases hw
      | outOfReach hi => cases hi
  | jumpIf condition w => cases condition <;> cases hop
  | binary op => cases hoperand
  | _ => cases hop

/-- The first line shows a jump, and the step takes it: the machine goes on at the line with address 3
and leaves out the raw word. After three steps it still follows the lines. -/
theorem executes_detour_as_shown : detour.JumpsToLines ∧
    Disassembly.Shows detour.disassembly ⟨0, .withOperand .jmp 3⟩ ∧
    ((Machine.start ({} : Transcript)).step detour).machine = { Machine.start {} with ip := 3 } ∧
    ((Machine.start ({} : Transcript)).after detour 3).status = .running ∧
    Machine.FollowsLines detour ((Machine.start ({} : Transcript)).after detour 3) := by
  have hshows : Disassembly.Shows detour.disassembly ⟨0, .withOperand .jmp 3⟩ :=
    Disassembly.shows_disassembly_iff.mpr (by simp [lines_detour])
  have hfirst := executes_as_shown detour jumpsToLines_detour Transcript {} 0 rfl
  exact ⟨jumpsToLines_detour, hshows, machine_of_jmp (hfirst.performed _ hshows) (by decide), by decide,
    executes_as_shown detour jumpsToLines_detour Transcript {} 3 (by decide)⟩

end Program

end StackAssembly
