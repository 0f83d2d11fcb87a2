import Mathlib.Data.List.Basic
import StackAssembly.Proofs.InstructionEffects
import StackAssembly.Proofs.ShortWrites
import StackAssembly.Proofs.Spelling

/-! Output to a limited sink. Until a line does not fit or cannot be flushed, a run is the same on every
sink; then it ends, and what was written is the beginning of what would have been. -/
namespace StackAssembly

/-- A printed value stands on a line of its own. -/
def printedLine (v : Word) : String := Numeral.ofWord v ++ "\n"

/-- What is written of values that are printed one after the other. -/
def printedText (values : List Word) : String := String.join (values.map printedLine)

theorem printedText_append (values : List Word) (v : Word) :
    printedText (values ++ [v]) = printedText values ++ printedLine v := by
  apply String.toList_inj.mp
  simp [printedText]

theorem toList_printedText_append (values : List Word) (v : Word) :
    (printedText (values ++ [v])).toList = (printedText values).toList ++ (printedLine v).toList := by
  rw [printedText_append, String.toList_append]

namespace Machine

variable {σ τ : Type}

/-- The same machine, but for the sink. -/
def withSink (m : Machine σ) (t : τ) : Machine τ := ⟨m.ip, m.status, m.stack, m.store, t⟩

/-- The value that the next step pops to print it. -/
def nextPrint? (p : Program) (m : Machine σ) : Option Word :=
  match m.status, p.fetch m.ip with
  | .running, .instruction .print => m.stack.peek?
  | _, _ => none

theorem of_nextPrint? {p : Program} {m : Machine σ} {v : Word} (h : m.nextPrint? p = some v) :
    m.status = .running ∧ p.fetch m.ip = .instruction .print ∧ m.stack.peek? = some v := by
  unfold nextPrint? at h
  split at h
  · rename_i hrun hfetch
    exact ⟨hrun, hfetch, h⟩
  · cases h

variable [Sink σ] [Sink τ]

/-- The values that so many steps pop to print them, in order. -/
def prints (p : Program) (m : Machine σ) : Nat → List Word
  | 0 => []
  | n + 1 => m.prints p n ++ ((m.after p n).nextPrint? p).toList

theorem Executes.withSink {address : Nat} {m : Machine σ} {i : Instruction}
    {done : Except Fault Unit × Machine σ} (h : Executes address m i done)
    (hprint : i = .print → m.stack.peek? = none) (t : τ) :
    Executes address (m.withSink t) i (done.1, done.2.withSink t) ∧ done.2.sink = m.sink := by
  cases h with
  | const => exact ⟨.const, rfl⟩
  | binary hstack => exact ⟨.binary hstack, rfl⟩
  | jump htarget => exact ⟨.jump htarget, rfl⟩
  | taken hstack htaken htarget => exact ⟨.taken hstack htaken htarget, rfl⟩
  | passed hstack hpassed => exact ⟨.passed hstack hpassed, rfl⟩
  | gload hslot => exact ⟨.gload hslot, rfl⟩
  | stored hi hslot hstack hreach => exact ⟨.stored hi hslot hstack hreach, rfl⟩
  | load hslot hstack => exact ⟨.load hslot hstack, rfl⟩
  | printed hstack hsink => exact absurd (hprint rfl) (by simp [hstack])
  | halt => exact ⟨.halt, rfl⟩
  | underflow hstack hslot => exact ⟨.underflow hstack hslot, rfl⟩
  | noAddress hi hw => exact ⟨.noAddress hi hw, rfl⟩
  | pastTop hslot hstack => exact ⟨.pastTop hslot hstack, rfl⟩
  | takenNowhere hstack htaken htarget => exact ⟨.takenNowhere hstack htaken htarget, rfl⟩
  | outOfReach hi hslot hstack hreach => exact ⟨.outOfReach hi hslot hstack hreach, rfl⟩
  | refused hstack hsink => exact absurd (hprint rfl) (by simp [hstack])

/-- A step that prints nothing is the same on every sink. -/
theorem step_withSink {p : Program} {m : Machine σ} (h : m.nextPrint? p = none) (t : τ) :
    (m.withSink t).step p = ⟨(m.step p).machine.withSink t, (m.step p).result, (m.step p).events⟩ ∧
      (m.step p).machine.sink = m.sink := by
  have hprint {i : Instruction} (hrun : m.status = .running)
      (hfetch : p.fetch m.ip = .instruction i) : i = .print → m.stack.peek? = none := by
    rintro rfl
    simpa [nextPrint?, hrun, hfetch] using h
  have hsteps := step_steps p m
  generalize m.step p = s at hsteps
  cases hsteps with
  | idle hhalted => exact ⟨step_of_halted hhalted, rfl⟩
  | ranOff hrun hfetch => exact ⟨step_of_pastEnd hrun hfetch, rfl⟩
  | unknown hrun hfetch => exact ⟨step_of_unknown hrun hfetch, rfl⟩
  | truncated hrun hfetch => exact ⟨step_of_truncated hrun hfetch, rfl⟩
  | faulted hrun hfetch hexecutes =>
    obtain ⟨hexecutes, hsink⟩ := hexecutes.withSink (hprint hrun hfetch) t
    exact ⟨(Steps.faulted (m := m.withSink t) hrun hfetch hexecutes).step_eq, hsink⟩
  | executed hrun hfetch hexecutes =>
    obtain ⟨hexecutes, hsink⟩ := hexecutes.withSink (hprint hrun hfetch) t
    exact ⟨(Steps.executed (m := m.withSink t) hrun hfetch hexecutes).step_eq, hsink⟩

theorem step_printed {p : Program} {m : Machine σ} {v : Word} {sink : σ} (h : m.nextPrint? p = some v)
    (hsink : Sink.printLine m.sink (Numeral.ofWord v) = (.ok (), sink)) :
    m.step p = ⟨{ m with ip := m.ip + 1, stack := m.stack.pop, sink }, .ok .running,
      [.executing m.ip .print m.stack.size]⟩ := by
  obtain ⟨hrun, hfetch, hstack⟩ := of_nextPrint? h
  rw [(Steps.executed hrun hfetch (.printed hstack hsink)).step_eq, ← hrun]
  rfl

theorem step_refused {p : Program} {m : Machine σ} {v : Word} {cause : String} {sink : σ}
    (h : m.nextPrint? p = some v)
    (hsink : Sink.printLine m.sink (Numeral.ofWord v) = (.error cause, sink)) :
    (m.step p).machine = { m with ip := m.ip + 1, stack := m.stack.pop, status := .halted, sink } ∧
      (m.step p).result = .error (.outputFailed m.ip cause) := by
  obtain ⟨hrun, hfetch, hstack⟩ := of_nextPrint? h
  rw [(Steps.faulted hrun hfetch (.refused hstack hsink)).step_eq]
  exact ⟨rfl, rfl⟩

/-- The next step is a print that pops this value: it leaves the words beneath, goes on behind the
opcode and writes the value on a line of its own. It fails if the sink does. -/
structure PopsToPrint (p : Program) (m : Machine σ) (v : Word) : Prop where
  running : m.status = .running
  opcode : p.get? m.ip = some Opcode.print.word
  stack : m.stack.toList = (m.step p).machine.stack.toList ++ [v]
  ip : (m.step p).machine.ip = m.ip + 1
  store : (m.step p).machine.store = m.store
  sink : (m.step p).machine.sink = (Sink.printLine m.sink (Numeral.ofWord v)).2
  succeeds : (Sink.printLine m.sink (Numeral.ofWord v)).1 = .ok () →
    (m.step p).result = .ok .running ∧ (m.step p).machine.status = .running
  fails : ∀ cause, (Sink.printLine m.sink (Numeral.ofWord v)).1 = .error cause →
    (m.step p).result = .error (.outputFailed m.ip cause) ∧ (m.step p).machine.status = .halted

theorem popsToPrint_of_nextPrint? {p : Program} {m : Machine σ} {v : Word}
    (h : m.nextPrint? p = some v) : PopsToPrint p m v := by
  obtain ⟨hrun, hfetch, hstack⟩ := of_nextPrint? h
  have hopcode := (Program.get?_of_fetch hfetch).1
  have hwords : m.stack.toList = m.stack.pop.toList ++ [v] := by
    rw [← Stack.toList_push, ← Stack.peek?_eq_some_iff.mp hstack]
  obtain ⟨result, sink, hprint⟩ : ∃ result sink,
    Sink.printLine m.sink (Numeral.ofWord v) = (result, sink) := ⟨_, _, rfl⟩
  cases result with
  | ok _ =>
    have hstep := step_printed h hprint
    refine ⟨hrun, hopcode, ?_, ?_, ?_, ?_, fun _ => ?_, fun cause hcause => ?_⟩
    · rw [hstep]
      exact hwords
    · rw [hstep]
    · rw [hstep]
    · rw [hstep, hprint]
    · rw [hstep]
      exact ⟨rfl, hrun⟩
    · rw [hprint] at hcause
      cases hcause
  | error cause =>
    obtain ⟨hmachine, hresult⟩ := step_refused h hprint
    refine ⟨hrun, hopcode, ?_, ?_, ?_, ?_, fun hok => ?_, fun other hother => ?_⟩
    · rw [hmachine]
      exact hwords
    · rw [hmachine]
    · rw [hmachine]
    · rw [hmachine, hprint]
    · rw [hprint] at hok
      cases hok
    · rw [hprint] at hother
      cases hother
      exact ⟨hresult, by rw [hmachine]⟩

/-- The values that are counted as printed are those that a print pops. -/
theorem nextPrint?_eq_some_iff {p : Program} {m : Machine σ} {v : Word} :
    m.nextPrint? p = some v ↔ PopsToPrint p m v := by
  refine ⟨popsToPrint_of_nextPrint?, fun h => ?_⟩
  have hfetch : p.fetch m.ip = .instruction .print :=
    (Program.fetch_eq_instruction_iff h.opcode).mpr rfl
  have htop : m.stack.peek? = some v := by
    rw [Stack.peek?, ← Array.getLast?_toList, show m.stack.words.toList = _ from h.stack,
      List.getLast?_concat]
  rw [nextPrint?, h.running, hfetch]
  exact htop

/-- A print that has no value to pop is none of them: it fails. -/
theorem underflow_of_nextPrint? {p : Program} {m : Machine σ} (h : m.nextPrint? p = none)
    (hrun : m.status = .running) (hop : p.get? m.ip = some Opcode.print.word) :
    m.stack.toList = [] ∧ (m.step p).result = .error (.stackUnderflow m.ip) := by
  have hfetch : p.fetch m.ip = .instruction .print :=
    (Program.fetch_eq_instruction_iff hop).mpr rfl
  rw [nextPrint?, hrun, hfetch] at h
  have hsize : m.stack.size = 0 := Stack.peek?_eq_none_iff.mp h
  refine ⟨List.eq_nil_of_length_eq_zero (m.stack.size_eq_length ▸ hsize), ?_⟩
  have hexecutes : Executes m.ip { m with ip := m.ip + Instruction.print.size } .print
      (.error (.stackUnderflow m.ip), { m with ip := m.ip + Instruction.print.size }) :=
    .underflow (hsize ▸ Nat.zero_lt_one) fun _ hslot => by cases hslot
  rw [(Steps.faulted hrun hfetch hexecutes).step_eq]
  rfl

end Machine

/-- A sink that takes every text and every flush, and shows by `out` what it was given. -/
structure Sink.Unfailing {σ : Type} [Sink σ] (out : σ → String) : Prop where
  write : ∀ s text, (Sink.write s text).1 = .ok () ∧ out (Sink.write s text).2 = out s ++ text
  flush : ∀ s, (Sink.flush s).1 = .ok () ∧ out (Sink.flush s).2 = out s

theorem Transcript.unfailing : Sink.Unfailing Transcript.text :=
  ⟨fun _ _ => ⟨rfl, rfl⟩, fun _ => ⟨rfl, rfl⟩⟩

theorem Transcript.printLine_eq (t : Transcript) (v : Word) :
    Sink.printLine t (Numeral.ofWord v) = (.ok (), ⟨t.text ++ printedLine v⟩) := rfl

theorem Sink.Unfailing.printLine {σ : Type} [Sink σ] {out : σ → String} (h : Sink.Unfailing out)
    (s : σ) (text : String) :
    ∃ s', Sink.printLine s text = (.ok (), s') ∧ out s' = out s ++ (text ++ "\n") := by
  unfold Sink.printLine
  have hwrite := h.write s (text ++ "\n")
  generalize Sink.write s (text ++ "\n") = done at hwrite ⊢
  obtain ⟨result, written⟩ := done
  obtain ⟨rfl, hout⟩ := hwrite
  obtain ⟨hflushed, hsame⟩ := h.flush written
  exact ⟨(Sink.flush written).2, Prod.ext hflushed rfl, hsame.trans hout⟩

namespace Machine

variable {σ : Type} [Sink σ]

/-- A sink that never fails is given every printed value on a line of its own. -/
theorem out_after {out : σ → String} (h : Sink.Unfailing out) (p : Program) (sink : σ) (n : Nat) :
    out ((start sink).after p n).sink = out sink ++ printedText ((start sink).prints p n) := by
  induction n with
  | zero => exact String.append_empty.symm
  | succ n ih =>
    rw [after_succ, prints]
    cases hprint : ((start sink).after p n).nextPrint? p with
    | none =>
      rw [(step_withSink hprint sink).2, ih]
      simp
    | some v =>
      obtain ⟨s', hs, hout⟩ := h.printLine ((start sink).after p n).sink (Numeral.ofWord v)
      rw [step_printed hprint hs, Option.toList_some, printedText_append, ← String.append_assoc, ← ih]
      exact hout

end Machine

namespace Text

/-- The bytes by which a text is stored. -/
def bytes (text : String) : List UInt8 := text.toUTF8.data.toList

theorem bytes_eq_map {text : String} (h : ∀ c ∈ text.toList, c.utf8Size = 1) :
    bytes text = text.toList.map (·.val.toUInt8) := by
  have hdata : bytes text = text.toList.flatMap String.utf8EncodeChar := by
    rw [bytes, String.toUTF8, ← String.utf8Encode_toList, List.utf8Encode, List.data_toByteArray]
  rw [hdata, List.map_eq_flatMap]
  exact List.flatMap_congr fun c hc => String.utf8EncodeChar_eq_singleton (h c hc)

end Text

/-- Numbers and line feeds are written in ASCII. -/
theorem utf8Size_printedText {values : List Word} :
    ∀ c ∈ (printedText values).toList, c.utf8Size = 1 := by
  intro c hc
  obtain ⟨v, -, hc⟩ : ∃ v ∈ values, c ∈ (Numeral.ofWord v).toList ∨ c = '\n' := by
    simpa [printedText, printedLine] using hc
  rw [Char.utf8Size_eq_one_iff, UInt32.le_iff_toNat_le]
  rcases hc with hc | rfl
  · rcases (Numeral.spells_ofWord v).chars.2 c hc with hdigit | rfl | rfl
    · have hrange : 0x30 ≤ c.toNat ∧ c.toNat ≤ 0x39 := Char.isDigit_iff_toNat.mp hdigit
      exact Nat.le_trans hrange.2 (by decide)
    · decide
    · decide
  · decide

namespace LimitedSink

/-- There are so many flushes left. -/
def HasFlushes (s : LimitedSink) (n : Nat) : Prop := ∀ flushes, s.flushes = some flushes → n ≤ flushes

/-- There is room for the values, each on a line of its own, and a flush for each. -/
def Fits (s : LimitedSink) (values : List Word) : Prop :=
  s.HasRoom (Text.bytes (printedText values)).length ∧ s.HasFlushes values.length

/-- The sink after values have been printed to it. -/
def printed (s : LimitedSink) (values : List Word) : LimitedSink :=
  { s.took (printedText values).toList with flushes := s.flushes.map (· - values.length) }

theorem length_bytes_printedText (values : List Word) :
    (Text.bytes (printedText values)).length = (printedText values).toList.length := by
  rw [Text.bytes_eq_map utf8Size_printedText, List.length_map]

theorem took_withFlushes (s : LimitedSink) (flushes : Option Nat) (text : List Char) :
    ({ s with flushes } : LimitedSink).took text = { s.took text with flushes } := by
  obtain ⟨written, room, stalls, _⟩ := s
  cases room <;> rfl

theorem took_printed (s : LimitedSink) (values : List Word) (v : Word) :
    (s.printed values).took (printedLine v).toList =
      { s.took (printedText (values ++ [v])).toList with
        flushes := s.flushes.map (· - values.length) } := by
  rw [printed, took_withFlushes, toList_printedText_append, took_append]

theorem hasRoom_printed_iff {s : LimitedSink} {values : List Word} (h : s.Fits values) (v : Word) :
    (s.printed values).HasRoom (printedLine v).toList.length ↔
      s.HasRoom (Text.bytes (printedText (values ++ [v]))).length := by
  have hbefore : s.HasRoom (printedText values).toList.length := length_bytes_printedText values ▸ h.1
  rw [length_bytes_printedText, toList_printedText_append, List.length_append,
    ← hasRoom_took_iff hbefore]
  rfl

theorem printLine_of_write_ok {s s' : LimitedSink} {v : Word}
    (h : s.write (printedLine v) = (.ok (), s')) :
    Sink.printLine s (Numeral.ofWord v) = s'.flush := by
  have hwrite : Sink.write s (Numeral.ofWord v ++ "\n") = (.ok (), s') := h
  rw [Sink.printLine, hwrite]
  rfl

theorem printLine_of_write_error {s s' : LimitedSink} {v : Word} {cause : String}
    (h : s.write (printedLine v) = (.error cause, s')) :
    Sink.printLine s (Numeral.ofWord v) = (.error cause, s') := by
  have hwrite : Sink.write s (Numeral.ofWord v ++ "\n") = (.error cause, s') := h
  rw [Sink.printLine, hwrite]

theorem flush_of_hasFlushes {s : LimitedSink} {flushes : Option Nat} {n : Nat}
    (h : ∀ limit, flushes = some limit → n + 1 ≤ limit) :
    ({ s with flushes := flushes.map (· - n) } : LimitedSink).flush =
      (.ok (), { s with flushes := flushes.map (· - (n + 1)) }) := by
  cases flushes with
  | none => rfl
  | some limit =>
    have hlimit := h limit rfl
    have hleft : limit - n = limit - (n + 1) + 1 := by omega
    rw [Option.map_some, hleft]
    rfl

theorem flush_of_not_hasFlushes {s : LimitedSink} {flushes : Option Nat} {n : Nat}
    (h : ¬ ∀ limit, flushes = some limit → n + 1 ≤ limit) :
    ({ s with flushes := flushes.map (· - n) } : LimitedSink).flush =
      (.error "flush refused", { s with flushes := flushes.map (· - n) }) := by
  cases flushes with
  | none => exact absurd (fun _ h => by cases h) h
  | some limit =>
    have hnone : limit - n = 0 := by
      by_contra hleft
      exact h fun r hr => by cases hr; omega
    rw [Option.map_some, hnone]
    rfl

/-- A line that fits is printed, and the sink holds one line more. -/
theorem printLine_of_fits {s : LimitedSink} {values : List Word} {v : Word} (hbefore : s.Fits values)
    (h : s.Fits (values ++ [v])) :
    Sink.printLine (s.printed values) (Numeral.ofWord v) = (.ok (), s.printed (values ++ [v])) := by
  have hwrite := write_of_hasRoom ((hasRoom_printed_iff hbefore v).mpr h.1)
  rw [String.ofList_toList, took_printed] at hwrite
  rw [printLine_of_write_ok hwrite, flush_of_hasFlushes]
  · rw [printed, List.length_append, List.length_singleton]
  · intro limit hlimit
    have := h.2 limit hlimit
    rwa [List.length_append] at this

/-- A line that does not fit fails, with as much of it written as there is room for. -/
theorem printLine_of_not_fits {s : LimitedSink} {values : List Word} {v : Word}
    (hbefore : s.Fits values) (h : ¬ s.Fits (values ++ [v])) :
    ∃ cause s', Sink.printLine (s.printed values) (Numeral.ofWord v) = (.error cause, s') ∧
      s'.written = (s.took (printedText (values ++ [v])).toList).written := by
  by_cases hroom : s.HasRoom (Text.bytes (printedText (values ++ [v]))).length
  · have hwrite := write_of_hasRoom ((hasRoom_printed_iff hbefore v).mpr hroom)
    rw [String.ofList_toList, took_printed] at hwrite
    rw [printLine_of_write_ok hwrite, flush_of_not_hasFlushes]
    · exact ⟨_, _, rfl, rfl⟩
    · intro hflushes
      exact h ⟨hroom, by rwa [HasFlushes, List.length_append]⟩
  · have hwrite := write_of_not_hasRoom (mt (hasRoom_printed_iff hbefore v).mp hroom)
    rw [String.ofList_toList, took_printed] at hwrite
    exact ⟨_, _, printLine_of_write_error hwrite, rfl⟩

theorem fits_of_append {s : LimitedSink} {values : List Word} {v : Word}
    (h : s.Fits (values ++ [v])) : s.Fits values := by
  constructor
  · intro room hroom
    have hle := h.1 room hroom
    rw [length_bytes_printedText, toList_printedText_append, List.length_append] at hle
    rw [length_bytes_printedText]
    omega
  · intro flushes hflushes
    have hle := h.2 flushes hflushes
    rw [List.length_append] at hle
    omega

theorem printed_nil (s : LimitedSink) : s.printed [] = s := by
  have htook : s.took (printedText []).toList = s := s.took_nil
  rw [printed, htook]
  obtain ⟨written, room, stalls, flushes⟩ := s
  cases flushes <;> rfl

/-- What an empty sink has written of a text is its beginning, as far as there is room. -/
theorem bytes_written_took {s : LimitedSink} (hempty : s.written = "") {room : Nat}
    (hroom : s.room = some room) (values : List Word) :
    Text.bytes (s.took (printedText values).toList).written =
      (Text.bytes (printedText values)).take room := by
  have hwritten : (s.took (printedText values).toList).written =
      String.ofList ((printedText values).toList.take room) := by
    simp [took, hroom, hempty]
  have hascii : ∀ c ∈ (String.ofList ((printedText values).toList.take room)).toList,
      c.utf8Size = 1 := by
    intro c hc
    rw [String.toList_ofList] at hc
    exact utf8Size_printedText c (List.mem_of_mem_take hc)
  rw [hwritten, Text.bytes_eq_map hascii, Text.bytes_eq_map utf8Size_printedText,
    String.toList_ofList, List.map_take]

theorem written_took_of_hasRoom {s : LimitedSink} (hempty : s.written = "") {values : List Word}
    (h : s.HasRoom (Text.bytes (printedText values)).length) :
    (s.took (printedText values).toList).written = printedText values := by
  rw [length_bytes_printedText] at h
  unfold took
  split
  · simp [hempty]
  · rename_i room hroom
    simp [hempty, List.take_of_length_le (h room hroom)]

end LimitedSink

namespace Program

/-- The machine after so many steps with a sink that takes everything. -/
def ideal (p : Program) (n : Nat) : Machine Transcript := (Machine.start {}).after p n

/-- The values that it has popped to print them by then. -/
def printed (p : Program) (n : Nat) : List Word := (Machine.start ({} : Transcript)).prints p n

theorem text_ideal (p : Program) (n : Nat) : (p.ideal n).sink.text = printedText (p.printed n) := by
  have hout := Machine.out_after Transcript.unfailing p {} n
  rwa [String.empty_append] at hout

theorem printed_succ (p : Program) (n : Nat) :
    p.printed (n + 1) = p.printed n ++ ((p.ideal n).nextPrint? p).toList := rfl

theorem ideal_succ (p : Program) (n : Nat) : p.ideal (n + 1) = ((p.ideal n).step p).machine :=
  Machine.after_succ p n _

theorem fits_printed_of_succ {p : Program} {s : LimitedSink} {n : Nat}
    (h : s.Fits (p.printed (n + 1))) : s.Fits (p.printed n) := by
  rw [printed_succ] at h
  cases hprint : (p.ideal n).nextPrint? p with
  | none => rwa [hprint, Option.toList_none, List.append_nil] at h
  | some v =>
    rw [hprint] at h
    exact LimitedSink.fits_of_append h

end Program

namespace Machine

/-- As long as lines fit, a step does the same to the limited sink as to the one that takes all. -/
theorem step_withSink_printed {p : Program} {m : Machine Transcript} {s : LimitedSink}
    {values : List Word} (hbefore : s.Fits values)
    (h : s.Fits (values ++ (m.nextPrint? p).toList)) :
    (m.withSink (s.printed values)).step p =
      ⟨(m.step p).machine.withSink (s.printed (values ++ (m.nextPrint? p).toList)),
        (m.step p).result, (m.step p).events⟩ := by
  cases hprint : m.nextPrint? p with
  | none =>
    rw [Option.toList_none, List.append_nil]
    exact (step_withSink hprint _).1
  | some v =>
    rw [hprint] at h
    have hlimited := LimitedSink.printLine_of_fits hbefore h
    rw [step_printed hprint (Transcript.printLine_eq _ v)]
    exact step_printed (m := m.withSink (s.printed values)) hprint hlimited

/-- As long as lines fit, a run is the same but for the sink, which holds the same lines. -/
theorem after_limited {p : Program} {s : LimitedSink} {n : Nat} (h : s.Fits (p.printed n)) :
    (start s).after p n = (p.ideal n).withSink (s.printed (p.printed n)) := by
  induction n with
  | zero =>
    change start s = (start ({} : Transcript)).withSink (s.printed [])
    rw [s.printed_nil]
    rfl
  | succ n ih =>
    have hbefore := Program.fits_printed_of_succ h
    rw [after_succ, ih hbefore, Program.ideal_succ, Program.printed_succ]
    exact congrArg Step.machine (step_withSink_printed hbefore h)

theorem step_limited {p : Program} {s : LimitedSink} {n : Nat} (h : s.Fits (p.printed (n + 1))) :
    (((start s).after p n).step p).result = ((p.ideal n).step p).result := by
  have hbefore := Program.fits_printed_of_succ h
  rw [after_limited hbefore]
  exact congrArg Step.result (step_withSink_printed hbefore h)

/-- The step after so many others is a print, and the first to fail for its output. It has popped its
value as the ideal one does, but the machine halts for good, and the sink holds the ideal output through
this step, up to the byte where the room ended. -/
structure CutOff (p : Program) (s : LimitedSink) (n : Nat) : Prop where
  prints : ∃ v, PopsToPrint p ((start s).after p n) v
  result : ∃ cause,
    (((start s).after p n).step p).result = .error (.outputFailed (p.ideal n).ip cause)
  machine : (start s).after p (n + 1) =
    { (p.ideal (n + 1)).withSink ((start s).after p (n + 1)).sink with status := .halted }
  stays : ∀ later > n, (start s).after p later = (start s).after p (n + 1)
  cut : ∀ room, s.room = some room → room < (Text.bytes (p.ideal (n + 1)).sink.text).length →
    Text.bytes ((start s).after p (n + 1)).sink.written =
      (Text.bytes (p.ideal (n + 1)).sink.text).take room
  whole : s.HasRoom (Text.bytes (p.ideal (n + 1)).sink.text).length →
    ((start s).after p (n + 1)).sink.written = (p.ideal (n + 1)).sink.text

/-- A print whose line does not fit leaves the machine of the ideal step, but halted and with what the sink
had room for. -/
theorem step_not_fits {p : Program} {s : LimitedSink} {n : Nat} {v : Word}
    (hprint : (p.ideal n).nextPrint? p = some v) (hbefore : s.Fits (p.printed n))
    (h : ¬ s.Fits (p.printed (n + 1))) :
    ∃ cause s', (((start s).after p n).step p).result = .error (.outputFailed (p.ideal n).ip cause) ∧
      (start s).after p (n + 1) = { (p.ideal (n + 1)).withSink s' with status := .halted } ∧
      s'.written = (s.took (printedText (p.printed (n + 1))).toList).written := by
  have hprinted : p.printed (n + 1) = p.printed n ++ [v] := by
    rw [Program.printed_succ, hprint, Option.toList_some]
  rw [hprinted] at h ⊢
  obtain ⟨cause, s', hlimited, hwritten⟩ := LimitedSink.printLine_of_not_fits hbefore h
  obtain ⟨hmachine, hresult⟩ :=
    step_refused (m := (p.ideal n).withSink (s.printed (p.printed n))) hprint hlimited
  rw [after_succ, after_limited hbefore]
  refine ⟨cause, s', hresult, ?_, hwritten⟩
  rw [hmachine, p.ideal_succ, step_printed hprint (Transcript.printLine_eq _ v)]
  rfl

theorem cutOff_of_not_fits {p : Program} {s : LimitedSink} (hempty : s.written = "") {n : Nat}
    (hbefore : s.Fits (p.printed n)) (h : ¬ s.Fits (p.printed (n + 1))) : CutOff p s n := by
  cases hprint : (p.ideal n).nextPrint? p with
  | none =>
    -- A step that prints nothing asks for no more room than the steps before it.
    rw [Program.printed_succ, hprint, Option.toList_none, List.append_nil] at h
    exact absurd hbefore h
  | some v =>
    obtain ⟨cause, s', hresult, hmachine, hwritten⟩ := step_not_fits hprint hbefore h
    have hsink : ((start s).after p (n + 1)).sink = s' := by
      rw [hmachine]
      rfl
    refine ⟨⟨v, ?_⟩, ⟨cause, hresult⟩, ?_, fun later hlater => ?_, ?_, ?_⟩
    · rw [after_limited hbefore]
      exact popsToPrint_of_nextPrint? hprint
    · rw [hsink, hmachine]
    · exact after_eq_of_halted (by rw [hmachine]) hlater
    · intro room hroom _
      rw [hsink, hwritten, p.text_ideal, LimitedSink.bytes_written_took hempty hroom]
    · intro hroom
      rw [p.text_ideal] at hroom ⊢
      rw [hsink, hwritten, LimitedSink.written_took_of_hasRoom hempty hroom]

/-- Output to a limited sink is the beginning of the ideal output. On any sink a step that is counted as
printing is a print that pops its value, and no other writes anything. A sink that never fails is given
every printed value on a line of its own. A limited sink, which may take a line in any number of pieces,
lets the run go on as with a sink that takes everything, step for step, up to the first line that it has
no room or no flush for; there the run ends, with the ideal output written as far as there was room. -/
theorem output_under_limits (p : Program) :
    (∀ (σ : Type) [Sink σ] (m : Machine σ),
      (∀ v, m.nextPrint? p = some v ↔ PopsToPrint p m v) ∧
      (m.nextPrint? p = none → (m.step p).machine.sink = m.sink ∧
        (m.status = .running → p.get? m.ip = some Opcode.print.word →
          m.stack.toList = [] ∧ (m.step p).result = .error (.stackUnderflow m.ip)))) ∧
    (∀ (σ : Type) [Sink σ] (out : σ → String), Sink.Unfailing out → ∀ (sink : σ) (n : Nat),
      out ((start sink).after p n).sink = out sink ++ printedText ((start sink).prints p n)) ∧
    (∀ most > 0, ∀ (s : LimitedSink) (pieces : List (List Char)),
      s.writePieces most pieces = Sink.write s (String.ofList pieces.flatten)) ∧
    ∀ (room flushes : Option Nat) (stalls : Bool) (n : Nat),
      let s : LimitedSink := { room, stalls, flushes }
      (s.Fits (p.printed n) →
        (start s).after p n = (p.ideal n).withSink ((start s).after p n).sink ∧
        ((start s).after p n).sink.written = (p.ideal n).sink.text) ∧
      (s.Fits (p.printed (n + 1)) →
        (((start s).after p n).step p).result = ((p.ideal n).step p).result) ∧
      (s.Fits (p.printed n) → ¬ s.Fits (p.printed (n + 1)) → CutOff p s n) := by
  refine ⟨fun σ _ m => ⟨fun v => nextPrint?_eq_some_iff, fun hnone => ?_⟩,
    fun σ _ out h sink n => out_after h p sink n,
    fun most hmost s pieces => s.writePieces_eq_write hmost pieces,
    fun room flushes stalls n => ⟨fun h => ?_, step_limited, cutOff_of_not_fits rfl⟩⟩
  · exact ⟨(step_withSink hnone m.sink).2, underflow_of_nextPrint? hnone⟩
  · rw [after_limited h, p.text_ideal]
    exact ⟨rfl, LimitedSink.written_took_of_hasRoom rfl h.1⟩

/-- Two values are printed, 7 and 1234. With room for four bytes the second line is cut inside the number;
with one flush it is written, and still the step fails. Either way the value is off the stack. -/
theorem output_under_limits_two_lines :
    let p : Program := .ofList [1, 7, 14, 1, 1234, 14, 15]
    let short : LimitedSink := { room := some 4 }
    let once : LimitedSink := { flushes := some 1 }
    (p.ideal 4).sink.text = "7\n1234\n" ∧ PopsToPrint p (p.ideal 3) 1234 ∧
    CutOff p short 3 ∧ ((start short).after p 4).sink.written = "7\n12" ∧
      (((start short).after p 3).step p).result = .error (.outputFailed 5 "sink full") ∧
    CutOff p once 3 ∧ ((start once).after p 4).sink.written = "7\n1234\n" ∧
      (((start once).after p 3).step p).result = .error (.outputFailed 5 "flush refused") := by
  intro p short once
  obtain ⟨hpops, hideal, -, hlimited⟩ := output_under_limits p
  have hbefore : p.printed 3 = [7] := by decide
  have hthrough : p.printed 4 = [7, 1234] := by decide
  have hshort : CutOff p short 3 := by
    apply (hlimited (some 4) none false 3).2.2
    · rw [hbefore]
      exact ⟨fun room hroom => by cases hroom; decide +kernel, fun _ hflushes => by cases hflushes⟩
    · rw [hthrough]
      exact fun hfits => absurd (hfits.1 4 rfl) (by decide +kernel)
  have honce : CutOff p once 3 := by
    apply (hlimited none (some 1) false 3).2.2
    · rw [hbefore]
      exact ⟨fun _ hroom => (by cases hroom), fun flushes hflushes => by cases hflushes; decide⟩
    · rw [hthrough]
      exact fun hfits => absurd (hfits.2 1 rfl) (by decide)
  have htext : (p.ideal 4).sink.text = "7\n1234\n" := by
    rw [Program.ideal, hideal Transcript Transcript.text Transcript.unfailing {} 4]
    change "" ++ printedText (p.printed 4) = _
    rw [hthrough]
    decide +kernel
  have hwritten := honce.whole fun _ hroom => nomatch hroom
  simp only [Nat.reduceAdd, htext] at hwritten
  have hpopped : PopsToPrint p (p.ideal 3) 1234 := ((hpops _ _).1 _).mp (by decide)
  exact ⟨htext, hpopped, hshort, by decide +kernel, by decide +kernel, honce, hwritten, by decide +kernel⟩

end Machine

end StackAssembly
