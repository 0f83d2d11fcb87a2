import StackAssembly.Proofs.MachineSteps

/-! The words that a run reads. Two programs that agree on them run alike, whatever else they hold. -/
namespace StackAssembly

theorem Opcode.instruction?_of_arity_eq_zero {op : Opcode} (h : op.arity = 0)
    (operand other : Option Word) : op.instruction? operand = op.instruction? other := by
  cases op with
  | iadd | isub | imul | ilt | ieq | print | halt => rfl
  | iconst | jmp | jmpt | jmpf | gload | gstore | load | store => cases h

theorem Opcode.arity_le_one (op : Opcode) : op.arity ≤ 1 := by
  cases op <;> decide

namespace Program

/-- The addresses that are read to fetch an instruction: that of the opcode, and that of the operand if
the opcode is known and takes one. -/
def readAt (p : Program) (address : Nat) : List Nat :=
  match (p.get? address).bind Opcode.ofWord? with
  | none => [address]
  | some op => List.range' address (1 + op.arity)

theorem mem_readAt (p : Program) (address : Nat) : address ∈ p.readAt address := by
  unfold readAt
  split
  · exact List.mem_singleton_self address
  · rw [List.mem_range'_1]
    omega

/-- What is fetched depends on nothing but the words read for it. -/
theorem fetch_congr {p q : Program} {address : Nat}
    (h : ∀ a ∈ p.readAt address, q.get? a = p.get? a) : q.fetch address = p.fetch address := by
  have hopcode := h address (p.mem_readAt address)
  unfold readAt at h
  unfold fetch
  rw [hopcode]
  cases hword : p.get? address with
  | none => rfl
  | some word =>
    cases hop : Opcode.ofWord? word with
    | none => simp only [hop]
    | some op =>
      have hoperand : op.instruction? (q.get? (address + 1)) = op.instruction? (p.get? (address + 1)) := by
        rcases Nat.le_one_iff_eq_zero_or_eq_one.mp op.arity_le_one with harity | harity
        · exact Opcode.instruction?_of_arity_eq_zero harity _ _
        · have hmem : address + 1 ∈ List.range' address (1 + op.arity) := by
            rw [List.mem_range'_1]
            omega
          simp only [hword, Option.bind_some, hop] at h
          rw [h (address + 1) hmem]
      simp only [hop, hoperand]

/-- Replacing a stretch by one of the same length changes only the words in it. -/
theorem get?_replaced {before dead other rest : List Word} (hlength : other.length = dead.length)
    {a : Nat} (ha : a < before.length ∨ before.length + dead.length ≤ a) :
    (ofList (before ++ other ++ rest)).get? a = (ofList (before ++ dead ++ rest)).get? a := by
  simp only [get?_eq_toList, toList_ofList, List.append_assoc]
  rcases ha with hlt | hge
  · rw [List.getElem?_append_left hlt, List.getElem?_append_left hlt]
  · have hbehind (stretch : List Word) (hstretch : stretch.length = dead.length) :
        (before ++ (stretch ++ rest))[a]? = rest[a - before.length - dead.length]? := by
      rw [List.getElem?_append_right (by omega), List.getElem?_append_right (by omega), hstretch]
    rw [hbehind other hlength, hbehind dead rfl]

end Program

namespace Machine

variable {σ : Type}

/-- The addresses that the next step reads. A halted machine reads nothing. -/
def reads (p : Program) (m : Machine σ) : List Nat :=
  match m.status with
  | .halted => []
  | .running => p.readAt m.ip

variable [Sink σ] {p q : Program} {m : Machine σ}

/-- The addresses that so many steps read. -/
def readBy (p : Program) (m : Machine σ) (n : Nat) : List Nat :=
  (List.range n).flatMap fun k => (m.after p k).reads p

theorem mem_readBy {n k a : Nat} (hk : k < n) (ha : a ∈ (m.after p k).reads p) :
    a ∈ m.readBy p n :=
  List.mem_flatMap.mpr ⟨k, List.mem_range.mpr hk, ha⟩

theorem step_congr (h : ∀ a ∈ m.reads p, q.get? a = p.get? a) : m.step q = m.step p := by
  cases hstatus : m.status with
  | halted => rw [step_of_halted hstatus, step_of_halted hstatus]
  | running =>
    rw [reads, hstatus] at h
    simp only [step, hstatus, Program.fetch_congr h]

/-- The two programs are run alike from a machine for so many steps: each step returns and logs the same,
and leaves the same machine. -/
structure RunsAlike (p q : Program) (m : Machine σ) (n : Nat) : Prop where
  steps : ∀ k < n, (m.after q k).step q = (m.after p k).step p
  machines : ∀ k ≤ n, m.after q k = m.after p k

theorem after_congr {n : Nat} (h : ∀ a ∈ m.readBy p n, q.get? a = p.get? a) :
    ∀ k ≤ n, m.after q k = m.after p k := by
  intro k hk
  induction k with
  | zero => rfl
  | succ k ih =>
    rw [after_succ, after_succ, ih (Nat.le_of_succ_le hk),
      step_congr fun a ha => h a (mem_readBy hk ha)]

theorem runsAlike_of_agree {n : Nat} (h : ∀ a ∈ m.readBy p n, q.get? a = p.get? a) :
    RunsAlike p q m n := by
  refine ⟨fun k hk => ?_, after_congr h⟩
  rw [after_congr h k (Nat.le_of_lt hk), step_congr fun a ha => h a (mem_readBy hk ha)]

/-- Words that a run never reads do not matter. From any machine, with any sink and for any number of
steps, a program that has the same words at the addresses read, or none where there is none, is run
alike. So a stretch of words that is never read may hold anything else, and so may the words behind all
the addresses that are reached. -/
theorem unread_words_free (p : Program) (σ : Type) [Sink σ] (m : Machine σ) (n : Nat) :
    (∀ q, (∀ a ∈ m.readBy p n, q.get? a = p.get? a) → RunsAlike p q m n) ∧
    (∀ before dead other rest : List Word, p.toList = before ++ dead ++ rest →
      other.length = dead.length →
      (∀ a ∈ m.readBy p n, a < before.length ∨ before.length + dead.length ≤ a) →
        RunsAlike p (.ofList (before ++ other ++ rest)) m n) ∧
    ∀ reached behind other : List Word, p.toList = reached ++ behind →
      (∀ a ∈ m.readBy p n, a < reached.length) →
        RunsAlike p (.ofList (reached ++ other)) m n := by
  refine ⟨fun q => runsAlike_of_agree, fun before dead other rest hp hlength hunread => ?_,
    fun reached behind other hp hreached => ?_⟩
  · apply runsAlike_of_agree
    intro a ha
    rw [Program.get?_replaced hlength (hunread a ha), ← hp, Program.ofList_toList]
  · apply runsAlike_of_agree
    intro a ha
    have hlt := hreached a ha
    rw [Program.get?_eq_toList, p.get?_eq_toList, Program.toList_ofList, hp,
      List.getElem?_append_left hlt, List.getElem?_append_left hlt]

/-- A jump over two words, which may be words that could not be executed. -/
theorem unread_words_free_skipped :
    RunsAlike (.ofList [1, 1, 7, 6, 1, 9, 1, 2, 15]) (.ofList [1, 1, 7, 6, 99, -3, 1, 2, 15])
      (start ({} : Transcript)) 4 ∧
    ((start ({} : Transcript)).after (.ofList [1, 1, 7, 6, 99, -3, 1, 2, 15]) 4).stack.toList = [1, 2] :=
  ⟨(unread_words_free (.ofList [1, 1, 7, 6, 1, 9, 1, 2, 15]) _ _ 4).2.1 [1, 1, 7, 6] [1, 9] [99, -3]
    [1, 2, 15] rfl rfl (by decide), by decide⟩

end Machine

end StackAssembly
