import StackAssembly.Proofs.InstructionEffects

/-! Code of expressions. Written out with the right operand first, an expression leaves its value on top
of whatever the stack holds, wherever in a program its code stands. -/
namespace StackAssembly

/-- The integer of the range of words that differs from this one by a multiple of 2^64. -/
def Word.wrap (i : Int) : Int := i.bmod Int64.size

theorem Word.wrap_toInt (w : Word) : Word.wrap w.toInt = w.toInt := Int64.toInt_bmod_size w

namespace BinaryOp

def opcode : BinaryOp → Opcode
  | add => .iadd
  | sub => .isub
  | mul => .imul
  | lt => .ilt
  | eq => .ieq

/-- What the operator stands for, with `wrap` done to sums, differences and products. Comparisons give 1
or 0. -/
def value (wrap : Int → Int) : BinaryOp → Int → Int → Int
  | add, a, b => wrap (a + b)
  | sub, a, b => wrap (a - b)
  | mul, a, b => wrap (a * b)
  | lt, a, b => if a < b then 1 else 0
  | eq, a, b => if a = b then 1 else 0

/-- The machine's operation is the operator on the integers that its words stand for. -/
theorem toInt_apply (op : BinaryOp) (a b : Word) :
    (op.apply a b).toInt = op.value Word.wrap a.toInt b.toInt := by
  cases op with
  | add => exact Int64.toInt_add a b
  | sub => exact Int64.toInt_sub a b
  | mul => exact Int64.toInt_mul a b
  | lt =>
    simp only [apply, value, Word.ofBool, decide_eq_true_eq, Int64.lt_iff_toInt_lt]
    split <;> rfl
  | eq =>
    simp only [apply, value, Word.ofBool, beq_iff_eq, ← Int64.toInt_inj]
    split <;> rfl

theorem instruction?_opcode (op : BinaryOp) (operand : Option Word) :
    op.opcode.instruction? operand = some (.binary op) := by
  cases op <;> rfl

/-- The operators that do not compare. -/
def isArithmetic : BinaryOp → Bool
  | add | sub | mul => true
  | lt | eq => false

/-- Wrapping the operands first makes no difference to a wrapped result. -/
theorem value_wrap {op : BinaryOp} (h : op.isArithmetic = true) (a b : Int) :
    op.value Word.wrap (Word.wrap a) (Word.wrap b) = Word.wrap (op.value id a b) := by
  cases op with
  | add => exact (Int.add_bmod a b Int64.size).symm
  | sub => exact (Int.sub_bmod a b Int64.size).symm
  | mul => exact (Int.mul_bmod a b Int64.size).symm
  | lt | eq => cases h

end BinaryOp

/-- Expressions over words and variables. Every variable can be named by a word. -/
inductive Expr where
  | const (value : Word)
  | var (slot : Nat) (named : slot ≤ Word.greatest)
  | binary (op : BinaryOp) (left right : Expr)
  deriving DecidableEq, Repr

namespace Expr

def nodes : Expr → Nat
  | const _ | var _ _ => 1
  | binary _ left right => left.nodes + right.nodes + 1

/-- The left operand comes last, so that the operation finds it on top. -/
def code : Expr → List Word
  | const value => [Opcode.iconst.word, value]
  | var slot _ => [Opcode.gload.word, Int64.ofNat slot]
  | binary op left right => right.code ++ left.code ++ [op.opcode.word]

/-- The value of an expression, given those of its variables and what is done to the results of
arithmetic. -/
def value (wrap : Int → Int) (read : Nat → Int) : Expr → Int
  | const value => value.toInt
  | var slot _ => read slot
  | binary op left right => op.value wrap (left.value wrap read) (right.value wrap read)

def isArithmetic : Expr → Bool
  | const _ | var _ _ => true
  | binary op left right => op.isArithmetic && left.isArithmetic && right.isArithmetic

/-- Without comparisons it is enough to wrap once, at the end. -/
theorem value_wrap {e : Expr} (h : e.isArithmetic = true) {read : Nat → Int}
    (hread : ∀ k, Word.wrap (read k) = read k) :
    e.value Word.wrap read = Word.wrap (e.value id read) := by
  induction e with
  | const value => exact value.wrap_toInt.symm
  | var slot _ => exact (hread slot).symm
  | binary op left right ihl ihr =>
    simp only [isArithmetic, Bool.and_eq_true] at h
    obtain ⟨⟨hop, hleft⟩, hright⟩ := h
    rw [value, ihl hleft, ihr hright, BinaryOp.value_wrap hop]
    rfl

end Expr

/-- An opcode somewhere in a program is fetched with the word behind it. -/
theorem Program.fetch_of_toList_eq {p : Program} {before rest : List Word} {op : Opcode}
    {i : Instruction} (h : p.toList = before ++ op.word :: rest)
    (hi : op.instruction? rest.head? = some i) : p.fetch before.length = .instruction i := by
  have hop : p.get? before.length = some op.word := by
    rw [p.get?_eq_toList, h, List.getElem?_append_right (Nat.le_refl _), Nat.sub_self]
    rfl
  have hoperand : p.get? (before.length + 1) = rest.head? := by
    rw [p.get?_eq_toList, h, List.getElem?_append_right (Nat.le_add_right _ 1),
      Nat.add_sub_cancel_left, List.getElem?_cons_succ, List.head?_eq_getElem?]
  rw [fetch_eq_instruction_iff hop, hoperand, hi]

theorem Store.read_eq_getD (s : Store) (slot : Nat) : s.read slot = s.toList.getD slot 0 := by
  simp [read, toList]

namespace Machine

variable {σ : Type} [Sink σ] {p : Program} {m : Machine σ}

/-- So many steps lead from one machine to another, and each of them leaves it running. -/
structure Reaches (p : Program) (m : Machine σ) (n : Nat) (m' : Machine σ) : Prop where
  steps : ∀ k < n, ((m.after p k).step p).result = .ok .running
  machine : m.after p n = m'

theorem Reaches.trans {n k : Nat} {m' m'' : Machine σ} (h : Reaches p m n m')
    (h' : Reaches p m' k m'') : Reaches p m (n + k) m'' := by
  obtain ⟨hsteps, rfl⟩ := h
  have hall := forall_after_add (p := p) (P := fun m => (m.step p).result = .ok .running) (m := m) n k
  exact ⟨hall.mpr ⟨hsteps, h'.steps⟩, by rw [after_add, h'.machine]⟩

theorem reaches_of_executes {i : Instruction} {m' : Machine σ} (hrun : m.status = .running)
    (hfetch : p.fetch m.ip = .instruction i)
    (h : Executes m.ip { m with ip := m.ip + i.size } i (.ok (), m')) (hrun' : m'.status = .running) :
    Reaches p m 1 m' := by
  obtain ⟨hmachine, hresult⟩ := step_of_executes_ok hrun hfetch h
  refine ⟨fun k hk => ?_, hmachine⟩
  obtain rfl : k = 0 := Nat.lt_one_iff.mp hk
  exact hresult.trans (congrArg Except.ok hrun')

/-- The machine behind so many words of code that have pushed a value and done nothing else. -/
def pushed (m : Machine σ) (words : Nat) (value : Word) : Machine σ :=
  { m with ip := m.ip + words, stack := m.stack.push value }

/-- The operand pushed last is the left one. -/
theorem reaches_binary {op : BinaryOp} {n k : Nat} (hrun : m.status = .running)
    (hfetch : p.fetch (m.ip + n + k) = .instruction (.binary op)) (a b : Word) :
    Reaches p ((m.pushed n b).pushed k a) 1 (m.pushed (n + (k + 1)) (op.apply a b)) := by
  have hreaches := reaches_of_executes (m := (m.pushed n b).pushed k a) hrun hfetch
    (.binary (Stack.peek2?_push_push m.stack a b)) hrun
  simpa [pushed, push, pop, Instruction.size, Instruction.operand?, Nat.add_assoc] using hreaches

end Machine

namespace Expr

variable {σ : Type} [Sink σ] {p : Program} {m : Machine σ}

/-- The code of an expression pushes its value and changes nothing else. -/
theorem reaches_code (e : Expr) {before rest : List Word} (hp : p.toList = before ++ e.code ++ rest)
    (hrun : m.status = .running) (hip : m.ip = before.length) :
    ∃ v : Word, v.toInt = e.value Word.wrap (fun k => (m.store.read k).toInt) ∧
      Machine.Reaches p m e.nodes (m.pushed e.code.length v) := by
  induction e generalizing m before rest with
  | const value =>
    have hsplit : p.toList = before ++ Opcode.iconst.word :: value :: rest := by
      simpa [code] using hp
    have hfetch : p.fetch m.ip = .instruction (.const value) := by
      rw [hip]
      exact Program.fetch_of_toList_eq hsplit rfl
    exact ⟨value, rfl, Machine.reaches_of_executes hrun hfetch .const hrun⟩
  | var slot named =>
    have hsplit : p.toList = before ++ Opcode.gload.word :: Int64.ofNat slot :: rest := by
      simpa [code] using hp
    have hfetch : p.fetch m.ip = .instruction (.gload (Int64.ofNat slot)) := by
      rw [hip]
      exact Program.fetch_of_toList_eq hsplit rfl
    have hslot : Word.address? (Int64.ofNat slot) = some slot :=
      Word.address?_eq_some_iff.mpr (Word.toInt_ofNat named)
    exact ⟨_, rfl, Machine.reaches_of_executes hrun hfetch (.gload hslot) hrun⟩
  | binary op left right ihl ihr =>
    -- The code of the left operand stands behind that of the right one and runs on top of its value.
    have hpright : p.toList = before ++ right.code ++ (left.code ++ op.opcode.word :: rest) := by
      simpa [code] using hp
    have hpleft : p.toList = before ++ right.code ++ left.code ++ op.opcode.word :: rest := by
      simpa [code] using hp
    obtain ⟨b, hb, hright⟩ := ihr hpright hrun hip
    obtain ⟨a, ha, hleft⟩ := ihl (m := m.pushed right.code.length b) hpleft hrun
      (by simp [Machine.pushed, hip])
    have hfetch : p.fetch (m.ip + right.code.length + left.code.length) =
        .instruction (.binary op) := by
      rw [hip, ← List.length_append, ← List.length_append]
      exact Program.fetch_of_toList_eq hpleft (op.instruction?_opcode _)
    have hreaches := (hright.trans hleft).trans (Machine.reaches_binary hrun hfetch a b)
    refine ⟨op.apply a b, ?_, ?_⟩
    · rw [BinaryOp.toInt_apply, ha, hb]
      rfl
    · simpa [code, nodes, Nat.add_comm left.nodes] using hreaches

/-- Expression code computes the expression. Wherever its code stands in a program, from any running
machine that comes to it and whatever is on the stack, exactly one step a node is made and none fails;
then the machine is behind the code with the value on top of the stack, and otherwise as it was. A
variable is read from the store, as 0 if the store ends before it, and arithmetic wraps at every node.
Without comparisons the value is the exact one, wrapped once. -/
theorem code_computes_value (e : Expr) (p : Program) (before rest : List Word)
    (hp : p.toList = before ++ e.code ++ rest) (σ : Type) [Sink σ] (m : Machine σ)
    (hrun : m.status = .running) (hip : m.ip = before.length) :
    (∀ k < e.nodes, ((m.after p k).step p).result = .ok .running) ∧
    ∃ v : Word,
      m.after p e.nodes =
        { m with
          ip := before.length + e.code.length
          stack := .ofList (m.stack.toList ++ [v]) } ∧
      v.toInt = e.value Word.wrap (fun k => (m.store.toList.getD k 0).toInt) ∧
      (e.isArithmetic = true →
        v.toInt = Word.wrap (e.value id (fun k => (m.store.toList.getD k 0).toInt))) := by
  obtain ⟨v, hv, hreaches⟩ := e.reaches_code hp hrun hip
  simp only [Store.read_eq_getD] at hv
  refine ⟨hreaches.steps, v, ?_, hv, fun harithmetic => ?_⟩
  · have hstack : m.stack.push v = .ofList (m.stack.toList ++ [v]) := by
      rw [← Stack.toList_push]
      rfl
    rw [hreaches.machine, Machine.pushed, hip, hstack]
  · rw [hv, value_wrap harithmetic fun k => Word.wrap_toInt _]

/-- A difference times a sum that wraps, between a jump and a halt. -/
theorem code_computes_wrapped_product :
    let e : Expr := .binary .mul (.binary .sub (.var 1 (by decide)) (.const 5))
      (.binary .add (.const 9223372036854775807) (.const 2))
    let p : Program := .ofList ([7, 2] ++ e.code ++ [15])
    let m : Machine Transcript := { ip := 2, stack := .ofList [8], store := ⟨#[10, 20]⟩, sink := {} }
    (m.after p 7).ip = 13 ∧ ∃ v : Word, (m.after p 7).stack.toList = [8, v] ∧
      v.toInt = -9223372036854775793 ∧
      v.toInt = Word.wrap ((20 - 5) * (9223372036854775807 + 2)) := by
  intro e p m
  obtain ⟨-, v, hmachine, hv, hexact⟩ := code_computes_value e p [7, 2] [15] rfl Transcript m rfl rfl
  have hafter : m.after p 7 = _ := hmachine
  rw [hafter]
  exact ⟨rfl, v, rfl, hv.trans (by decide), (hexact rfl).trans (by decide)⟩

end Expr

end StackAssembly
