import Mathlib.Data.List.Chain
import StackAssembly.Proofs.TokenStream

/-! Rendering: items written one behind another, with blanks wherever two of them would run
together. Lexing gives the items back. -/
namespace StackAssembly

/-- What a source is written from. Every item comes with the proof that its text is of its class. -/
inductive Item where
  | capitals (text : List Char) (ne_nil : text ≠ []) (upper : ∀ c ∈ text, c.isUpper)
  | definition (name : List Char) (isName : Lexeme.IsName name)
  | reference (name : List Char) (isName : Lexeme.IsName name)
  | digits (text : List Char) (ne_nil : text ≠ []) (digit : ∀ c ∈ text, c.isDigit)
  | stray (c : Char) (isStray : Lexeme.IsStray c)
  | lineEnd (c : Char) (ends : c = '\n' ∨ c = '\r')
  | comment (text : List Char) (inLine : ∀ c ∈ text, c ≠ '\n' ∧ c ≠ '\x00')

/-- Blanks and line ends prolong nothing but a comment. -/
private theorem not_absorbs_space {kind : TokenKind} {c : Char} (hkind : kind ≠ .comment)
    (hc : (c = ' ' ∨ c = '\t') ∨ c = '\n' ∨ c = '\r') : ¬ kind.Absorbs c := by
  rcases hc with (rfl | rfl) | rfl | rfl <;> cases kind <;> simp [TokenKind.Absorbs] at hkind ⊢

namespace Item

def text : Item → List Char
  | capitals text .. | digits text .. | reference text .. => text
  | definition name .. => name ++ [':']
  | stray c .. | lineEnd c .. => [c]
  | comment text .. => '#' :: text

def isLineEnd : Item → Bool
  | lineEnd .. => true
  | _ => false

def isComment : Item → Bool
  | comment .. => true
  | _ => false

def isOperand : Item → Bool
  | capitals .. | reference .. | digits .. | stray .. => true
  | definition .. | lineEnd .. | comment .. => false

/-- The token of an item on a line, with so many operands before it. -/
def token (line index : Nat) (item : Item) : Token :=
  let literal := String.ofList item.text
  match item with
  | capitals text .. => ⟨Lexeme.instructionKind text, literal, line, some index⟩
  | definition .. => ⟨.label, literal, line, some index⟩
  | reference .. => ⟨.labelName, literal, line, some index⟩
  | digits .. => ⟨.int, literal, line, some index⟩
  | stray .. => ⟨.illegal, literal, line, some index⟩
  | lineEnd .. => ⟨.endOfLine, "", line, none⟩
  | comment .. => ⟨.comment, literal, line, none⟩

private def lexeme (item : Item) : Lexeme := ⟨(item.token 0 0).kind, item.text⟩

private theorem lexeme_fits (item : Item) : item.lexeme.Fits := by
  cases item with
  | capitals text hne hup => exact Lexeme.fits_capitals hne hup
  | definition name hname => exact ⟨name, hname, rfl⟩
  | reference name hname => exact hname
  | digits text hne hdigit => exact ⟨hne, hdigit⟩
  | stray c hc => exact ⟨c, rfl, hc⟩
  | lineEnd c hc => exact hc.imp (congrArg ([·])) (congrArg ([·]))
  | comment text htext => exact ⟨text, rfl, htext⟩

private theorem kind_capitals (text : List Char) :
    (Lexeme.instructionKind text).isOperand = true ∧ Lexeme.instructionKind text ≠ .endOfLine ∧
      Lexeme.instructionKind text ≠ .comment := by
  have hoperand := Lexeme.isOperand_instructionKind text
  refine ⟨hoperand, ?_, ?_⟩ <;>
  · intro hkind
    rw [hkind] at hoperand
    cases hoperand

private theorem lexeme_isOperand (item : Item) : item.lexeme.kind.isOperand = item.isOperand := by
  cases item with
  | capitals text hne hup => exact (kind_capitals text).1
  | _ => rfl

private theorem lexeme_endsLine (item : Item) :
    decide (item.lexeme.kind = .endOfLine) = item.isLineEnd := by
  cases item with
  | capitals text hne hup => exact decide_eq_false (kind_capitals text).2.1
  | _ => rfl

private theorem lexeme_kind_ne_comment {item : Item} (h : item.isComment = false) :
    item.lexeme.kind ≠ .comment := by
  cases item with
  | capitals text hne hup => exact (kind_capitals text).2.2
  | comment text htext => cases h
  | _ => simp [lexeme, token]

private theorem not_absorbs_of_isLineEnd {item : Item} (h : item.isLineEnd = true) (c : Char) :
    ¬ item.lexeme.kind.Absorbs c := by
  cases item with
  | lineEnd d hd => exact id
  | _ => cases h

private theorem text_of_isLineEnd {item : Item} (h : item.isLineEnd = true) :
    item.text = ['\n'] ∨ item.text = ['\r'] := by
  cases item with
  | lineEnd d hd => exact hd.imp (congrArg ([·])) (congrArg ([·]))
  | _ => cases h

private theorem lexeme_token (item : Item) (line index : Nat) :
    item.lexeme.token line index = item.token line index := by
  cases item with
  | capitals text hne hup =>
    have hkind := kind_capitals text
    simp [lexeme, token, Lexeme.token, hkind.1, hkind.2.1]
  | _ => rfl

end Item

/-- An item and the blanks before it. -/
structure Placed where
  gap : List Char
  item : Item

namespace Placed

/-- How one item may stand right before another: with blanks between them unless one of them is the
end of a line, and a comment only right before a line feed. -/
def Before (a b : Placed) : Prop :=
  (a.item.isLineEnd = false → b.item.isLineEnd = false → b.gap ≠ []) ∧
    (a.item.isComment = true → b.gap = [] ∧ b.item.text = ['\n'])

end Placed

/-- Items with the blanks around them. Nothing stands behind a comment at the very end. -/
structure Rendering where
  placed : List Placed
  last : List Char
  blank_gap : ∀ q ∈ placed, ∀ c ∈ q.gap, c = ' ' ∨ c = '\t'
  blank_last : ∀ c ∈ last, c = ' ' ∨ c = '\t'
  apart : placed.IsChain Placed.Before
  bare_comment : ∀ q ∈ placed.getLast?, q.item.isComment = true → last = []

namespace Rendering

def items (r : Rendering) : List Item := r.placed.map (·.item)

def text (r : Rendering) : List Char := r.placed.flatMap (fun q => q.gap ++ q.item.text) ++ r.last

/-- What follows an item begins with nothing that the item would take in. -/
private theorem stops {q : Placed} {rest : List Placed} {last : List Char}
    (hgap : ∀ p ∈ rest, ∀ c ∈ p.gap, c = ' ' ∨ c = '\t') (hlast : ∀ c ∈ last, c = ' ' ∨ c = '\t')
    (hbefore : ∀ p ∈ rest.head?, q.Before p)
    (hbare : rest = [] → q.item.isComment = true → last = []) :
    ∀ c ∈ (rest.flatMap (fun p => p.gap ++ p.item.text) ++ last).head?,
      ¬ q.item.lexeme.kind.Absorbs c := by
  intro c hc
  cases rest with
  | nil =>
    have hmem : c ∈ last := List.mem_of_mem_head? hc
    cases hcomment : q.item.isComment with
    | true => simp [hbare rfl hcomment] at hmem
    | false => exact not_absorbs_space (Item.lexeme_kind_ne_comment hcomment) (.inl (hlast c hmem))
  | cons p rest =>
    obtain ⟨hapart, hafter⟩ := hbefore p rfl
    cases hp : p.gap with
    | cons d gap =>
      have hd : c = ' ' ∨ c = '\t' := by
        obtain rfl : d = c := by simpa [hp] using hc
        exact hgap p List.mem_cons_self d (by simp [hp])
      cases hcomment : q.item.isComment with
      | true => exact absurd (hp.symm.trans (hafter hcomment).1) (List.cons_ne_nil d gap)
      | false => exact not_absorbs_space (Item.lexeme_kind_ne_comment hcomment) (.inl hd)
    | nil =>
      cases hq : q.item.isLineEnd with
      | true => exact Item.not_absorbs_of_isLineEnd hq c
      | false =>
        cases hend : p.item.isLineEnd with
        | false => exact absurd hp (hapart hq hend)
        | true =>
          rcases Item.text_of_isLineEnd hend with htext | htext
          · obtain rfl : '\n' = c := by simpa [hp, htext] using hc
            exact q.item.lexeme.kind.not_absorbs_lineFeed
          · obtain rfl : '\r' = c := by simpa [hp, htext] using hc
            cases hcomment : q.item.isComment with
            | true => exact absurd (htext.symm.trans (hafter hcomment).2) (by decide)
            | false => exact not_absorbs_space (Item.lexeme_kind_ne_comment hcomment) (by simp)

private theorem cut_placed {placed : List Placed} {last : List Char}
    (hgap : ∀ q ∈ placed, ∀ c ∈ q.gap, c = ' ' ∨ c = '\t') (hlast : ∀ c ∈ last, c = ' ' ∨ c = '\t')
    (hapart : placed.IsChain Placed.Before)
    (hbare : ∀ q ∈ placed.getLast?, q.item.isComment = true → last = []) :
    Lexeme.Cut (placed.flatMap (fun q => q.gap ++ q.item.text) ++ last)
      (placed.map (·.item.lexeme)) := by
  have isBlank_of {c : Char} (hc : c = ' ' ∨ c = '\t') : Lexeme.isBlank c := by
    simpa [Lexeme.isBlank] using hc
  induction placed with
  | nil => exact .blanks fun c hc => isBlank_of (hlast c hc)
  | cons q rest ih =>
    obtain ⟨hq, hrest⟩ := List.forall_mem_cons.mp hgap
    have htail := ih hrest hapart.tail fun p hp => hbare p (by
      cases rest with
      | nil => cases hp
      | cons r rest => simpa using hp)
    have hstop := stops (q := q) hrest hlast (by
      intro p hp
      obtain ⟨after, rfl⟩ := List.head?_eq_some_iff.mp hp
      exact (List.isChain_cons_cons.mp hapart).1) (by
      rintro rfl
      exact hbare q rfl)
    rw [List.flatMap_cons, List.append_assoc, List.append_assoc]
    exact .lexeme (fun c hc => isBlank_of (hq c hc)) q.item.lexeme_fits hstop htail

private theorem tokens_lexemes (items : List Item) :
    Lexeme.tokens 1 0 (items.map Item.lexeme) =
      items.mapIdx (fun i item => item.token (1 + (items.take i).countP Item.isLineEnd)
        ((items.take i).countP Item.isOperand)) ++
      [⟨.endOfInput, "", 1 + items.countP Item.isLineEnd, none⟩] := by
  have hends : (fun x : Lexeme => decide (x.kind = .endOfLine)) ∘ Item.lexeme = Item.isLineEnd :=
    funext Item.lexeme_endsLine
  have hoperand : (fun x : Lexeme => x.kind.isOperand) ∘ Item.lexeme = Item.isOperand :=
    funext Item.lexeme_isOperand
  rw [Lexeme.tokens_eq_mapIdx]
  simp only [← List.map_take, List.countP_map, hends, hoperand, Nat.zero_add]
  congr 1
  apply List.ext_getElem?
  intro i
  simp only [List.getElem?_mapIdx, List.getElem?_map, Option.map_map]
  congr 1
  funext item
  exact item.lexeme_token _ _

/-- Lexing undoes rendering: one token an item, in order, on the line that the line ends before it
make and with the operands before it as its position, and then the end of input. A run of capitals
is an instruction if it is a mnemonic. -/
theorem lex_text (r : Rendering) :
    lex (String.ofList r.text) =
      r.items.mapIdx (fun i item => item.token (1 + (r.items.take i).countP Item.isLineEnd)
        ((r.items.take i).countP Item.isOperand)) ++
      [⟨.endOfInput, "", 1 + r.items.countP Item.isLineEnd, none⟩] ∧
    ∀ text : List Char,
      (∀ op, Lexeme.instructionKind text = .instruction op ↔ text = op.mnemonic.toList) ∧
      (Lexeme.instructionKind text = .unknownInstruction ↔
        ∀ op : Opcode, text ≠ op.mnemonic.toList) := by
  have hcut := cut_placed r.blank_gap r.blank_last r.apart r.bare_comment
  refine ⟨?_, fun text => ⟨fun op => Lexeme.instructionKind_eq_instruction_iff,
    Lexeme.instructionKind_eq_unknown_iff⟩⟩
  rw [lex_eq_tokens, String.toList_ofList, text, hcut.scan_eq, ← tokens_lexemes, items, List.map_map]
  rfl

/-- A label, a jump to it with a comment behind, and a stray character on a line of its own. -/
def again : Rendering where
  placed := [
    ⟨[], .definition ['l', 'o', 'o', 'p'] ⟨'l', ['o', 'o', 'p'], rfl, by decide, by simp⟩⟩,
    ⟨[' '], .capitals ['J', 'M', 'P'] (by simp) (by simp)⟩,
    ⟨[' '], .reference ['l', 'o', 'o', 'p'] ⟨'l', ['o', 'o', 'p'], rfl, by decide, by simp⟩⟩,
    ⟨['\t'], .comment [' ', 'a', 'g', 'a', 'i', 'n'] (by simp)⟩,
    ⟨[], .lineEnd '\n' (by decide)⟩,
    ⟨[], .stray '@' ⟨by decide, by decide, by decide⟩⟩]
  last := []
  blank_gap := by simp
  blank_last := by simp
  apart := by simp [Placed.Before, Item.isLineEnd, Item.isComment, Item.text]
  bare_comment := by simp

theorem lex_text_again : lex "loop: JMP loop\t# again\n@" =
    [⟨.label, "loop:", 1, some 0⟩, ⟨.instruction .jmp, "JMP", 1, some 0⟩,
      ⟨.labelName, "loop", 1, some 1⟩, ⟨.comment, "# again", 1, none⟩, ⟨.endOfLine, "", 1, none⟩,
      ⟨.illegal, "@", 2, some 2⟩, ⟨.endOfInput, "", 2, none⟩] := by
  have htext : String.ofList again.text = "loop: JMP loop\t# again\n@" := by decide
  rw [← htext, (lex_text again).1]
  decide

end Rendering

end StackAssembly
