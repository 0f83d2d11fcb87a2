import Mathlib.Data.String.Basic
import StackAssembly.Proofs.TwoEntryPoints

/-! The lexer by byte offsets. The text stays as it is: a cursor goes over its characters with the offsets
at which they begin, and literals are cut out of the text between two offsets. Such a cut can fail, but
none ever does, and the tokens are those of the lexer that drops what it has read. -/
namespace StackAssembly

namespace Text

/-- The text between two byte offsets; none if they are in the wrong order or not between characters. -/
def slice? (text : String) (start stop : Nat) : Option String :=
  if start ≤ stop ∧ String.Pos.Raw.isValid text ⟨start⟩ ∧ String.Pos.Raw.isValid text ⟨stop⟩ then
    some (String.Pos.Raw.extract text ⟨start⟩ ⟨stop⟩)
  else none

/-- The characters, each with the offset at which it begins. -/
def indexed (offset : Nat) : List Char → List (Nat × Char)
  | [] => []
  | c :: cs => (offset, c) :: indexed (offset + c.utf8Size) cs

/-- Moves past the characters of a class, and tells the offset behind the last of them. -/
def runWhile (member : Char → Bool) : (stop : Nat) → List (Nat × Char) → Nat × List (Nat × Char)
  | stop, [] => (stop, [])
  | stop, (offset, c) :: chars =>
    if member c then runWhile member (offset + c.utf8Size) chars else (stop, (offset, c) :: chars)

theorem isValid_append (before after : List Char) :
    String.Pos.Raw.isValid (String.ofList (before ++ after)) ⟨String.utf8Len before⟩ = true := by
  rw [String.Pos.Raw.isValid_eq_true_iff, String.Pos.Raw.isValid_iff_exists_append]
  refine ⟨String.ofList before, String.ofList after, String.ofList_append, ?_⟩
  rw [String.rawEndPos, String.utf8ByteSize_ofList]

/-- Between characters a text can be cut. -/
theorem slice?_append (before text after : List Char) :
    slice? (String.ofList (before ++ text ++ after)) (String.utf8Len before)
      (String.utf8Len before + String.utf8Len text) = some (String.ofList text) := by
  have hstart := isValid_append before (text ++ after)
  have hstop := isValid_append (before ++ text) after
  rw [← List.append_assoc] at hstart
  rw [String.utf8Len_append] at hstop
  rw [slice?, if_pos ⟨Nat.le_add_right _ _, hstart, hstop⟩, String.extract_of_valid]

example : slice? "é€" 2 5 = some "€" ∧ slice? "é€" 1 5 = none ∧ slice? "é€" 2 6 = none := by
  decide +kernel

/-- A run ends at the offset behind its characters, and the cursor stands there. -/
theorem runWhile_indexed (member : Char → Bool) (offset : Nat) (cs : List Char) :
    runWhile member offset (indexed offset cs) =
      (offset + String.utf8Len (cs.takeWhile member),
        indexed (offset + String.utf8Len (cs.takeWhile member)) (cs.dropWhile member)) := by
  induction cs generalizing offset with
  | nil => rfl
  | cons c cs ih =>
    rw [indexed, runWhile]
    cases hc : member c with
    | true =>
      rw [if_pos rfl, ih, List.takeWhile_cons_of_pos hc, List.dropWhile_cons_of_pos hc,
        String.utf8Len_cons, Nat.add_comm (String.utf8Len _), Nat.add_assoc]
    | false =>
      rw [if_neg Bool.false_ne_true, List.takeWhile_cons_of_neg (by simp [hc]),
        List.dropWhile_cons_of_neg (by simp [hc])]
      rfl

theorem dropWhile_indexed (member : Char → Bool) (offset : Nat) (cs : List Char) :
    (indexed offset cs).dropWhile (fun x => member x.2) =
      indexed (offset + String.utf8Len (cs.takeWhile member)) (cs.dropWhile member) := by
  induction cs generalizing offset with
  | nil => rfl
  | cons c cs ih =>
    cases hc : member c with
    | true =>
      rw [List.takeWhile_cons_of_pos hc, List.dropWhile_cons_of_pos hc, String.utf8Len_cons,
        Nat.add_comm (String.utf8Len _), ← Nat.add_assoc, ← ih]
      exact List.dropWhile_cons_of_pos hc
    | false =>
      rw [List.takeWhile_cons_of_neg (by simp [hc]), List.dropWhile_cons_of_neg (by simp [hc])]
      exact List.dropWhile_cons_of_neg (by simp [hc])

end Text

open Text

/-- A text, the characters of it that are left to read with their offsets, and the two counters. -/
structure OffsetLexer where
  source : String
  chars : List (Nat × Char)
  line : Nat := 1
  index : Nat := 0
  finished : Bool := false
  deriving DecidableEq, Repr

namespace OffsetLexer

def ofString (source : String) : OffsetLexer := { source, chars := indexed 0 source.toList }

/-- The token whose literal lies between two offsets, and the cursor behind it. -/
def cut? (o : OffsetLexer) (numbering : Numbering) (kind : String → TokenKind) (start stop : Nat)
    (chars : List (Nat × Char)) : Option (Token × OffsetLexer) :=
  (slice? o.source start stop).map fun literal =>
    (⟨kind literal, literal, o.line, numbering.index? o.index⟩,
      { o with chars, index := numbering.next o.index })

def run? (o : OffsetLexer) (numbering : Numbering) (kind : List Char → TokenKind)
    (member : Char → Bool) (start : Nat) : Option (Token × OffsetLexer) :=
  let (stop, chars) := runWhile member start o.chars
  o.cut? numbering (fun literal => kind literal.toList) start stop chars

def name? (o : OffsetLexer) (start : Nat) : Option (Token × OffsetLexer) :=
  match runWhile Lexeme.isNameChar start o.chars with
  | (_, (offset, ':') :: chars) =>
    o.cut? .points (fun _ => .label) start (offset + ':'.utf8Size) chars
  | (stop, chars) => o.cut? .takes (fun _ => .labelName) start stop chars

/-- Reads the token at the cursor. -/
def token? (o : OffsetLexer) : Option (Token × OffsetLexer) :=
  match o.chars with
  | [] => some (⟨.endOfInput, "", o.line, none⟩, o)
  | (start, c) :: chars =>
    if c = '\x00' then some (⟨.endOfInput, "", o.line, none⟩, o)
    else if c = '#' then o.run? .unnumbered (fun _ => .comment) Lexeme.isCommentChar start
    else if Lexeme.isLineEnd c then
      some (⟨.endOfLine, "", o.line, none⟩, { o with chars, line := o.line + 1 })
    else if c.isUpper then o.run? .takes Lexeme.instructionKind Char.isUpper start
    else if c.isLower then o.name? start
    else if c.isDigit then o.run? .takes (fun _ => .int) Char.isDigit start
    else o.cut? .takes (fun _ => .illegal) start (start + c.utf8Size) chars

def nextToken? (o : OffsetLexer) : Option (Token × OffsetLexer) :=
  { o with chars := o.chars.dropWhile fun (_, c) => Lexeme.isBlank c }.token?

def pull? (o : OffsetLexer) : Lexer.Pull → Option (Option Token × OffsetLexer)
  | .next =>
    if o.finished then some (none, o)
    else o.nextToken?.map fun (t, after) =>
      (some t, { after with finished := t.kind == .endOfInput })
  | .nextToken => o.nextToken?.map fun (t, after) => (some t, after)

def pulls? (o : OffsetLexer) : List Lexer.Pull → Option (List Lexer.Pulled)
  | [] => some []
  | way :: schedule => do
    let (t, after) ← o.pull? way
    return ⟨way, t, after.line⟩ :: (← after.pulls? schedule)

end OffsetLexer

namespace Lexer

/-- The same lexer by offsets, when so much of the text has been read. -/
def withOffsets (l : Lexer) (before : List Char) : OffsetLexer where
  source := String.ofList (before ++ l.rest)
  chars := indexed (String.utf8Len before) l.rest
  line := l.line
  index := l.index
  finished := l.finished

/-- What reading a lexeme comes to, by offsets. -/
def given (l : Lexer) (before : List Char) (r : Reading) : Token × OffsetLexer :=
  (r.token l.line l.index, (l.past r).withOffsets (before ++ r.lexeme.text))

/-- A lexeme is cut out where it was read. -/
theorem cut?_withOffsets {l : Lexer} {r : Reading} (before : List Char) (kind : String → TokenKind)
    (hrest : r.lexeme.text ++ r.rest = l.rest) (hline : r.lexeme.kind ≠ .endOfLine)
    (hkind : kind (String.ofList r.lexeme.text) = r.lexeme.kind) :
    (l.withOffsets before).cut? r.numbering kind (String.utf8Len before)
        (String.utf8Len before + String.utf8Len r.lexeme.text)
        (indexed (String.utf8Len before + String.utf8Len r.lexeme.text) r.rest) =
      some (l.given before r) := by
  have hsource : (l.withOffsets before).source =
      String.ofList (before ++ r.lexeme.text ++ r.rest) := by
    rw [withOffsets, ← hrest, List.append_assoc]
  rw [OffsetLexer.cut?, hsource, slice?_append, Option.map_some, hkind]
  simp only [given, Reading.token, past, withOffsets, if_neg hline, String.utf8Len_append, ← hrest,
    List.append_assoc]

theorem run?_withOffsets {l : Lexer} (before : List Char) (numbering : Numbering)
    {kind : List Char → TokenKind} {member : Char → Bool}
    (hline : kind (l.rest.takeWhile member) ≠ .endOfLine) :
    (l.withOffsets before).run? numbering kind member (String.utf8Len before) =
      some (l.given before (Lexeme.run numbering kind member l.rest)) := by
  have hrun : runWhile member (String.utf8Len before) (l.withOffsets before).chars = _ :=
    runWhile_indexed member (String.utf8Len before) l.rest
  have hkind : kind (String.ofList (l.rest.takeWhile member)).toList =
      kind (l.rest.takeWhile member) := by rw [String.toList_ofList]
  rw [OffsetLexer.run?, hrun]
  exact cut?_withOffsets before _ (Lexeme.run_append numbering kind member l.rest) hline hkind

theorem name?_withOffsets (l : Lexer) (before : List Char) :
    (l.withOffsets before).name? (String.utf8Len before) =
      some (l.given before (Lexeme.name l.rest)) := by
  have hrun : runWhile Lexeme.isNameChar (String.utf8Len before) (l.withOffsets before).chars = _ :=
    runWhile_indexed Lexeme.isNameChar (String.utf8Len before) l.rest
  have happend := Lexeme.name_append l.rest
  rw [OffsetLexer.name?, hrun]
  by_cases hcolon : (l.rest.dropWhile Lexeme.isNameChar).head? = some ':'
  · obtain ⟨rest, hdrop⟩ := List.head?_eq_some_iff.mp hcolon
    have hname : Lexeme.name l.rest =
        ⟨⟨.label, l.rest.takeWhile Lexeme.isNameChar ++ [':']⟩, .points, rest⟩ := by
      rw [Lexeme.name, hdrop]
      rfl
    rw [hname] at happend
    have hcut := cut?_withOffsets before (fun _ => .label) happend (by simp) rfl
    rw [String.utf8Len_append, ← Nat.add_assoc] at hcut
    rw [hname, hdrop]
    exact hcut
  · have hname : Lexeme.name l.rest = ⟨⟨.labelName, l.rest.takeWhile Lexeme.isNameChar⟩, .takes,
        l.rest.dropWhile Lexeme.isNameChar⟩ := by
      unfold Lexeme.name
      split
      · rename_i hdrop
        exact absurd (congrArg List.head? hdrop) hcolon
      · rfl
    rw [hname] at happend
    have hcut := cut?_withOffsets before (fun _ => .labelName) happend (by simp) rfl
    rw [hname]
    split
    · rename_i heq
      cases hdrop : l.rest.dropWhile Lexeme.isNameChar with
      | nil =>
        rw [hdrop] at heq
        cases heq
      | cons c rest =>
        rw [hdrop] at heq hcolon
        cases heq
        exact absurd rfl hcolon
    · rename_i heq
      cases heq
      exact hcut

/-- At a lexeme its token is read, and the cursor stands behind it. -/
theorem token?_of_reading? {l : Lexer} {r : Reading} (h : Lexeme.reading? l.rest = some r)
    (before : List Char) : (l.withOffsets before).token? = some (l.given before r) := by
  obtain ⟨rest, line, index, finished⟩ := l
  cases rest with
  | nil => cases h
  | cons c cs =>
    have hchars : (Lexer.withOffsets ⟨c :: cs, line, index, finished⟩ before).chars =
        (String.utf8Len before, c) :: indexed (String.utf8Len before + c.utf8Size) cs := rfl
    -- Both ask the same of the first character, in the same order.
    simp only [Lexeme.reading?] at h
    simp only [OffsetLexer.token?, hchars]
    split at h
    · cases h
    rename_i h0
    rw [if_neg h0]
    split at h
    · rename_i hhash
      cases h
      rw [if_pos hhash]
      exact run?_withOffsets before _ (by simp)
    rename_i hhash
    rw [if_neg hhash]
    split at h
    · rename_i hline
      cases h
      rw [if_pos hline]
      simp [given, Reading.token, past, withOffsets, Numbering.index?, Numbering.next]
    rename_i hline
    rw [if_neg hline]
    split at h
    · rename_i hup
      cases h
      rw [if_pos hup]
      refine run?_withOffsets before _ fun hkind => ?_
      have hoperand := Lexeme.isOperand_instructionKind ((c :: cs).takeWhile Char.isUpper)
      rw [hkind] at hoperand
      cases hoperand
    rename_i hup
    rw [if_neg hup]
    split at h
    · rename_i hlow
      cases h
      rw [if_pos hlow]
      exact name?_withOffsets _ before
    rename_i hlow
    rw [if_neg hlow]
    split at h
    · rename_i hdigit
      cases h
      rw [if_pos hdigit]
      exact run?_withOffsets before _ (by simp)
    · rename_i hdigit
      cases h
      rw [if_neg hdigit]
      have hcut := cut?_withOffsets (l := ⟨c :: cs, line, index, finished⟩)
        (r := ⟨⟨.illegal, [c]⟩, .takes, cs⟩) before (fun _ => .illegal) rfl (by simp) rfl
      rw [String.utf8Len_cons, String.utf8Len_nil, Nat.zero_add] at hcut
      exact hcut

theorem token?_of_none {l : Lexer} (h : Lexeme.reading? l.rest = none) (before : List Char) :
    (l.withOffsets before).token? =
      some (⟨.endOfInput, "", l.line, none⟩, l.withOffsets before) := by
  obtain ⟨rest, line, index, finished⟩ := l
  cases rest with
  | nil => rfl
  | cons c cs =>
    have hread : Lexeme.read? (c :: cs) = none := Option.map_eq_none_iff.mpr h
    obtain rfl : c = '\x00' := by simpa using Lexeme.read?_eq_none_iff.mp hread
    rfl

/-- Skipping blanks moves the cursor over them. -/
theorem skip_withOffsets (l : Lexer) (before : List Char) :
    { l.withOffsets before with
      chars := (l.withOffsets before).chars.dropWhile fun (_, c) => Lexeme.isBlank c } =
      { l with rest := l.pending }.withOffsets (before ++ l.rest.takeWhile Lexeme.isBlank) := by
  have hchars := dropWhile_indexed Lexeme.isBlank (String.utf8Len before) l.rest
  simp only [withOffsets, hchars, pending, String.utf8Len_append, List.append_assoc,
    List.takeWhile_append_dropWhile]

/-- The cursor goes where the lexer goes. -/
theorem nextToken?_withOffsets (l : Lexer) (before : List Char) :
    ∃ consumed, (l.withOffsets before).nextToken? =
      some (l.nextToken.1, l.nextToken.2.withOffsets (before ++ consumed)) := by
  rw [OffsetLexer.nextToken?, skip_withOffsets, nextToken]
  cases hreading : Lexeme.reading? l.pending with
  | none => exact ⟨_, token?_of_none hreading _⟩
  | some r =>
    refine ⟨l.rest.takeWhile Lexeme.isBlank ++ r.lexeme.text, ?_⟩
    rw [token?_of_reading? hreading, ← List.append_assoc]
    rfl

theorem pull?_withOffsets (l : Lexer) (before : List Char) (way : Pull) :
    ∃ consumed, (l.withOffsets before).pull? way =
      some ((l.pull way).1, (l.pull way).2.withOffsets (before ++ consumed)) := by
  obtain ⟨consumed, hnext⟩ := l.nextToken?_withOffsets before
  cases way with
  | nextToken => exact ⟨consumed, by rw [OffsetLexer.pull?, hnext]; rfl⟩
  | next =>
    have hsame : (l.withOffsets before).finished = l.finished := rfl
    rw [OffsetLexer.pull?, pull, next, hsame]
    cases l.finished with
    | true => exact ⟨[], by rw [if_pos rfl, if_pos rfl, List.append_nil]⟩
    | false =>
      refine ⟨consumed, ?_⟩
      rw [if_neg Bool.false_ne_true, if_neg Bool.false_ne_true, hnext]
      rfl

/-- No cut ever fails. Whatever the text and however the lexer is called on it, reading by offsets gives
the same tokens and stands at the same lines. -/
theorem pulls?_withOffsets (l : Lexer) (before : List Char) (schedule : List Pull) :
    (l.withOffsets before).pulls? schedule = some (l.pulls schedule) := by
  induction schedule generalizing l before with
  | nil => rfl
  | cons way schedule ih =>
    obtain ⟨consumed, hpull⟩ := l.pull?_withOffsets before way
    rw [OffsetLexer.pulls?, hpull, pulls]
    simp only [Option.bind_eq_bind, Option.bind_some, ih]
    rfl

end Lexer

theorem OffsetLexer.pulls?_ofString (source : String) (schedule : List Lexer.Pull) :
    (ofString source).pulls? schedule = some ((Lexer.ofString source).pulls schedule) := by
  have hstart : ofString source = (Lexer.ofString source).withOffsets [] := by
    rw [ofString, Lexer.withOffsets, Lexer.ofString, List.nil_append, String.ofList_toList]
    rfl
  rw [hstart]
  exact Lexer.pulls?_withOffsets _ [] schedule

end StackAssembly
