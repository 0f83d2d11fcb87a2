import StackAssembly.Machine.Sink

/-! How a limited sink comes to take a text. The text is offered piece by piece, a few characters are
taken at a time, and the rest is offered again until the sink refuses or takes nothing. What it holds in
the end is the same as if the whole text had been written at once. -/
namespace StackAssembly.LimitedSink

/-- There is room for so many characters. -/
def HasRoom (s : LimitedSink) (n : Nat) : Prop := ∀ room, s.room = some room → n ≤ room

/-- The sink with as much of the text as it has room for. -/
def took (s : LimitedSink) (text : List Char) : LimitedSink :=
  match s.room with
  | none => { s with written := s.written ++ String.ofList text }
  | some room =>
    { s with
      written := s.written ++ String.ofList (text.take room)
      room := some (room - text.length) }

/-- Only a sink with limited room can lack it. -/
theorem exists_room_of_not_hasRoom {s : LimitedSink} {n : Nat} (h : ¬ s.HasRoom n) :
    ∃ room, s.room = some room ∧ room < n := by
  cases hroom : s.room with
  | none => exact absurd (fun room h => by rw [hroom] at h; cases h) h
  | some room => exact ⟨room, rfl, Nat.lt_of_not_le fun hle => h fun r hr => by
      rw [hroom] at hr
      cases hr
      exact hle⟩

theorem room_took (s : LimitedSink) (text : List Char) :
    (s.took text).room = s.room.map (· - text.length) := by
  unfold took
  split <;> simp [*]

theorem fullCause_took (s : LimitedSink) (text : List Char) :
    (s.took text).fullCause = s.fullCause := by
  unfold took
  split <;> rfl

theorem took_of_full {s : LimitedSink} (h : s.room = some 0) (text : List Char) : s.took text = s := by
  obtain ⟨written, room, stalls, flushes⟩ := s
  cases h
  simp [took]

theorem took_nil (s : LimitedSink) : s.took [] = s := by
  obtain ⟨written, room, stalls, flushes⟩ := s
  cases room <;> simp [took]

theorem took_append (s : LimitedSink) (front rest : List Char) :
    s.took (front ++ rest) = (s.took front).took rest := by
  obtain ⟨written, room, stalls, flushes⟩ := s
  cases room with
  | none => simp [took, String.append_assoc]
  | some room => simp [took, List.take_append, String.append_assoc, Nat.sub_sub]

theorem hasRoom_took_iff {s : LimitedSink} {text : List Char} (h : s.HasRoom text.length) (n : Nat) :
    (s.took text).HasRoom n ↔ s.HasRoom (text.length + n) := by
  obtain ⟨written, room, stalls, flushes⟩ := s
  cases room with
  | none => simp [took, HasRoom]
  | some room =>
    have hle : text.length ≤ room := h room rfl
    simp only [took, HasRoom, Option.some.injEq, forall_eq']
    omega

theorem write_of_hasRoom {s : LimitedSink} {text : List Char} (h : s.HasRoom text.length) :
    s.write (String.ofList text) = (.ok (), s.took text) := by
  obtain ⟨written, room, stalls, flushes⟩ := s
  cases room with
  | none => rfl
  | some room =>
    have hle : text.length ≤ room := h room rfl
    simp [write, took, hle, List.take_of_length_le hle]

theorem write_of_not_hasRoom {s : LimitedSink} {text : List Char} (h : ¬ s.HasRoom text.length) :
    s.write (String.ofList text) = (.error s.fullCause, s.took text) := by
  obtain ⟨room, hroom, hlt⟩ := exists_room_of_not_hasRoom h
  have hfull : room - text.length = 0 := by omega
  simp [write, took, hroom, Nat.not_le.mpr hlt, hfull]

/-- A text is written like its beginning and then its rest. -/
theorem write_append (s : LimitedSink) (front rest : List Char) :
    s.write (String.ofList (front ++ rest)) =
      match s.write (String.ofList front) with
      | (.ok (), s) => s.write (String.ofList rest)
      | (.error cause, s) => (.error cause, s) := by
  by_cases hfront : s.HasRoom front.length
  · rw [write_of_hasRoom hfront]
    change _ = (s.took front).write (String.ofList rest)
    by_cases hrest : s.HasRoom (front.length + rest.length)
    · rw [write_of_hasRoom ((hasRoom_took_iff hfront _).mpr hrest), ← took_append]
      exact write_of_hasRoom (by rwa [List.length_append])
    · rw [write_of_not_hasRoom (mt (hasRoom_took_iff hfront _).mp hrest), ← took_append, fullCause_took]
      exact write_of_not_hasRoom (by rwa [List.length_append])
  · -- The beginning has filled the sink, so that the rest would change nothing.
    obtain ⟨room, hroom, hlt⟩ := exists_room_of_not_hasRoom hfront
    have hfull : (s.took front).room = some 0 := by
      rw [room_took, hroom, Option.map_some, Nat.sub_eq_zero_of_le (Nat.le_of_lt hlt)]
    have hwhole : ¬ s.HasRoom (front ++ rest).length := fun h => by
      have hle := h room hroom
      rw [List.length_append] at hle
      omega
    rw [write_of_not_hasRoom hfront, write_of_not_hasRoom hwhole, took_append, took_of_full hfull]

/-- How many of the characters offered are taken: no more than `most`, and no more than there is room
for. -/
def share (most : Nat) (s : LimitedSink) (text : List Char) : Nat :=
  match s.room with
  | none => min most text.length
  | some room => min most (min room text.length)

/-- A single offer. A full sink refuses it, or takes nothing and does not say so. -/
def offer (most : Nat) (s : LimitedSink) (text : List Char) : Except String Nat × LimitedSink :=
  if s.room = some 0 ∧ s.stalls = false then (.error "sink full", s)
  else (.ok (s.share most text), s.took (text.take (s.share most text)))

/-- Offers what is left of a text until nothing is. A writer gives up when nothing is taken. -/
def writeAll (most : Nat) (s : LimitedSink) (text : List Char) : Except String Unit × LimitedSink :=
  if text = [] then (.ok (), s)
  else
    match s.offer most text with
    | (.error cause, s) => (.error cause, s)
    | (.ok 0, s) => (.error "failed to write whole buffer", s)
    | (.ok (n + 1), s) => writeAll most s (text.drop (n + 1))
termination_by text.length
decreasing_by
  rename_i hne
  have hpos := List.length_pos_iff.mpr hne
  rw [List.length_drop]
  omega

/-- Writes one piece after the other, up to the first that is refused. -/
def writePieces (most : Nat) (s : LimitedSink) : List (List Char) → Except String Unit × LimitedSink
  | [] => (.ok (), s)
  | piece :: rest =>
    match s.writeAll most piece with
    | (.ok (), s) => s.writePieces most rest
    | (.error cause, s) => (.error cause, s)

theorem hasRoom_share (most : Nat) (s : LimitedSink) (text : List Char) :
    s.HasRoom (text.take (s.share most text)).length := by
  intro room hroom
  rw [List.length_take, share, hroom]
  simp only
  omega

theorem share_eq_zero {most : Nat} (hmost : 0 < most) {s : LimitedSink} {text : List Char}
    (htext : text ≠ []) (h : s.share most text = 0) : s.room = some 0 := by
  have hpos := List.length_pos_iff.mpr htext
  unfold share at h
  split at h
  · omega
  · rename_i room hroom
    rw [hroom]
    congr 1
    omega

/-- A full sink, written to at all, fails at once and stays as it is. -/
theorem write_of_full {s : LimitedSink} (hroom : s.room = some 0) {text : List Char}
    (htext : text ≠ []) : s.write (String.ofList text) = (.error s.fullCause, s) := by
  have hpos := List.length_pos_iff.mpr htext
  have hlacks : ¬ s.HasRoom text.length := fun h => Nat.not_le.mpr hpos (h 0 hroom)
  rw [write_of_not_hasRoom hlacks, took_of_full hroom]

/-- Offering a text again and again writes it. -/
theorem writeAll_eq_write {most : Nat} (hmost : 0 < most) (s : LimitedSink) (text : List Char) :
    s.writeAll most text = s.write (String.ofList text) := by
  fun_induction writeAll most s text with
  | case1 s => rw [write_of_hasRoom (fun _ _ => Nat.zero_le _), took_nil]
  | case2 s text hne cause s' hoffer =>
    unfold offer at hoffer
    split at hoffer
    · rename_i hfull
      cases hoffer
      rw [write_of_full hfull.1 hne, fullCause, hfull.2]
      rfl
    · cases hoffer
  | case3 s text hne s' hoffer =>
    unfold offer at hoffer
    split at hoffer
    · cases hoffer
    · rename_i hstalls
      obtain ⟨hshare, rfl⟩ := Prod.mk.inj hoffer
      have hshare := Except.ok.inj hshare
      have hroom := share_eq_zero hmost hne hshare
      have hstalls : s.stalls = true := by simpa [hroom] using hstalls
      rw [write_of_full hroom hne, fullCause, hstalls, took_of_full hroom]
      rfl
  | case4 s text hne n s' hoffer ih =>
    unfold offer at hoffer
    split at hoffer
    · cases hoffer
    · obtain ⟨hshare, rfl⟩ := Prod.mk.inj hoffer
      have hshare : s.share most text = n + 1 := Except.ok.inj hshare
      have hroom := hasRoom_share most s text
      have htext := write_append s (text.take (n + 1)) (text.drop (n + 1))
      rw [hshare] at ih hroom ⊢
      rw [List.take_append_drop, write_of_hasRoom hroom] at htext
      rw [ih, htext]

/-- However a text is cut into pieces and however few characters are taken at a time, the sink ends as if
the text had been written at once. -/
theorem writePieces_eq_write {most : Nat} (hmost : 0 < most) (s : LimitedSink)
    (pieces : List (List Char)) :
    s.writePieces most pieces = s.write (String.ofList pieces.flatten) := by
  induction pieces generalizing s with
  | nil => rw [List.flatten_nil, write_of_hasRoom (fun _ _ => Nat.zero_le _), took_nil, writePieces]
  | cons piece rest ih =>
    rw [writePieces, writeAll_eq_write hmost, List.flatten_cons, write_append]
    split
    · exact ih _
    · rfl

end StackAssembly.LimitedSink
