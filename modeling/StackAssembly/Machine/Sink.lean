/-! Where printed text goes. A sink may refuse a write or a flush; what it took before stays
written. -/
namespace StackAssembly

class Sink (σ : Type) where
  /-- Takes the text, or as much of it as it can before it refuses with a cause. -/
  write : σ → String → Except String Unit × σ
  flush : σ → Except String Unit × σ

/-- Writes a line and flushes it, unless the write was refused already. -/
def Sink.printLine {σ : Type} [Sink σ] (sink : σ) (text : String) : Except String Unit × σ :=
  match Sink.write sink (text ++ "\n") with
  | (.ok (), sink) => Sink.flush sink
  | (.error cause, sink) => (.error cause, sink)

/-- A sink that takes everything. -/
structure Transcript where
  text : String := ""
  deriving DecidableEq, Repr

instance : Sink Transcript where
  write t text := (.ok (), ⟨t.text ++ text⟩)
  flush t := (.ok (), t)

/-- A sink with room for so many more characters and so many more flushes; `none` is no limit.
Only ASCII text is printed, so characters count as bytes. -/
structure LimitedSink where
  written : String := ""
  room : Option Nat := none
  /-- A stalled sink takes nothing once it is full, and leaves it to the writer to notice. -/
  stalls : Bool := false
  flushes : Option Nat := none
  deriving DecidableEq, Repr

namespace LimitedSink

def fullCause (s : LimitedSink) : String :=
  if s.stalls then "failed to write whole buffer" else "sink full"

def write (s : LimitedSink) (text : String) : Except String Unit × LimitedSink :=
  match s.room with
  | none => (.ok (), { s with written := s.written ++ text })
  | some room =>
    if text.length ≤ room then
      (.ok (), { s with written := s.written ++ text, room := some (room - text.length) })
    else
      (.error s.fullCause,
        { s with
          written := s.written ++ String.ofList (text.toList.take room)
          room := some 0 })

def flush (s : LimitedSink) : Except String Unit × LimitedSink :=
  match s.flushes with
  | none => (.ok (), s)
  | some 0 => (.error "flush refused", s)
  | some (n + 1) => (.ok (), { s with flushes := some n })

instance : Sink LimitedSink := ⟨write, flush⟩

end LimitedSink

end StackAssembly
