import StackAssembly.CommandLine.Invocation
import StackAssembly.Machine.Run
import StackAssembly.Program.Disassembly
import StackAssembly.Program.Listing
import StackAssembly.Token.Lexer

/-! What a command prints, and with which status it ends. -/
namespace StackAssembly.CommandLine

/-- Why the text of a file cannot be had. -/
inductive FileFault where
  | notFound
  | isDirectory
  | notUtf8
  | other (cause : String)
  deriving DecidableEq, Repr

def FileFault.message : FileFault → String
  | notFound => "No such file or directory (os error 2)"
  | isDirectory => "Is a directory (os error 21)"
  | notUtf8 => "stream did not contain valid UTF-8"
  | other cause => cause

/-- The text that the bytes of a file encode. -/
def decode (bytes : ByteArray) : Except FileFault String :=
  match String.fromUTF8? bytes with
  | some text => .ok text
  | none => .error .notUtf8

/-- The most detailed level that is logged; `none` is silence. -/
abbrev Threshold := Option Level

namespace Threshold

/-- Warnings are shown unless a setting says otherwise. -/
def default : Threshold := some .warn

/-- How the threshold is written as a setting. -/
def setting : Threshold → String
  | none => "off"
  | some .error => "rooster=error"
  | some .warn => "rooster=warn"
  | some .info => "rooster=info"
  | some .debug => "rooster=debug"
  | some .trace => "rooster=trace"

/-- The threshold that a setting asks for. A setting of any other form counts as none. -/
def ofSetting (text : String) : Threshold :=
  ((none :: Level.all.map some).find? fun t => setting t == text).getD default

/-- `--trace` shows everything, whatever the setting says. -/
def choose (trace : Bool) (given : Option String) : Threshold :=
  if trace then some .trace else (given.map ofSetting).getD default

def shows (threshold : Threshold) (e : Event) : Bool :=
  match threshold with
  | some level => e.level.detail ≤ level.detail
  | none => false

end Threshold

def logText (events : List Event) : String := String.join (events.map Event.text)

/-- A message in bold type, on a line of its own. -/
def failureText (message : String) : String := "\x1b[1m" ++ message ++ "\x1b[0m\n"

structure Report where
  status : Nat := 0
  output : String := ""
  errors : String := ""
  deriving DecidableEq, Repr

def Report.failure (message : String) : Report := { status := 1, errors := failureText message }

/-- Position, kind and quoted literal of a token. -/
def tokenLine (t : Token) : String :=
  let index := (t.index.map Nat.repr).getD "-"
  t.line.repr ++ ":" ++ index ++ " " ++ t.kind.name ++ " " ++ Text.quotedString t.literal ++ "\n"

/-- One line a token, whatever characters it holds. -/
def tokenReport (threshold : Threshold) (tokens : List Token) : Report where
  output := String.join (tokens.map tokenLine)
  errors := logText ((tokens.filterMap Token.event?).filter threshold.shows)

/-- What is left to do once the file of a command has been read. -/
inductive Task where
  | print (report : Report)
  | execute (p : Program)

/-- Goes on with the program that a file lists, unless the listing is faulty. -/
def Task.ofListing (file text : String) (next : Program → Task) : Task :=
  match Program.ofListing text with
  | .ok p => next p
  | .error e => .print (.failure (file ++ ": " ++ e.message))

def Invocation.task (i : Invocation) (threshold : Threshold)
    (content : Except FileFault String) : Task :=
  match content with
  | .error fault => .print (.failure (i.file ++ ": " ++ fault.message))
  | .ok text =>
    match i.command with
    | .lex => .print (tokenReport threshold (lex text))
    | .run => .ofListing i.file text .execute
    | .dis => .ofListing i.file text fun p => .print { output := p.disassembly }

/-- The report on a run that is over. Its events are those that were to be shown. -/
def runReport? (r : Run Transcript) : Option Report :=
  match r.verdict? with
  | none => none
  | some (.ok ()) =>
    some { output := r.machine.sink.text, errors := logText r.events.toList }
  | some (.error fault) =>
    some {
      status := 1
      output := r.machine.sink.text
      errors := logText r.events.toList ++ failureText fault.message }

/-- What a command comes to on what its file holds. A program that makes more than `limit` steps
gets no report. -/
def Invocation.report? (i : Invocation) (limit : Nat) (threshold : Threshold)
    (content : Except FileFault String) : Option Report :=
  match i.task threshold content with
  | .print report => some report
  | .execute p => runReport? (p.run threshold.shows limit)

end StackAssembly.CommandLine
