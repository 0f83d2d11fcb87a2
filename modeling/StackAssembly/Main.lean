import StackAssembly.CommandLine.Report

/-! The command line: reads the file, carries out the command and prints as it goes. -/
namespace StackAssembly.CommandLine

def usage : String := String.join
  ["Usage: [--trace] <COMMAND> <FILE>\n\n",
   "Commands:\n",
   "  lex  Print the tokens of an assembly source file\n",
   "  run  Execute a bytecode listing of integers and mnemonics\n",
   "  dis  Print the disassembly of a bytecode listing\n\n",
   "Options:\n",
   "  --trace     Log every executed instruction\n",
   "  -h, --help  Print help\n"]

def readContent (file : String) : IO (Except FileFault String) := do
  try
    return decode (← IO.FS.readBinFile file)
  catch
    | .noFileOrDirectory .. => return .error .notFound
    | .inappropriateType .. => return .error .isDirectory
    | e => return .error (.other (toString e))

def Report.print (r : Report) : IO UInt32 := do
  IO.print r.output
  IO.eprint r.errors
  return r.status.toUInt32

/-- Runs a program a slice at a time and prints after each, so that a program that never stops is
heard all the same. -/
partial def runAloud (threshold : Threshold) (p : Program) (r : Run Transcript) : IO UInt32 := do
  let r := r.advance p threshold.shows 1024
  match runReport? r with
  | some report => report.print
  | none =>
    IO.print r.machine.sink.text
    (← IO.getStdout).flush
    IO.eprint (logText r.events.toList)
    runAloud threshold p { r with machine := { r.machine with sink := {} }, events := #[] }

def carryOut (i : Invocation) : IO UInt32 := do
  let threshold := Threshold.choose i.trace (← IO.getEnv "RUST_LOG")
  match i.task threshold (← readContent i.file) with
  | .print report => report.print
  | .execute p => runAloud threshold p { machine := .start {} }

end StackAssembly.CommandLine

open StackAssembly.CommandLine in
def main (arguments : List String) : IO UInt32 := do
  match Request.ofArguments arguments with
  | .invoke i => carryOut i
  | .help => IO.print usage; return 0
  | .misuse => IO.eprint usage; return 2
