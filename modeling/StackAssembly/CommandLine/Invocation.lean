/-! Reading the arguments of the command line: a command, one file and an optional `--trace`. -/
namespace StackAssembly.CommandLine

inductive Command where
  | lex | run | dis
  deriving DecidableEq, Repr

namespace Command

def name : Command → String
  | lex => "lex"
  | run => "run"
  | dis => "dis"

def all : List Command := [lex, run, dis]

def ofName? (name : String) : Option Command := all.find? fun c => c.name == name

end Command

structure Invocation where
  command : Command
  file : String
  trace : Bool
  deriving DecidableEq, Repr

/-- What the arguments ask for. -/
inductive Request where
  | invoke (invocation : Invocation)
  | help
  /-- The arguments make no sense. -/
  | misuse
  deriving DecidableEq, Repr

namespace Request

/-- A short option `h` asks for help whatever letters are written behind it. -/
def isHelp (argument : String) : Bool := argument == "--help" || argument.startsWith "-h"

/-- Anything else that starts with a dash; a single dash is the name of a file. -/
def isOption (argument : String) : Bool := argument.startsWith "-" && argument != "-"

/-- The arguments after `--`: none of them is an option any more. -/
def afterDashes (command : Command) (trace : Bool) : Option String → List String → Request
  | some file, [] => .invoke ⟨command, file, trace⟩
  | none, [file] => if file.isEmpty then .misuse else .invoke ⟨command, file, trace⟩
  | _, _ => .misuse

/-- The arguments after the command. `before` tells that `--trace` stood before the command, and
`after` that it was seen since: it may stand once on either side. -/
def operands (command : Command) (before after : Bool) (file : Option String) :
    List String → Request
  | [] =>
    match file with
    | some file => .invoke ⟨command, file, before || after⟩
    | none => .misuse
  | argument :: rest =>
    if argument = "--trace" then
      if after then .misuse else operands command before true file rest
    else if isHelp argument then .help
    else if argument = "--" then afterDashes command (before || after) file rest
    else if isOption argument || argument.isEmpty || file.isSome then .misuse
    else operands command before after (some argument) rest

/-- The arguments after the word `help`: at most one topic, which is a command or `help` itself.
Options are no topics. -/
def helpOn : List String → Request
  | [] => .help
  | [topic] => if topic = "help" || (Command.ofName? topic).isSome then .help else .misuse
  | _ => .misuse

/-- All arguments, where `trace` tells that `--trace` has been seen. -/
def parse (trace : Bool) : List String → Request
  | [] => .misuse
  | argument :: rest =>
    if argument = "--trace" then
      if trace then .misuse else parse true rest
    else if isHelp argument then .help
    else if argument = "help" then helpOn rest
    else
      match Command.ofName? argument with
      | some command => operands command trace false none rest
      | none => .misuse

def ofArguments (arguments : List String) : Request := parse false arguments

end Request

end StackAssembly.CommandLine
