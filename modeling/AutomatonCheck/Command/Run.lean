import AutomatonCheck.Command.Arguments
import AutomatonCheck.Inspection
import AutomatonCheck.Text.Lines

/-!
# Running the command

A host is what the command runs on: it opens inputs, creates outputs and takes notes
for the user. A created output is empty, whatever it held before.

The command reads its arguments, reads and checks the input, and only then creates the
output and writes the rendered outcome to it. It succeeds whether or not the automaton
is valid; it fails if the input cannot be read or the output cannot be written. The
verbosity settles which events of the check are noted and has no influence on the
result. No notes are taken of the command's own doings: of the level it logs at, of the
input it reads and the output it has written, and of the time that the check has taken.
-/
namespace AutomatonCheck

/-- The operations of a host in a monad `m`, with its open outputs of type `Sink`. -/
structure Host (m : Type → Type) (Sink : Type) where
  /-- The source of an input, if it can be opened. -/
  openInput : Endpoint → m (Option Source)
  /-- A new or emptied output, if it can be created. -/
  createOutput : Endpoint → m (Option Sink)
  /-- Append a text to an output; whether that succeeded. -/
  append : Sink → String → m Bool
  /-- Tell the user something besides the result. -/
  note : String → m Unit

inductive Exit where
  | success
  | failure
  | usage
  deriving DecidableEq

namespace Exit

def code : Exit → Nat
  | .success => 0
  | .failure => 1
  | .usage => 2

end Exit

def helpText : String :=
  "Validates a finite-state automaton description and reports whether it is complete\n" ++
  "\n" ++
  "Usage: fsa [OPTIONS] [INPUT]\n" ++
  "\n" ++
  "Arguments:\n" ++
  "  [INPUT]  file to read the five line description from, `-` for stdin [default: fsa.txt]\n" ++
  "\n" ++
  "Options:\n" ++
  "  -o, --output <OUTPUT>          file to write the result to, `-` for stdout " ++
  "[default: result.txt]\n" ++
  "  -v, --verbosity[=<verbosity>]  [possible values: info, debug, trace]\n" ++
  "  -h, --help                     Print help\n"

/-- Whether events of a level are noted. -/
def Verbosity.shows : Verbosity → Level → Bool
  | .info, _ => false
  | .debug, level => level = .debug
  | .trace, _ => true

/-- The notes on the events of a check. The command's own doings are not among them. -/
def notes (verbosity : Verbosity) (events : List Event) : List String :=
  (events.filter fun event => verbosity.shows event.level).map fun event =>
    event.level.label ++ " " ++ event.message

section

variable {m : Type → Type} {Sink : Type} [Monad m]

/-- Write a text to a new or emptied output. -/
def deliver (host : Host m Sink) (output : Endpoint) (text : String) : m Exit := do
  match ← host.createOutput output with
  | none => return .failure
  | some sink =>
    if ← host.append sink text then return .success else return .failure

/-- Check the input and deliver the rendered outcome. -/
def Invocation.run (invocation : Invocation) (host : Host m Sink) : m Exit := do
  match (← host.openInput invocation.input).bind readLines? with
  | none => return .failure
  | some lines =>
    let trail := check lines
    (notes invocation.verbosity trail.events).forM host.note
    match Outcome.ofResult? trail.result with
    | none => return .failure
    | some outcome => deliver host invocation.output outcome.render

/-- Run the command with its arguments, given how they are read. -/
def runCommandWith (read : List String → Except UsageError Request) (host : Host m Sink)
    (arguments : List String) : m Exit := do
  match read arguments with
  | .error error =>
    host.note error.message
    return .usage
  | .ok .help => deliver host .standard helpText
  | .ok (.check invocation) => invocation.run host

def runCommand (host : Host m Sink) (arguments : List String) : m Exit :=
  runCommandWith Request.ofArguments host arguments

end

end AutomatonCheck
