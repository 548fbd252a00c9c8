/-!
# Command-line arguments

The command takes an input, an output, a verbosity and a request for help, read from
left to right. The first thing wrong ends the reading with its error, and a request for
help that comes before any error is granted.

A word that starts with a dash is an option, except for the dash alone, which names a
standard stream, and for all words after a pair of dashes. Short options can share a
word. The output is what follows its option in the same word, an equals sign apart, or
else the next word; the level of verbosity can only follow an equals sign.
-/
namespace AutomatonCheck

/-- Where a description comes from, or a result goes to. -/
inductive Endpoint where
  | standard
  | file (path : String)
  deriving DecidableEq

namespace Endpoint

def ofText (text : String) : Endpoint := if text = "-" then .standard else .file text

end Endpoint

inductive Verbosity where
  | info
  | debug
  | trace
  deriving DecidableEq

namespace Verbosity

def ofText? (text : String) : Option Verbosity :=
  if text = "info" then some .info
  else if text = "debug" then some .debug
  else if text = "trace" then some .trace
  else none

end Verbosity

/-- What the command is asked to check, where the result goes and how much is logged. -/
structure Invocation where
  input : Endpoint
  output : Endpoint
  verbosity : Verbosity
  deriving DecidableEq

inductive Request where
  | help
  | check (invocation : Invocation)
  deriving DecidableEq

inductive UsageError where
  | unknownOption (word : String)
  | repeatedOption (name : String)
  | missingValue (name : String)
  /-- An option that takes no value has one. -/
  | surplusValue (name : String)
  | unknownLevel (text : String)
  /-- A second input. -/
  | surplusInput (word : String)
  deriving DecidableEq

namespace UsageError

def message : UsageError → String
  | .unknownOption word => "unexpected option '" ++ word ++ "'"
  | .repeatedOption name => "the option '" ++ name ++ "' is given more than once"
  | .missingValue name => "the option '" ++ name ++ "' lacks its value"
  | .surplusValue name => "the option '" ++ name ++ "' takes no value"
  | .unknownLevel text => "'" ++ text ++ "' is no level of verbosity"
  | .surplusInput word => "unexpected argument '" ++ word ++ "'"

end UsageError

/-- What the arguments read so far ask for. -/
structure Draft where
  input : Option String
  output : Option String
  verbosity : Option Verbosity
  deriving DecidableEq

namespace Draft

def empty : Draft := ⟨none, none, none⟩

/-- Fill in what the arguments leave open. -/
def complete (draft : Draft) : Invocation where
  input := .ofText (draft.input.getD "fsa.txt")
  output := .ofText (draft.output.getD "result.txt")
  verbosity := draft.verbosity.getD .info

def setInput (draft : Draft) (word : String) : Except UsageError Draft :=
  if draft.input.isSome then .error (.surplusInput word)
  else .ok { draft with input := some word }

def setOutput (draft : Draft) (value : String) : Except UsageError Draft :=
  if draft.output.isSome then .error (.repeatedOption "--output")
  else .ok { draft with output := some value }

/-- Set the verbosity, to the level that stands for no level if there is none. -/
def setVerbosity (draft : Draft) (level? : Option String) : Except UsageError Draft :=
  match Verbosity.ofText? (level?.getD "info") with
  | none => .error (.unknownLevel (level?.getD ""))
  | some level =>
    if draft.verbosity.isSome then .error (.repeatedOption "--verbosity")
    else .ok { draft with verbosity := some level }

end Draft

/-- How the reading goes on after an option. -/
inductive Continuation where
  | helpRequested
  | nextWord (draft : Draft)
  /-- The next word is the output. -/
  | outputExpected (draft : Draft)
  deriving DecidableEq

/-- Split a long option at its first equals sign. -/
def splitOption : List Char → List Char × Option (List Char)
  | [] => ([], none)
  | '=' :: value => ([], some value)
  | c :: rest =>
    let (name, value) := splitOption rest
    (c :: name, value)

/-- Read a long option, given without its dashes. -/
def readLong (draft : Draft) (text : List Char) : Except UsageError Continuation :=
  let (name, value) := splitOption text
  let value := value.map String.ofList
  match String.ofList name with
  | "help" => if value.isSome then .error (.surplusValue "--help") else .ok .helpRequested
  | "output" =>
    match value with
    | none => .ok (.outputExpected draft)
    | some path => .nextWord <$> draft.setOutput path
  | "verbosity" => .nextWord <$> draft.setVerbosity value
  | _ => .error (.unknownOption (String.ofList ('-' :: '-' :: text)))

/-- Read the short options that share a word, given without its dash. -/
def readShort (draft : Draft) : List Char → Except UsageError Continuation
  | [] => .ok (.nextWord draft)
  | 'h' :: _ => .ok .helpRequested
  | ['o'] => .ok (.outputExpected draft)
  | 'o' :: '=' :: path => .nextWord <$> draft.setOutput (String.ofList path)
  | 'o' :: path => .nextWord <$> draft.setOutput (String.ofList path)
  | 'v' :: '=' :: level => .nextWord <$> draft.setVerbosity (some (String.ofList level))
  | 'v' :: rest =>
    match draft.setVerbosity none with
    | .error e => .error e
    | .ok draft => readShort draft rest
  | c :: _ => .error (.unknownOption (String.ofList ['-', c]))

/-- Whether a word is an option or the pair of dashes, and so no value. -/
def isDashed (word : String) : Bool :=
  match word.toList with
  | '-' :: _ :: _ => true
  | _ => false

/-- Read words among which there are no options. -/
def readInputs (draft : Draft) : List String → Except UsageError Request
  | [] => .ok (.check draft.complete)
  | word :: rest =>
    match draft.setInput word with
    | .error e => .error e
    | .ok draft => readInputs draft rest

def readOption (draft : Draft) (word : String) : Except UsageError Continuation :=
  match word.toList with
  | '-' :: '-' :: text => readLong draft text
  | '-' :: c :: text => readShort draft (c :: text)
  | _ => .nextWord <$> draft.setInput word

def readWords (draft : Draft) : List String → Except UsageError Request
  | [] => .ok (.check draft.complete)
  | word :: rest =>
    if word = "--" then readInputs draft rest
    else
      match readOption draft word with
      | .error e => .error e
      | .ok .helpRequested => .ok .help
      | .ok (.nextWord draft) => readWords draft rest
      | .ok (.outputExpected draft) =>
        match rest with
        | [] => .error (.missingValue "--output")
        | path :: rest =>
          if isDashed path then .error (.missingValue "--output")
          else
            match draft.setOutput path with
            | .error e => .error e
            | .ok draft => readWords draft rest

namespace Request

def ofArguments (arguments : List String) : Except UsageError Request :=
  readWords .empty arguments

end Request

end AutomatonCheck
