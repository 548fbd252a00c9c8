import AutomatonCheck.Description.Section
import AutomatonCheck.Outcome

/-!
# Events

While a description is read and its automaton inspected, a log is kept of what was
established and of what was found wrong. An event is one message of that log.
-/
namespace AutomatonCheck

/-- What is wrong with a malformed line. -/
inductive Flaw where
  | missing
  /-- The line lacks its opening or its closing bracket. -/
  | misshapen (line : String)
  | invalidName (name : String)
  /-- Several distinct initial states are named. -/
  | severalInitial (count : Nat)
  /-- A transition entry has more or fewer than three fields. -/
  | notThreeFields (entry : String)
  deriving DecidableEq

namespace Flaw

def message (s : Section) : Flaw → String
  | .missing => "line is missing"
  | .misshapen line => "expected `" ++ s.opening ++ "...]`, got `" ++ line ++ "`"
  | .invalidName name =>
    (if s = .alphabet then "invalid symbol `" else "invalid state name `") ++ name ++ "`"
  | .severalInitial count => "expected one initial state, got " ++ toString count
  | .notThreeFields entry => "`" ++ entry ++ "` does not consist of three fields"

end Flaw

inductive Level where
  | debug
  | trace
  deriving DecidableEq

namespace Level

def label : Level → String
  | .debug => "DEBUG"
  | .trace => "TRACE"

end Level

inductive Event where
  | parsedStates (count : Nat)
  | parsedAlphabet (size : Nat)
  | parsedFinals (count : Nat)
  | parsedTransitions (count : Nat)
  | malformed (s : Section) (flaw : Flaw)
  /-- A line follows the last section. -/
  | surplusLine
  | raised (w : Warning)
  | reached (count size : Nat)
  | connected (count size : Nat)
  /-- A state has several successors on a symbol. -/
  | conflict (state symbol count : Nat)
  /-- A state has no successor on a symbol. -/
  | gap (state symbol : Nat)
  | classified (classification : Classification) (warnings : Nat)
  deriving DecidableEq

namespace Event

def level : Event → Level
  | .parsedStates _ | .parsedAlphabet _ | .parsedFinals _ | .parsedTransitions _ => .trace
  | .reached _ _ | .connected _ _ | .gap _ _ => .trace
  | .malformed _ _ | .surplusLine | .raised _ | .conflict _ _ _ | .classified _ _ => .debug

def message : Event → String
  | .parsedStates count => "parsed " ++ toString count ++ " states"
  | .parsedAlphabet size => "parsed alphabet of size " ++ toString size
  | .parsedFinals count => "parsed " ++ toString count ++ " final states"
  | .parsedTransitions count => "parsed " ++ toString count ++ " transitions"
  | .malformed s flaw => "malformed " ++ s.label ++ " line: " ++ flaw.message s
  | .surplusLine => "input has more than " ++ toString lineCount ++ " lines"
  | .raised w => "raised warning " ++ w.label
  | .reached count size => "reached " ++ toString count ++ " of " ++ toString size ++ " states"
  | .connected count size =>
    toString count ++ " of " ++ toString size ++ " states are connected to the initial state"
  | .conflict state symbol count =>
    "state " ++ toString state ++ " has " ++ toString count ++ " successors on symbol " ++
      toString symbol
  | .gap state symbol =>
    "state " ++ toString state ++ " has no transition on symbol " ++ toString symbol
  | .classified classification warnings =>
    "automaton is " ++ classification.label ++ " with " ++ toString warnings ++ " warnings"

end Event

end AutomatonCheck
