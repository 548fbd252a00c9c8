import AutomatonCheck.Warning

/-!
# Outcomes

A check ends in a report, which classifies the automaton and holds the raised
warnings, or in a rejection, which names the one fault that ended it. `render` gives
the text of an outcome, one finding a line.
-/
namespace AutomatonCheck

inductive Classification where
  /-- Every state has exactly one successor on every symbol. -/
  | complete
  | incomplete
  deriving DecidableEq

namespace Classification

def label : Classification → String
  | .complete => "Complete"
  | .incomplete => "Incomplete"

def message : Classification → String
  | .complete => "FSA is complete"
  | .incomplete => "FSA is incomplete"

end Classification

structure Report where
  classification : Classification
  warnings : Warnings
  deriving DecidableEq

/-- The faults that end a check. -/
inductive Rejection where
  | undefinedState (name : String)
  /-- Some state is not connected to the initial state, whatever the direction of the moves. -/
  | disjointStates
  | undefinedSymbol (name : String)
  | noInitialState
  | malformedInput
  deriving DecidableEq

namespace Rejection

/-- The name that a rejection blames, and nothing if it blames none. -/
def blamed : Rejection → String
  | .undefinedState name | .undefinedSymbol name => name
  | .disjointStates | .noInitialState | .malformedInput => ""

/-- The fixed words of a message, before and behind the blamed name. -/
def wording : Rejection → String × String
  | .undefinedState _ => ("E1: A state '", "' is not in the set of states")
  | .disjointStates => ("E2: Some states are disjoint", "")
  | .undefinedSymbol _ => ("E3: A transition '", "' is not represented in the alphabet")
  | .noInitialState => ("E4: Initial state is not defined", "")
  | .malformedInput => ("E5: Input file is malformed", "")

def message (rejection : Rejection) : String :=
  rejection.wording.1 ++ rejection.blamed ++ rejection.wording.2

end Rejection

inductive Outcome where
  | accepted (report : Report)
  | rejected (rejection : Rejection)
  deriving DecidableEq

namespace Outcome

/-- The lines of an outcome's text. -/
def renderedLines : Outcome → List String
  | .accepted report =>
    let findings := report.warnings.toList.map Warning.message
    report.classification.message ::
      if findings.isEmpty then [] else "Warning:" :: findings
  | .rejected rejection => ["Error:", rejection.message]

/-- Every line of the text, the last one too, ends in a line feed. -/
def render (outcome : Outcome) : String :=
  String.join (outcome.renderedLines.map (· ++ "\n"))

end Outcome

end AutomatonCheck
