import AutomatonCheck.Automaton.Listing
import AutomatonCheck.Inspection

/-!
# Sessions

A session holds an automaton with its inspection and keeps a set of warnings between
steps. Warnings can be raised and reset, and the parts of an inspection raise theirs
into the kept set; whole validations work on a copy. All other steps are questions
about the automaton and its graphs. A step that accesses a list out of its range is
answered so and keeps the warnings as they were.
-/
namespace AutomatonCheck

structure Session where
  automaton : Automaton
  inspection : Inspection
  kept : Warnings

/-- The questions that a session answers without a change of the kept warnings. -/
inductive Question where
  | contains (w : Warning)
  | isEmpty
  | size
  /-- Validate a copy of the warnings with the graphs of the session. -/
  | run
  /-- Validate a copy of the warnings with graphs built anew. -/
  | validate
  | hasWarning (w : Warning)
  | stateCounts
  | symbolCounts
  | initial
  | finals
  | statePositions
  | symbolPositions
  | stateAt (q : Nat)
  | symbolAt (a : Nat)
  | positionOfState (name : String)
  | positionOfSymbol (name : String)
  | isFinal (q : Nat)
  | showTransition (t : Transition)
  | entries
  | destinations (q a : Nat)
  | neighbors (q : Nat)
  | successors (q : Nat)
  | walk (q : Nat)
  | walkLinks (q : Nat)
  deriving DecidableEq

inductive Step where
  | warn (w : Warning)
  | reset
  | reachability
  | disjointness
  | determinism
  | completeness (deterministic : Bool)
  | ask (question : Question)
  deriving DecidableEq

inductive Answer where
  | done
  | flag (value : Bool)
  | number (value : Nat)
  | numbers (values : List Nat)
  | number? (value : Option Nat)
  | name? (text : Option String)
  | text (value : String)
  | classified (classification : Classification)
  | rejected (rejection : Rejection)
  | outcome (value : Outcome)
  | entries (values : List TableEntry)
  /-- The size of the alphabet, the same by the transition table, and whether it is zero. -/
  | symbolCounts (declared inTable : Nat) (isEmpty : Bool)
  /-- The states of a walk in order, unless the order is open, as a set, and if they are all. -/
  | walked (order : Option (List Nat)) (set : List Nat) (all : Bool)
  /-- The set of the states of a walk, and if they are all. -/
  | reached (set : List Nat) (all : Bool)
  | outOfRange
  deriving DecidableEq

namespace Answer

/-- The answer to a step that may be out of range. -/
def inRange {α : Type} (answer : α → Answer) : Option α → Answer
  | some a => answer a
  | none => .outOfRange

/-- The answer that a stage's result gives. -/
def ofResult {α : Type} (answer : α → Answer) : Except Stop α → Answer
  | .ok a => answer a
  | .error (.rejected rejection) => .rejected rejection
  | .error .outOfRange => .outOfRange

/-- The answer that the result of a validation gives. -/
def ofValidation (result : Except Stop Report) : Answer :=
  inRange .outcome (Outcome.ofResult? result)

/-- The answer to a walk through the graph of a table. The targets in a cell have no order of
their own, so the order of the walk is open if some cell has several. -/
def ofWalk (table : TransitionTable) (origin : Nat) : Answer :=
  let order := (table.adjacency.walkFrom origin).order
  inRange (.walked (if table.conflicts.isEmpty then some order else none) (Indices.ofList order))
    (table.adjacency.reachesAll? origin)

/-- The answer to a walk along links. -/
def ofLinks (links : Adjacency) (origin : Nat) : Answer :=
  inRange (.reached (Indices.ofList (links.walkFrom origin).order)) (links.reachesAll? origin)

end Answer

namespace Session

/-- Parse a description and build the graphs of its automaton. -/
def start (lines : List String) : Stage Session := do
  let automaton ← parse lines
  let inspection ← inspect automaton
  let kept ← Stage.raised
  return ⟨automaton, inspection, kept⟩

/-- Run a part of the inspection that raises its warnings into the kept set. -/
def advance {α : Type} (session : Session) (stage : Stage α) (answer : α → Answer) :
    Answer × Session :=
  let trail := stage session.kept
  (.ofResult answer trail.result, { session with kept := trail.warnings })

def ask (session : Session) : Question → Answer
  | .contains w => .flag (session.kept.contains w)
  | .isEmpty => .flag session.kept.isEmpty
  | .size => .number session.kept.size
  | .run => .ofValidation (session.inspection.run session.kept).result
  | .validate => .ofValidation (AutomatonCheck.validate session.automaton session.kept).result
  | .hasWarning w =>
    .ofResult (fun report => .flag (report.warnings.contains w))
      (session.inspection.run session.kept).result
  | .stateCounts =>
    .numbers [session.automaton.size, session.inspection.table.size, session.inspection.links.size]
  | .symbolCounts =>
    .symbolCounts session.automaton.alphabet.size session.inspection.table.alphabetSize
      session.automaton.alphabet.isEmpty
  | .initial => .number session.automaton.initial
  | .finals => .numbers session.automaton.finals
  | .statePositions => .numbers session.automaton.states.positions
  | .symbolPositions => .numbers session.automaton.alphabet.positions
  | .stateAt q => .name? ((session.automaton.states.get? q).map Name.text)
  | .symbolAt a => .name? ((session.automaton.alphabet.get? a).map Name.text)
  | .positionOfState name => .number? (session.automaton.states.position? name)
  | .positionOfSymbol name => .number? (session.automaton.alphabet.position? name)
  | .isFinal q => .flag (session.automaton.isFinal q)
  | .showTransition t => .text (session.automaton.showTransition t)
  | .entries => .entries session.inspection.table.entries
  | .destinations q a => .inRange .numbers (session.inspection.table.destinations? q a)
  | .neighbors q => .inRange .numbers (session.inspection.links.successors? q)
  | .successors q =>
    .inRange (fun ps => .numbers (ascending ps)) (session.inspection.table.adjacency.successors? q)
  | .walk q => .ofWalk session.inspection.table q
  | .walkLinks q => .ofLinks session.inspection.links q

/-- Answer a step and update the kept warnings. -/
def step (session : Session) : Step → Answer × Session
  | .warn w => session.advance (Stage.raiseIf true w) fun _ => .done
  | .reset => (.done, { session with kept := .empty })
  | .reachability => session.advance session.inspection.reachability fun _ => .done
  | .disjointness => session.advance session.inspection.disjointness fun _ => .done
  | .determinism => session.advance session.inspection.determinism .flag
  | .completeness deterministic =>
    session.advance (session.inspection.completeness deterministic) .classified
  | .ask question => (session.ask question, session)

/-- Answer steps one after another, with the warnings kept after each. -/
def steps (session : Session) : List Step → List (Answer × Warnings)
  | [] => []
  | s :: rest =>
    let (answer, session) := session.step s
    (answer, session.kept) :: session.steps rest

end Session

end AutomatonCheck
