import AutomatonCheck.Description.Parse
import AutomatonCheck.Graph.TransitionTable
import AutomatonCheck.Graph.Traversal
import AutomatonCheck.Stage

/-!
# Inspecting an automaton and checking a description

An inspection holds an automaton's size and initial state together with its two
graphs. It has four parts: reachability along transitions, connectedness along links,
determinism and completeness. Only a state that is not even connected to the initial
state rejects the automaton; an unreachable state and a conflict raise warnings, and a
gap or a conflict makes the automaton incomplete.

A check parses a description and inspects the automaton it describes, from no warnings
at the start.
-/
namespace AutomatonCheck

structure Inspection where
  size : Nat
  initial : Nat
  table : TransitionTable
  links : Adjacency
  deriving DecidableEq

namespace Inspection

def ofAutomaton? (automaton : Automaton) : Option Inspection := do
  let table ← TransitionTable.ofAutomaton? automaton
  let links ← Adjacency.linksOf? automaton
  return ⟨automaton.size, automaton.initial, table, links⟩

/-- Warn if some state cannot be reached from the initial state. -/
def reachability (inspection : Inspection) : Stage Unit := do
  let count ← Stage.inRange (inspection.table.adjacency.reachCount? inspection.initial)
  Stage.record [.reached count inspection.size]
  Stage.raiseIf (count < inspection.size) .unreachableStates

/-- Reject the automaton if some state is not connected to the initial state. -/
def disjointness (inspection : Inspection) : Stage Unit := do
  let count ← Stage.inRange (inspection.links.reachCount? inspection.initial)
  Stage.record [.connected count inspection.size]
  if count < inspection.size then Stage.reject .disjointStates else pure ()

/-- Whether no cell has several targets; warn otherwise. -/
def determinism (inspection : Inspection) : Stage Bool := do
  let conflicts := inspection.table.conflicts
  Stage.record (conflicts.map fun entry => .conflict entry.state entry.symbol entry.targets.length)
  Stage.raiseIf (!conflicts.isEmpty) .nondeterministic
  return conflicts.isEmpty

/-- A deterministic automaton is complete if no cell is without a target. -/
def completeness (inspection : Inspection) (deterministic : Bool) : Stage Classification := do
  let gaps := inspection.table.gaps
  Stage.record (gaps.map fun entry => .gap entry.state entry.symbol)
  return if deterministic && gaps.isEmpty then .complete else .incomplete

/-- All four parts in order. -/
def run (inspection : Inspection) : Stage Report := do
  inspection.reachability
  inspection.disjointness
  let deterministic ← inspection.determinism
  let classification ← inspection.completeness deterministic
  let warnings ← Stage.raised
  Stage.record [.classified classification warnings.size]
  return ⟨classification, warnings⟩

end Inspection

/-- Build an automaton's graphs. -/
def inspect (automaton : Automaton) : Stage Inspection :=
  Stage.inRange (Inspection.ofAutomaton? automaton)

/-- Inspect an automaton, starting from the warnings raised so far. -/
def validate (automaton : Automaton) : Stage Report := do
  (← inspect automaton).run

def checking (lines : List String) : Stage Report := do
  validate (← parse lines)

/-- What the check of a description leaves behind. -/
def check (lines : List String) : Trail Report := checking lines .empty

/-- The outcome of a result, unless an access was out of range. -/
def Outcome.ofResult? : Except Stop Report → Option Outcome
  | .ok report => some (.accepted report)
  | .error (.rejected rejection) => some (.rejected rejection)
  | .error .outOfRange => none

end AutomatonCheck
