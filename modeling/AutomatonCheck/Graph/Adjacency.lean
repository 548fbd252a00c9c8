import AutomatonCheck.Automaton
import AutomatonCheck.Indices

/-!
# Graphs by adjacency lists

A graph of size `n` has the states below `n`. Each state has a list of successors, in
an order of its own and possibly with repetitions; the lists may even name states that
the graph does not have, and such a state has no list of successors.

Two states of an automaton are linked if a transition leads from one to the other, on
any symbol and in either direction. The graph of the links decides whether an automaton
falls apart.
-/
namespace AutomatonCheck

@[ext] structure Adjacency where
  lists : List (List Nat)
  deriving DecidableEq

namespace Adjacency

def size (graph : Adjacency) : Nat := graph.lists.length

/-- The successors of a state of the graph. -/
def successors? (graph : Adjacency) (q : Nat) : Option (List Nat) := graph.lists[q]?

theorem successors?_eq_none_iff {graph : Adjacency} {q : Nat} :
    graph.successors? q = none ↔ graph.size ≤ q := by
  simp [successors?, size]

theorem subset_flatten_of_successors? {graph : Adjacency} {q : Nat} {ps : List Nat}
    (h : graph.successors? q = some ps) : ps ⊆ graph.lists.flatten := fun _ hp =>
  List.mem_flatten_of_mem (List.mem_of_getElem? h) hp

/-- The graph without edges. -/
def isolated (size : Nat) : Adjacency := ⟨List.replicate size []⟩

/-- Add an edge to the increasing successors of a state. -/
def insert? (graph : Adjacency) (q p : Nat) : Option Adjacency := do
  let neighbors ← graph.lists[q]?
  return ⟨graph.lists.set q (Indices.insert p neighbors)⟩

/-- Add the edges of a transition in both directions. -/
def link? (graph : Adjacency) (t : Transition) : Option Adjacency := do
  (← graph.insert? t.source t.target).insert? t.target t.source

/-- The links of an automaton. -/
def linksOf? (automaton : Automaton) : Option Adjacency :=
  automaton.transitions.foldlM link? (isolated automaton.size)

end Adjacency

end AutomatonCheck
