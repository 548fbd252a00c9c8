import AutomatonCheck.Graph.Adjacency

/-!
# Transition tables

The transition table of an automaton has one row a state and in it one cell a symbol;
a cell lists the targets of the transitions of that state on that symbol. A table is
built from increasing cells, but no check depends on the order within a cell.
-/
namespace AutomatonCheck

@[ext] structure TransitionTable where
  alphabetSize : Nat
  rows : List (List (List Nat))
  deriving DecidableEq

/-- One cell of a table, with its place. -/
structure TableEntry where
  state : Nat
  symbol : Nat
  targets : List Nat
  deriving DecidableEq

namespace TransitionTable

/-- The table without transitions. -/
def empty (size alphabetSize : Nat) : TransitionTable :=
  ⟨alphabetSize, List.replicate size (List.replicate alphabetSize [])⟩

/-- Enter a transition into its cell. -/
def insert? (table : TransitionTable) (t : Transition) : Option TransitionTable := do
  let row ← table.rows[t.source]?
  let cell ← row[t.symbol]?
  let entered := row.set t.symbol (Indices.insert t.target cell)
  return { table with rows := table.rows.set t.source entered }

def ofAutomaton? (automaton : Automaton) : Option TransitionTable :=
  automaton.transitions.foldlM insert? (empty automaton.size automaton.alphabet.size)

def size (table : TransitionTable) : Nat := table.rows.length

/-- The targets in one cell. -/
def destinations? (table : TransitionTable) (q a : Nat) : Option (List Nat) :=
  (table.rows[q]?).bind (·[a]?)

/-- All cells, by state and then by symbol. -/
def entries (table : TransitionTable) : List TableEntry :=
  table.rows.zipIdx.flatMap fun (row, q) => row.zipIdx.map fun (targets, a) => ⟨q, a, targets⟩

/-- The cells with several targets. -/
def conflicts (table : TransitionTable) : List TableEntry :=
  table.entries.filter fun entry => 1 < entry.targets.length

/-- The cells without a target. -/
def gaps (table : TransitionTable) : List TableEntry :=
  table.entries.filter fun entry => entry.targets.isEmpty

/-- The graph of the table: the successors of a state are the targets on all its symbols. -/
def adjacency (table : TransitionTable) : Adjacency := ⟨table.rows.map List.flatten⟩

end TransitionTable

end AutomatonCheck
