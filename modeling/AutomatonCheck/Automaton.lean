import AutomatonCheck.Roster

/-!
# Automata

An automaton has declared states and an alphabet, one initial state, a set of final
states and a list of transitions. States and symbols are addressed by their position
in the roster that declares them; final states are kept in increasing order.
-/
namespace AutomatonCheck

/-- A move from a source to a target state on a symbol, all three given by position. -/
structure Transition where
  source : Nat
  symbol : Nat
  target : Nat
  deriving DecidableEq

/-- Transitions are ordered by source, then symbol, then target. -/
instance : Ord Transition where
  compare a b :=
    (compare a.source b.source).then ((compare a.symbol b.symbol).then (compare a.target b.target))

structure Automaton where
  states : Roster .state
  alphabet : Alphabet
  initial : Nat
  finals : List Nat
  transitions : List Transition

namespace Automaton

def size (automaton : Automaton) : Nat := automaton.states.size

def isFinal (automaton : Automaton) (q : Nat) : Bool := automaton.finals.contains q

/-- Every index refers to a declared state or symbol. -/
structure InRange (automaton : Automaton) : Prop where
  initial_lt : automaton.initial < automaton.size
  finals_lt : ∀ q ∈ automaton.finals, q < automaton.size
  source_lt : ∀ t ∈ automaton.transitions, t.source < automaton.size
  symbol_lt : ∀ t ∈ automaton.transitions, t.symbol < automaton.alphabet.size
  target_lt : ∀ t ∈ automaton.transitions, t.target < automaton.size

/-- The names are compared as sets, all else by position. -/
instance : BEq Automaton where
  beq a b :=
    a.states == b.states && a.alphabet == b.alphabet && a.initial == b.initial &&
      a.finals == b.finals && a.transitions == b.transitions

end Automaton

end AutomatonCheck
