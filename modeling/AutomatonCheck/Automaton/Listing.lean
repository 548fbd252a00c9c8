import AutomatonCheck.Automaton

/-!
# Listings

The plain text of automata, alphabets and sorted lists. An automaton takes five lines,
in which every state and symbol goes by its name; an index without a name is shown as
a question mark.
-/
namespace AutomatonCheck

/-- The items in brackets, with a separator between them. -/
def bracketed (separator : String) (items : List String) : String :=
  "[" ++ separator.intercalate items ++ "]"

namespace Transition

/-- A transition by the positions of its parts. -/
def listed (t : Transition) : String :=
  "Transition \x7b source: " ++ toString t.source ++ ", symbol: " ++ toString t.symbol ++
    ", target: " ++ toString t.target ++ " \x7d"

end Transition

namespace Automaton

/-- A transition by the names of its parts, as a description writes it. -/
def showTransition (automaton : Automaton) (t : Transition) : String :=
  automaton.states.textAt t.source ++ ">" ++ automaton.alphabet.textAt t.symbol ++ ">" ++
    automaton.states.textAt t.target

/-- The five lines of an automaton's listing. -/
def listingLines (automaton : Automaton) : List String :=
  ["states: " ++ bracketed "," (automaton.states.names.map Name.text),
   "alphabet: " ++ bracketed "," (automaton.alphabet.names.map Name.text),
   "initial: " ++ automaton.states.textAt automaton.initial,
   "final: " ++ bracketed "," (automaton.finals.map automaton.states.textAt),
   "transitions: " ++ bracketed "," (automaton.transitions.map automaton.showTransition)]

def listing (automaton : Automaton) : String := "\n".intercalate automaton.listingLines

end Automaton

/-- An alphabet as the set of its quoted symbols. -/
def Alphabet.listing (alphabet : Alphabet) : String :=
  "Alphabet(\x7b" ++ ", ".intercalate (alphabet.names.map Name.listed) ++ "\x7d)"

/-- The items in increasing order; equal items keep their order. -/
def ascending {α : Type} [Ord α] (items : List α) : List α :=
  items.mergeSort fun a b => (compare a b).isLE

end AutomatonCheck
