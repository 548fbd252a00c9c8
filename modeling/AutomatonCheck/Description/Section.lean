/-!
# Sections of a description

A description has five lines, one for each section in a fixed order. The line of a
section consists of the section's opening, a body and a closing bracket; the entries
of the line are the non-empty pieces of the body between its commas.
-/
namespace AutomatonCheck

inductive Section where
  | states
  | alphabet
  | initial
  | final
  | transitions
  deriving DecidableEq

namespace Section

/-- The sections in the order of their lines. -/
def all : List Section := [.states, .alphabet, .initial, .final, .transitions]

/-- The place of the section's line in a description. -/
def place : Section → Nat
  | .states => 0
  | .alphabet => 1
  | .initial => 2
  | .final => 3
  | .transitions => 4

def label : Section → String
  | .states => "States"
  | .alphabet => "Alphabet"
  | .initial => "Initial"
  | .final => "Final"
  | .transitions => "Transitions"

/-- The text with which the section's line starts. -/
def opening : Section → String
  | .states => "states=["
  | .alphabet => "alpha=["
  | .initial => "init.st=["
  | .final => "fin.st=["
  | .transitions => "trans=["

/-- The body of a line of this section. -/
def body? (s : Section) (line : String) : Option (List Char) :=
  (s.opening.toList.isPrefixOf? line.toList).bind fun rest => [']'].isSuffixOf? rest

end Section

/-- The number of lines of a description. -/
def lineCount : Nat := Section.all.length

/-- The non-empty pieces of a body between its commas. -/
def entries (body : List Char) : List String :=
  ((body.splitOn ',').filter fun piece => !piece.isEmpty).map String.ofList

/-- The fields of a transition entry, empty ones included. -/
def fields (entry : String) : List String :=
  (entry.toList.splitOn '>').map String.ofList

end AutomatonCheck
