import AutomatonCheck.Automaton
import AutomatonCheck.Description.Violation
import AutomatonCheck.Indices

/-!
# Parsing a description

Each section's line is read on its own, given what the earlier lines declare; the
reading yields a value or the first violation in the line. `parse` reads the lines in
order, so the first violation of the whole description ends it. A description without
final states raises a warning as soon as their line has been read.
-/
namespace AutomatonCheck

/-- The entries of a section's line. -/
def Section.read (s : Section) (lines : List String) : Except Violation (List String) :=
  match lines[s.place]? with
  | none => .error (.malformed s .missing)
  | some line =>
    match s.body? line with
    | none => .error (.malformed s (.misshapen line))
    | some body => .ok (entries body)

/-- Read a name that a section declares. -/
def readName (kind : NameKind) (s : Section) (entry : String) : Except Violation (Name kind) :=
  match Name.ofText? entry with
  | some name => .ok name
  | none => .error (.malformed s (.invalidName entry))

/-- Read the names that a section declares. -/
def readRoster (kind : NameKind) (s : Section) (lines : List String) :
    Except Violation (Roster kind) := do
  return .ofList (← (← s.read lines).mapM (readName kind s))

def readStates (lines : List String) : Except Violation (Roster .state) :=
  readRoster .state .states lines

def readAlphabet (lines : List String) : Except Violation Alphabet :=
  readRoster .symbol .alphabet lines

/-- The position of a declared state. -/
def resolveState (states : Roster .state) (name : String) : Except Violation Nat :=
  match states.position? name with
  | some q => .ok q
  | none => .error (.undefinedState name)

/-- The position of a declared symbol. -/
def resolveSymbol (alphabet : Alphabet) (name : String) : Except Violation Nat :=
  match alphabet.position? name with
  | some a => .ok a
  | none => .error (.undefinedSymbol name)

/-- Read the positions of the states that a section names. -/
def readStateList (s : Section) (states : Roster .state) (lines : List String) :
    Except Violation (List Nat) := do
  (← s.read lines).mapM (resolveState states)

/-- The one state that is named, however often. -/
def soleInitial (named : List Nat) : Except Violation Nat :=
  match named.eraseDups with
  | [] => .error .noInitialState
  | [q] => .ok q
  | several => .error (.malformed .initial (.severalInitial several.length))

/-- Read the one initial state. All names are resolved before they are counted. -/
def readInitial (states : Roster .state) (lines : List String) : Except Violation Nat := do
  soleInitial (← readStateList .initial states lines)

def readFinals (states : Roster .state) (lines : List String) : Except Violation (List Nat) := do
  return Indices.ofList (← readStateList .final states lines)

/-- Read one transition. The number of fields comes first, then source, symbol and target. -/
def readTransition (states : Roster .state) (alphabet : Alphabet) (entry : String) :
    Except Violation Transition :=
  match fields entry with
  | [source, symbol, target] => do
    let q ← resolveState states source
    let a ← resolveSymbol alphabet symbol
    let p ← resolveState states target
    return ⟨q, a, p⟩
  | _ => .error (.malformed .transitions (.notThreeFields entry))

def readTransitions (states : Roster .state) (alphabet : Alphabet) (lines : List String) :
    Except Violation (List Transition) := do
  (← Section.transitions.read lines).mapM (readTransition states alphabet)

/-- Nothing may follow the last section. -/
def readEnd (lines : List String) : Except Violation Unit :=
  if lineCount < lines.length then .error .surplusLine else .ok ()

/-- Read the automaton that the lines describe. -/
def parse (lines : List String) : Stage Automaton := do
  let states ← Stage.accept (readStates lines)
  Stage.record [.parsedStates states.size]
  let alphabet ← Stage.accept (readAlphabet lines)
  Stage.record [.parsedAlphabet alphabet.size]
  let initial ← Stage.accept (readInitial states lines)
  let finals ← Stage.accept (readFinals states lines)
  Stage.raiseIf finals.isEmpty .noAcceptingState
  Stage.record [.parsedFinals finals.length]
  let transitions ← Stage.accept (readTransitions states alphabet lines)
  Stage.record [.parsedTransitions transitions.length]
  Stage.accept (readEnd lines)
  return ⟨states, alphabet, initial, finals, transitions⟩

end AutomatonCheck
