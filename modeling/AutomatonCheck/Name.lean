/-!
# Names of states and symbols

A state name is a non-empty word of lowercase ASCII letters and digits; a symbol
name may hold underscores as well. The only way to a `Name` is through its proof of
well-formedness, so no separator or bracket of a description can occur in one.
-/
namespace AutomatonCheck

inductive NameKind where
  | state
  | symbol
  deriving DecidableEq

namespace NameKind

/-- Whether a character may stand in a name of this kind. -/
def admits (kind : NameKind) (c : Char) : Bool :=
  c.isLower || c.isDigit || (kind == .symbol && c == '_')

/-- The texts that are names of this kind. -/
def Allows (kind : NameKind) (text : String) : Prop :=
  text ≠ "" ∧ ∀ c ∈ text.toList, kind.admits c = true

instance (kind : NameKind) (text : String) : Decidable (kind.Allows text) :=
  decidable_of_iff (text ≠ "" ∧ text.toList.all kind.admits = true) (by simp [Allows])

end NameKind

/-- A well-formed name of a state or a symbol. -/
@[ext] structure Name (kind : NameKind) where
  text : String
  allowed : kind.Allows text
  deriving DecidableEq

abbrev StateName := Name .state

abbrev SymbolName := Name .symbol

namespace Name

variable {kind : NameKind}

def ofText? (text : String) : Option (Name kind) :=
  if h : kind.Allows text then some ⟨text, h⟩ else none

@[simp] theorem ofText?_text (name : Name kind) : ofText? name.text = some name := by
  simp [ofText?, name.allowed]

theorem ofText?_eq_some_iff {text : String} {name : Name kind} :
    ofText? text = some name ↔ name.text = text := by
  constructor
  · intro h
    simp only [ofText?] at h
    split at h
    · cases h; rfl
    · cases h
  · rintro rfl
    exact ofText?_text name

theorem ofText?_eq_none_iff {text : String} :
    (ofText? text : Option (Name kind)) = none ↔ ¬ kind.Allows text := by
  simp [ofText?]

/-- Names are ordered by their characters. -/
instance : Ord (Name kind) := ⟨fun a b => compare a.text b.text⟩

/-- A name as it stands in a listing: symbols are put in single quotes, states are not. -/
def listed : Name kind → String :=
  match kind with
  | .state => fun name => name.text
  | .symbol => fun name => "'" ++ name.text ++ "'"

end Name

end AutomatonCheck
