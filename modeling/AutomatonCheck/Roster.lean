import AutomatonCheck.Name

/-!
# Rosters

A roster is a list of distinct names. Declaring a name again has no effect, so each
name keeps the position of its first declaration, and positions address states and
symbols everywhere else. Two rosters are equal as sets: their order plays no part.
-/
namespace AutomatonCheck

theorem nodup_eraseDups {α : Type} [DecidableEq α] (as : List α) : as.eraseDups.Nodup := by
  match as with
  | [] => simp
  | a :: rest =>
    rw [List.eraseDups_cons, List.nodup_cons]
    exact ⟨by simp [List.mem_eraseDups], nodup_eraseDups _⟩
termination_by as.length
decreasing_by simp only [List.length_cons]; exact Nat.lt_succ_of_le (List.length_filter_le ..)

/-- Distinct names in the order of their first declaration. -/
@[ext] structure Roster (kind : NameKind) where
  names : List (Name kind)
  nodup : names.Nodup

/-- The symbols of an automaton. -/
abbrev Alphabet := Roster .symbol

namespace Roster

variable {kind : NameKind}

def ofList (names : List (Name kind)) : Roster kind :=
  ⟨names.eraseDups, nodup_eraseDups names⟩

def empty : Roster kind := ⟨[], .nil⟩

def size (roster : Roster kind) : Nat := roster.names.length

def isEmpty (roster : Roster kind) : Bool := roster.names.isEmpty

/-- The name at a position. -/
def get? (roster : Roster kind) (i : Nat) : Option (Name kind) := roster.names[i]?

/-- The position of the name with a given text. -/
def position? (roster : Roster kind) (text : String) : Option Nat :=
  roster.names.findIdx? (·.text == text)

/-- All positions, in increasing order. -/
def positions (roster : Roster kind) : List Nat := List.range roster.size

/-- The text of the name at a position, a question mark where there is none. -/
def textAt (roster : Roster kind) (i : Nat) : String :=
  ((roster.get? i).map Name.text).getD "?"

/-- Equality of rosters as sets of names. -/
instance : BEq (Roster kind) :=
  ⟨fun a b => a.size == b.size && a.names.all fun name => b.names.contains name⟩

@[simp] theorem mem_ofList {names : List (Name kind)} {name : Name kind} :
    name ∈ (ofList names).names ↔ name ∈ names := by
  simp [ofList, List.mem_eraseDups]

end Roster

end AutomatonCheck
