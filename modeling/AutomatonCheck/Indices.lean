/-!
# Sets of indices

A finite set of indices is kept as its strictly increasing list, so that equal sets
are equal lists and the order of insertion leaves no trace.
-/
namespace AutomatonCheck.Indices

/-- Add an index to an increasing list, unless it is there already. -/
def insert (i : Nat) : List Nat → List Nat
  | [] => [i]
  | j :: rest =>
    if i < j then i :: j :: rest
    else if i = j then j :: rest
    else j :: insert i rest

def ofList (is : List Nat) : List Nat := is.foldr insert []

@[simp] theorem mem_insert {i k : Nat} {js : List Nat} : k ∈ insert i js ↔ k = i ∨ k ∈ js := by
  induction js with
  | nil => simp [insert]
  | cons j rest ih => simp only [insert]; grind

theorem increasing_insert {i : Nat} {js : List Nat} (h : js.Pairwise (· < ·)) :
    (insert i js).Pairwise (· < ·) := by
  induction js with
  | nil => simp [insert]
  | cons j rest ih =>
    rw [List.pairwise_cons] at h
    simp only [insert]
    split
    · exact .cons (by grind) (.cons h.1 h.2)
    · split
      · exact .cons h.1 h.2
      · exact .cons (by grind [mem_insert]) (ih h.2)

@[simp] theorem mem_ofList {k : Nat} {is : List Nat} : k ∈ ofList is ↔ k ∈ is := by
  induction is with
  | nil => simp [ofList]
  | cons i rest ih =>
    rw [show ofList (i :: rest) = insert i (ofList rest) from rfl, mem_insert, ih, List.mem_cons]

theorem increasing_ofList (is : List Nat) : (ofList is).Pairwise (· < ·) := by
  induction is with
  | nil => simp [ofList]
  | cons i rest ih => exact increasing_insert ih

end AutomatonCheck.Indices
