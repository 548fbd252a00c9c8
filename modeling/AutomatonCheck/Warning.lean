/-!
# Warnings

A warning is a finding that does not stop the check. Raising the same warning again
has no effect, so the raised warnings form a set, listed by number.
-/
namespace AutomatonCheck

inductive Warning where
  /-- No final state was declared. -/
  | noAcceptingState
  /-- Some state cannot be reached from the initial state. -/
  | unreachableStates
  /-- Some state has two successors on one symbol. -/
  | nondeterministic
  deriving DecidableEq

namespace Warning

def all : List Warning := [.noAcceptingState, .unreachableStates, .nondeterministic]

def number : Warning → Nat
  | .noAcceptingState => 1
  | .unreachableStates => 2
  | .nondeterministic => 3

instance : Ord Warning := ⟨fun a b => compare a.number b.number⟩

/-- The word for a warning in the log. -/
def label : Warning → String
  | .noAcceptingState => "NoAcceptingState"
  | .unreachableStates => "UnreachableStates"
  | .nondeterministic => "Nondeterministic"

def message : Warning → String
  | .noAcceptingState => "W1: Accepting state is not defined"
  | .unreachableStates => "W2: Some states are not reachable from the initial state"
  | .nondeterministic => "W3: FSA is nondeterministic"

end Warning

/-- A set of warnings. -/
@[ext] structure Warnings where
  noAcceptingState : Bool
  unreachableStates : Bool
  nondeterministic : Bool
  deriving DecidableEq

namespace Warnings

def empty : Warnings := ⟨false, false, false⟩

def contains (warnings : Warnings) : Warning → Bool
  | .noAcceptingState => warnings.noAcceptingState
  | .unreachableStates => warnings.unreachableStates
  | .nondeterministic => warnings.nondeterministic

def insert (warnings : Warnings) : Warning → Warnings
  | .noAcceptingState => { warnings with noAcceptingState := true }
  | .unreachableStates => { warnings with unreachableStates := true }
  | .nondeterministic => { warnings with nondeterministic := true }

/-- The members, by increasing number. -/
def toList (warnings : Warnings) : List Warning := Warning.all.filter warnings.contains

def size (warnings : Warnings) : Nat := warnings.toList.length

def isEmpty (warnings : Warnings) : Bool := warnings.toList.isEmpty

@[simp] theorem contains_empty (w : Warning) : empty.contains w = false := by
  cases w <;> rfl

@[simp] theorem contains_insert (warnings : Warnings) (v w : Warning) :
    (warnings.insert v).contains w = (decide (w = v) || warnings.contains w) := by
  cases v <;> cases w <;> rfl

/-- Raising a warning under a condition adds it if the condition holds. -/
theorem contains_insert_if {condition : Prop} [Decidable condition] {warnings : Warnings}
    {v w : Warning} : (if condition then warnings.insert v else warnings).contains w = true ↔
      warnings.contains w = true ∨ w = v ∧ condition := by
  by_cases h : condition
  · rw [if_pos h, contains_insert, Bool.or_eq_true, decide_eq_true_eq, or_comm]
    simp [h]
  · simp [h]

@[simp] theorem mem_toList {warnings : Warnings} {w : Warning} :
    w ∈ warnings.toList ↔ warnings.contains w = true := by
  cases w <;> simp [toList, Warning.all]

/-- Two sets with the same members are the same. -/
theorem ext_contains {v w : Warnings} (h : ∀ x, v.contains x = w.contains x) : v = w := by
  ext1
  · exact h .noAcceptingState
  · exact h .unreachableStates
  · exact h .nondeterministic

theorem insert_of_contains {warnings : Warnings} {w : Warning} (h : warnings.contains w = true) :
    warnings.insert w = warnings :=
  ext_contains fun x => by by_cases hx : x = w <;> simp [hx, h]

end Warnings

end AutomatonCheck
