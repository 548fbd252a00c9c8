import AutomatonCheck.Stage

/-!
# Violations

A violation is the rule of the grammar that a description breaks first. It decides the
rejection and what the log says of it: undefined names and a missing initial state are
not logged.
-/
namespace AutomatonCheck

inductive Violation where
  | malformed (s : Section) (flaw : Flaw)
  | undefinedState (name : String)
  | undefinedSymbol (name : String)
  | noInitialState
  | surplusLine
  deriving DecidableEq

namespace Violation

def rejection : Violation → Rejection
  | .malformed _ _ | .surplusLine => .malformedInput
  | .undefinedState name => .undefinedState name
  | .undefinedSymbol name => .undefinedSymbol name
  | .noInitialState => .noInitialState

def events : Violation → List Event
  | .malformed s flaw => [.malformed s flaw]
  | .surplusLine => [.surplusLine]
  | .undefinedState _ | .undefinedSymbol _ | .noInitialState => []

end Violation

namespace Stage

variable {α β : Type}

/-- Accept what was read, or log the violation and reject the description. -/
def accept : Except Violation α → Stage α
  | .ok a => pure a
  | .error violation => do
    record violation.events
    reject violation.rejection

@[simp] theorem accept_ok (a : α) : accept (.ok a) = pure a := rfl

@[simp] theorem accept_error_bind (violation : Violation) (next : α → Stage β) :
    (accept (.error violation) >>= next) = accept (.error violation) := rfl

theorem accept_error_apply (violation : Violation) (warnings : Warnings) :
    (accept (.error violation) : Stage α) warnings =
      ⟨.error (.rejected violation.rejection), warnings, violation.events⟩ := by
  simp [accept, record_bind_apply, reject, stop]

end Stage

end AutomatonCheck
