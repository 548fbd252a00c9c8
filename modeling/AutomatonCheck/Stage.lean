import AutomatonCheck.Event

/-!
# Stages of a check

A stage starts from the warnings raised so far, may raise more, adds events to the log
and then yields a value or stops. Warnings and events from before a stop are kept. A
stop is a rejection of the description, or an access to a list outside its range,
which no description leads to.
-/
namespace AutomatonCheck

inductive Stop where
  | rejected (rejection : Rejection)
  | outOfRange
  deriving DecidableEq

/-- What a stage leaves behind. -/
structure Trail (α : Type) where
  result : Except Stop α
  warnings : Warnings
  events : List Event

def Stage (α : Type) := Warnings → Trail α

namespace Stage

variable {α β : Type}

instance : Monad Stage where
  pure a := fun warnings => ⟨.ok a, warnings, []⟩
  bind stage next := fun warnings =>
    let first := stage warnings
    match first.result with
    | .error stop => ⟨.error stop, first.warnings, first.events⟩
    | .ok a =>
      let second := next a first.warnings
      ⟨second.result, second.warnings, first.events ++ second.events⟩

/-- The warnings raised so far. -/
def raised : Stage Warnings := fun warnings => ⟨.ok warnings, warnings, []⟩

/-- Add events to the log. -/
def record (events : List Event) : Stage Unit := fun warnings => ⟨.ok (), warnings, events⟩

/-- Raise a warning if a condition holds. Only a new warning is logged. -/
def raiseIf (condition : Bool) (w : Warning) : Stage Unit := fun warnings =>
  if condition && !warnings.contains w then ⟨.ok (), warnings.insert w, [.raised w]⟩
  else ⟨.ok (), warnings, []⟩

def stop (reason : Stop) : Stage α := fun warnings => ⟨.error reason, warnings, []⟩

def reject (rejection : Rejection) : Stage α := stop (.rejected rejection)

/-- The value of an access to a list. -/
def inRange : Option α → Stage α
  | some a => pure a
  | none => stop .outOfRange

theorem bind_apply (stage : Stage α) (next : α → Stage β) (warnings : Warnings) :
    (stage >>= next) warnings =
      match (stage warnings).result with
      | .error reason => ⟨.error reason, (stage warnings).warnings, (stage warnings).events⟩
      | .ok a =>
        let second := next a (stage warnings).warnings
        ⟨second.result, second.warnings, (stage warnings).events ++ second.events⟩ := rfl

instance : LawfulMonad Stage :=
  LawfulMonad.mk' Stage
    (by
      intro α stage
      funext warnings
      change (stage >>= pure) warnings = stage warnings
      rw [bind_apply]
      rcases stage warnings with ⟨_ | a, after, events⟩
      · rfl
      · simp [pure])
    (fun _ _ => rfl)
    (by
      intro α β γ stage next last
      funext warnings
      simp only [bind_apply]
      rcases stage warnings with ⟨_ | a, after, events⟩
      · rfl
      · rcases h : next a after with ⟨_ | b, later, more⟩ <;> simp [h])

@[simp] theorem stop_bind (reason : Stop) (next : α → Stage β) :
    (stop reason >>= next) = stop reason := rfl

@[simp] theorem inRange_some (a : α) : inRange (some a) = pure a := rfl

@[simp] theorem inRange_none : (inRange none : Stage α) = stop .outOfRange := rfl

/-- What follows after events were recorded leaves the same behind, with more events before. -/
theorem record_bind_apply (events : List Event) (next : Unit → Stage β) (warnings : Warnings) :
    (record events >>= next) warnings =
      { next () warnings with events := events ++ (next () warnings).events } := rfl

/-- What follows after a warning starts with that warning among the raised ones. -/
theorem raiseIf_bind_apply (condition : Bool) (w : Warning) (next : Unit → Stage β)
    (warnings : Warnings) :
    (raiseIf condition w >>= next) warnings =
      let later := next () (if condition then warnings.insert w else warnings)
      if condition && !warnings.contains w then { later with events := .raised w :: later.events }
      else later := by
  simp only [bind_apply, raiseIf]
  cases condition
  · rfl
  · cases h : warnings.contains w
    · rfl
    · simp [Warnings.insert_of_contains h]

/-- What follows a value starts from the warnings that its stage leaves. -/
theorem result_bind_of_ok {stage : Stage α} {warnings : Warnings} {a : α}
    (h : (stage warnings).result = .ok a) (next : α → Stage β) :
    ((stage >>= next) warnings).result = (next a (stage warnings).warnings).result := by
  rw [bind_apply, h]

theorem result_bind_of_error {stage : Stage α} {warnings : Warnings} {reason : Stop}
    (h : (stage warnings).result = .error reason) (next : α → Stage β) :
    ((stage >>= next) warnings).result = .error reason := by
  rw [bind_apply, h]

theorem result_record_bind (events : List Event) (next : Unit → Stage β) (warnings : Warnings) :
    ((record events >>= next) warnings).result = (next () warnings).result := by
  rw [record_bind_apply]

theorem result_raiseIf_bind (condition : Bool) (w : Warning) (next : Unit → Stage β)
    (warnings : Warnings) :
    ((raiseIf condition w >>= next) warnings).result =
      (next () (if condition then warnings.insert w else warnings)).result := by
  rw [raiseIf_bind_apply]
  dsimp only
  split <;> rfl

end Stage

end AutomatonCheck
