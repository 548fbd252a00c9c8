import AutomatonCheck.Inspection

/-!
# Warnings in the log

A stage logs a warning at the moment at which the warning joins the raised ones, and a
warning that is raised again is not logged again. So the log of every stage tells which
warnings the stage has added, each of them once: whatever is raised before counts with
what is logged, and together they make the warnings afterwards.
-/
namespace AutomatonCheck

/-- The events of warnings that are raised. -/
def Event.isRaised : Event → Bool
  | .raised _ => true
  | _ => false

namespace Stage

variable {α β : Type}

/-- What is logged when a warning is raised under a condition. -/
def raisedEvents (condition : Bool) (w : Warning) (warnings : Warnings) : List Event :=
  if condition && !warnings.contains w then [.raised w] else []

theorem isRaised_of_mem_raisedEvents {condition : Bool} {w : Warning} {warnings : Warnings}
    {e : Event} (h : e ∈ raisedEvents condition w warnings) : e.isRaised = true := by
  unfold raisedEvents at h
  split at h
  · rw [List.mem_singleton.1 h]
    rfl
  · simp at h

theorem raiseIf_apply (condition : Bool) (w : Warning) (warnings : Warnings) :
    raiseIf condition w warnings =
      ⟨.ok (), if condition then warnings.insert w else warnings,
        raisedEvents condition w warnings⟩ := by
  unfold raiseIf raisedEvents
  cases condition with
  | false => rfl
  | true =>
    cases h : warnings.contains w with
    | false => rfl
    | true => simp [Warnings.insert_of_contains h]

theorem raiseIf_bind_eq (condition : Bool) (w : Warning) (next : Unit → Stage β)
    (warnings : Warnings) :
    (raiseIf condition w >>= next) warnings =
      let later := next () (if condition then warnings.insert w else warnings)
      { later with events := raisedEvents condition w warnings ++ later.events } := by
  rw [bind_apply, raiseIf_apply]

/-- The warnings before a stage and those in its log are together the warnings after it, and no
warning is counted twice. -/
def TellsRaised (stage : Stage α) : Prop :=
  ∀ (warnings : Warnings) (w : Warning),
    (warnings.contains w).toNat + (stage warnings).events.count (.raised w) =
      ((stage warnings).warnings.contains w).toNat

theorem tellsRaised_pure (a : α) : (pure a : Stage α).TellsRaised := by
  intro warnings w
  rfl

theorem tellsRaised_raised : raised.TellsRaised := by
  intro warnings w
  rfl

theorem tellsRaised_stop (reason : Stop) : (stop reason : Stage α).TellsRaised := by
  intro warnings w
  rfl

theorem tellsRaised_record {events : List Event} (h : ∀ w, .raised w ∉ events) :
    (record events).TellsRaised := by
  intro warnings w
  have hcount : events.count (.raised w) = 0 := List.count_eq_zero.2 (h w)
  simp [record, hcount]

theorem tellsRaised_raiseIf (condition : Bool) (v : Warning) :
    (raiseIf condition v).TellsRaised := by
  intro warnings w
  unfold raiseIf
  split
  · next hnew =>
    simp only [Bool.and_eq_true, Bool.not_eq_true'] at hnew
    by_cases hw : w = v
    · simp [hw, hnew.2]
    · have hne : Event.raised v ≠ .raised w := by simpa [eq_comm] using hw
      simp [hw, hne]
  · simp

/-- What is logged first is among the warnings from which the next stage starts. -/
theorem TellsRaised.bind {stage : Stage α} {next : α → Stage β} (h : stage.TellsRaised)
    (hn : ∀ a, (next a).TellsRaised) : (stage >>= next).TellsRaised := by
  intro warnings w
  rw [bind_apply]
  cases hresult : (stage warnings).result with
  | error reason => exact h warnings w
  | ok a =>
    simp only [List.count_append]
    rw [← Nat.add_assoc, h warnings w, hn a (stage warnings).warnings w]

theorem tellsRaised_inRange (access : Option α) : (inRange access).TellsRaised := by
  cases access with
  | none => exact tellsRaised_stop _
  | some a => exact tellsRaised_pure a

theorem tellsRaised_accept (reading : Except Violation α) : (accept reading).TellsRaised := by
  cases reading with
  | ok a => exact tellsRaised_pure a
  | error violation =>
    have hevents : ∀ w, Event.raised w ∉ violation.events := by
      intro w
      cases violation <;> simp [Violation.events]
    exact (tellsRaised_record hevents).bind fun _ => tellsRaised_stop _

/-- From no warnings at the start, a warning is logged once if it is raised at the end and not at
all if it is not. -/
theorem TellsRaised.count_raised {stage : Stage α} (h : stage.TellsRaised) (w : Warning) :
    (stage .empty).events.count (.raised w) = ((stage .empty).warnings.contains w).toNat := by
  have hw := h .empty w
  rwa [Warnings.contains_empty, Bool.toNat_false, Nat.zero_add] at hw

end Stage

theorem tellsRaised_parse (lines : List String) : (parse lines).TellsRaised := by
  unfold parse
  refine (Stage.tellsRaised_accept _).bind fun states => ?_
  refine (Stage.tellsRaised_record (by simp)).bind fun _ => ?_
  refine (Stage.tellsRaised_accept _).bind fun alphabet => ?_
  refine (Stage.tellsRaised_record (by simp)).bind fun _ => ?_
  refine (Stage.tellsRaised_accept _).bind fun initial => ?_
  refine (Stage.tellsRaised_accept _).bind fun finals => ?_
  refine (Stage.tellsRaised_raiseIf _ _).bind fun _ => ?_
  refine (Stage.tellsRaised_record (by simp)).bind fun _ => ?_
  refine (Stage.tellsRaised_accept _).bind fun transitions => ?_
  refine (Stage.tellsRaised_record (by simp)).bind fun _ => ?_
  exact (Stage.tellsRaised_accept _).bind fun _ => Stage.tellsRaised_pure _

namespace Inspection

variable (inspection : Inspection)

theorem tellsRaised_reachability : inspection.reachability.TellsRaised := by
  refine (Stage.tellsRaised_inRange _).bind fun count => ?_
  exact (Stage.tellsRaised_record (by simp)).bind fun _ => Stage.tellsRaised_raiseIf _ _

theorem tellsRaised_disjointness : inspection.disjointness.TellsRaised := by
  refine (Stage.tellsRaised_inRange _).bind fun count => ?_
  refine (Stage.tellsRaised_record (by simp)).bind fun _ => ?_
  split
  · exact Stage.tellsRaised_stop _
  · exact Stage.tellsRaised_pure ()

theorem tellsRaised_determinism : inspection.determinism.TellsRaised := by
  refine (Stage.tellsRaised_record (by simp)).bind fun _ => ?_
  exact (Stage.tellsRaised_raiseIf _ _).bind fun _ => Stage.tellsRaised_pure _

theorem tellsRaised_completeness (deterministic : Bool) :
    (inspection.completeness deterministic).TellsRaised :=
  (Stage.tellsRaised_record (by simp)).bind fun _ => Stage.tellsRaised_pure _

theorem tellsRaised_run : inspection.run.TellsRaised := by
  refine inspection.tellsRaised_reachability.bind fun _ => ?_
  refine inspection.tellsRaised_disjointness.bind fun _ => ?_
  refine inspection.tellsRaised_determinism.bind fun deterministic => ?_
  refine (inspection.tellsRaised_completeness deterministic).bind fun classification => ?_
  refine Stage.tellsRaised_raised.bind fun warnings => ?_
  exact (Stage.tellsRaised_record (by simp)).bind fun _ => Stage.tellsRaised_pure _

end Inspection

theorem tellsRaised_checking (lines : List String) : (checking lines).TellsRaised := by
  refine (tellsRaised_parse lines).bind fun automaton => ?_
  exact (Stage.tellsRaised_inRange _).bind fun inspection => inspection.tellsRaised_run

end AutomatonCheck
