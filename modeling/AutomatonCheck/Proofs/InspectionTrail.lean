import AutomatonCheck.Inspection
import AutomatonCheck.Proofs.WarningLog

/-!
# What an inspection leaves behind

Given the numbers of states that the two walks yield, each part of an inspection leaves
behind its result, the warnings after it and its events. Only the walk along links can
reject the automaton, and only the walk along transitions and the scan for conflicts
raise warnings. A run puts the parts together, up to the rejection if there is one.
-/
namespace AutomatonCheck

namespace Inspection

variable {inspection : Inspection} {reached connected : Nat} {warnings : Warnings}

def conflictEvents (inspection : Inspection) : List Event :=
  inspection.table.conflicts.map fun entry => .conflict entry.state entry.symbol entry.targets.length

def gapEvents (inspection : Inspection) : List Event :=
  inspection.table.gaps.map fun entry => .gap entry.state entry.symbol

/-- The events of an inspection up to the number of states that are connected. -/
def walkEvents (inspection : Inspection) (reached connected : Nat) (warnings : Warnings) :
    List Event :=
  [.reached reached inspection.size] ++
    Stage.raisedEvents (reached < inspection.size) .unreachableStates warnings ++
    [.connected connected inspection.size]

/-- The warnings after the walk along transitions. -/
def walkWarnings (inspection : Inspection) (reached : Nat) (warnings : Warnings) : Warnings :=
  if reached < inspection.size then warnings.insert .unreachableStates else warnings

/-- The warnings after the scan for conflicts. -/
def scanWarnings (inspection : Inspection) (warnings : Warnings) : Warnings :=
  if !inspection.table.conflicts.isEmpty then warnings.insert .nondeterministic else warnings

/-- The warnings of an inspection after both the walk and the scan. -/
def finalWarnings (inspection : Inspection) (reached : Nat) (warnings : Warnings) : Warnings :=
  inspection.scanWarnings (inspection.walkWarnings reached warnings)

def classification (inspection : Inspection) : Classification :=
  if inspection.table.conflicts.isEmpty && inspection.table.gaps.isEmpty then .complete
  else .incomplete

/-- The events of an inspection that ends in a report. -/
def reportEvents (inspection : Inspection) (reached connected : Nat) (warnings : Warnings) :
    List Event :=
  inspection.walkEvents reached connected warnings ++ inspection.conflictEvents ++
    Stage.raisedEvents (!inspection.table.conflicts.isEmpty) .nondeterministic
      (inspection.walkWarnings reached warnings) ++
    inspection.gapEvents ++
    [.classified inspection.classification (inspection.finalWarnings reached warnings).size]

theorem mem_walkEvents_iff {e : Event} (he : e.isRaised = false) :
    e ∈ inspection.walkEvents reached connected warnings ↔
      e = .reached reached inspection.size ∨ e = .connected connected inspection.size := by
  have hraised : e ∉ Stage.raisedEvents (reached < inspection.size) .unreachableStates warnings := by
    intro hmem
    rw [Stage.isRaised_of_mem_raisedEvents hmem] at he
    cases he
  simp [walkEvents, hraised]

theorem mem_reportEvents_iff {e : Event} (he : e.isRaised = false) :
    e ∈ inspection.reportEvents reached connected warnings ↔
      e = .reached reached inspection.size ∨ e = .connected connected inspection.size ∨
        e ∈ inspection.conflictEvents ∨ e ∈ inspection.gapEvents ∨
        e = .classified inspection.classification
          (inspection.finalWarnings reached warnings).size := by
  have hraised : e ∉ Stage.raisedEvents (!inspection.table.conflicts.isEmpty) .nondeterministic
      (inspection.walkWarnings reached warnings) := by
    intro hmem
    rw [Stage.isRaised_of_mem_raisedEvents hmem] at he
    cases he
  simp [reportEvents, mem_walkEvents_iff he, hraised, or_assoc]

theorem exists_conflict_iff : (∃ q a k, .conflict q a k ∈ inspection.conflictEvents) ↔
    ¬ inspection.table.conflicts.isEmpty = true := by
  rw [Bool.not_eq_true, List.isEmpty_eq_false_iff_exists_mem]
  constructor
  · intro h
    obtain ⟨q, a, k, hmem⟩ := h
    obtain ⟨entry, hentry, -⟩ := List.mem_map.1 hmem
    exact ⟨entry, hentry⟩
  · intro h
    obtain ⟨entry, hentry⟩ := h
    exact ⟨_, _, _, List.mem_map_of_mem hentry⟩

theorem exists_gap_iff : (∃ q a, .gap q a ∈ inspection.gapEvents) ↔
    ¬ inspection.table.gaps.isEmpty = true := by
  rw [Bool.not_eq_true, List.isEmpty_eq_false_iff_exists_mem]
  constructor
  · intro h
    obtain ⟨q, a, hmem⟩ := h
    obtain ⟨entry, hentry, -⟩ := List.mem_map.1 hmem
    exact ⟨entry, hentry⟩
  · intro h
    obtain ⟨entry, hentry⟩ := h
    exact ⟨_, _, List.mem_map_of_mem hentry⟩

theorem classification_eq_incomplete_iff : inspection.classification = .incomplete ↔
    ¬ inspection.table.conflicts.isEmpty = true ∨ ¬ inspection.table.gaps.isEmpty = true := by
  unfold classification
  cases inspection.table.conflicts.isEmpty with
  | false => simp
  | true => simp

theorem reachability_apply
    (hr : inspection.table.adjacency.reachCount? inspection.initial = some reached)
    (warnings : Warnings) :
    inspection.reachability warnings = ⟨.ok (), inspection.walkWarnings reached warnings,
      .reached reached inspection.size ::
        Stage.raisedEvents (reached < inspection.size) .unreachableStates warnings⟩ := by
  simp only [reachability, hr, Stage.inRange_some, pure_bind, Stage.record_bind_apply,
    Stage.raiseIf_apply, decide_eq_true_eq]
  rfl

theorem disjointness_apply
    (hc : inspection.links.reachCount? inspection.initial = some connected)
    (warnings : Warnings) :
    inspection.disjointness warnings =
      ⟨if connected < inspection.size then .error (.rejected .disjointStates) else .ok (),
        warnings, [.connected connected inspection.size]⟩ := by
  simp only [disjointness, hc, Stage.inRange_some, pure_bind, Stage.record_bind_apply]
  split
  · rfl
  · rfl

theorem determinism_apply (warnings : Warnings) :
    inspection.determinism warnings = ⟨.ok inspection.table.conflicts.isEmpty,
      inspection.scanWarnings warnings, inspection.conflictEvents ++
        Stage.raisedEvents (!inspection.table.conflicts.isEmpty) .nondeterministic warnings⟩ := by
  simp only [determinism, Stage.record_bind_apply, Stage.raiseIf_bind_eq]
  simp only [conflictEvents, scanWarnings, pure, List.append_nil]

theorem completeness_apply (deterministic : Bool) (warnings : Warnings) :
    inspection.completeness deterministic warnings =
      ⟨.ok (if deterministic && inspection.table.gaps.isEmpty then .complete else .incomplete),
        warnings, inspection.gapEvents⟩ := by
  simp only [completeness, Stage.record_bind_apply]
  simp only [gapEvents, pure, List.append_nil]

section Runs

variable (hr : inspection.table.adjacency.reachCount? inspection.initial = some reached)
  (hc : inspection.links.reachCount? inspection.initial = some connected)

include hr hc

/-- A run that finds disjoint states leaves behind what it found until then. -/
theorem run_of_disjoint (hd : connected < inspection.size) (warnings : Warnings) :
    inspection.run warnings = ⟨.error (.rejected .disjointStates),
      inspection.walkWarnings reached warnings,
      inspection.walkEvents reached connected warnings⟩ := by
  simp only [run, Stage.bind_apply, reachability_apply hr, disjointness_apply hc, if_pos hd]
  rfl

theorem run_of_connected (hd : ¬ connected < inspection.size) (warnings : Warnings) :
    inspection.run warnings =
      ⟨.ok ⟨inspection.classification, inspection.finalWarnings reached warnings⟩,
        inspection.finalWarnings reached warnings,
        inspection.reportEvents reached connected warnings⟩ := by
  simp only [run, Stage.bind_apply, reachability_apply hr, disjointness_apply hc, if_neg hd,
    determinism_apply, completeness_apply]
  simp only [reportEvents, walkEvents, List.append_assoc, List.cons_append, List.nil_append]
  rfl

end Runs

end Inspection

end AutomatonCheck
