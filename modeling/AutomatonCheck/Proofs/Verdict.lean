import AutomatonCheck.Proofs.InspectionTrail
import AutomatonCheck.Proofs.TransitionGraphs

/-!
# The verdict on an automaton

An inspection counts the states that two walks yield and scans the cells of the table.
What it concludes is about the transitions as a set: whether the states are connected,
whether they can be reached, and how many targets each state has on each symbol. The
warnings raised before are kept and have no influence on the verdict.
-/
namespace AutomatonCheck

namespace Automaton

variable {automaton : Automaton}

/-- Some state is related to the initial state neither forwards nor backwards. -/
def Disjoint (automaton : Automaton) : Prop :=
  ∃ q < automaton.size, ¬ Relation.EqvGen (Leads automaton.transitions) automaton.initial q

/-- What a warning says about an automaton once it has been parsed. -/
def Exhibits (automaton : Automaton) : Warning → Prop
  | .noAcceptingState => False
  | .unreachableStates =>
    ∃ q < automaton.size, ¬ Relation.ReflTransGen (Leads automaton.transitions) automaton.initial q
  | .nondeterministic => ∃ q a p p', p ≠ p' ∧ (⟨q, a, p⟩ : Transition) ∈ automaton.transitions ∧
      (⟨q, a, p'⟩ : Transition) ∈ automaton.transitions

/-- Every state has exactly one successor on every symbol. -/
def Total (automaton : Automaton) : Prop :=
  ∀ q < automaton.size, ∀ a < automaton.alphabet.size,
    ∃! p, (⟨q, a, p⟩ : Transition) ∈ automaton.transitions

end Automaton

namespace Inspection

variable {inspection : Inspection} {automaton : Automaton}

/-- An inspection whose two graphs are those of the automaton, up to the order of successors. -/
structure Represents (inspection : Inspection) (automaton : Automaton) : Prop where
  size_eq : inspection.size = automaton.size
  initial_eq : inspection.initial = automaton.initial
  table : inspection.table.Represents automaton.size automaton.alphabet.size automaton.transitions
  size_links : inspection.links.size = automaton.size
  edge_links : ∀ q p, inspection.links.Edge q p ↔
    Relation.SymmGen (Leads automaton.transitions) q p

theorem exists_ofAutomaton? (h : automaton.InRange) :
    ∃ inspection, ofAutomaton? automaton = some inspection ∧ inspection.Represents automaton := by
  obtain ⟨table, htable, hr, -⟩ := TransitionTable.exists_ofAutomaton? h
  obtain ⟨links, hlinks, hsize, hedge⟩ := Adjacency.exists_linksOf? h
  exact ⟨⟨automaton.size, automaton.initial, table, links⟩, by simp [ofAutomaton?, htable, hlinks],
    ⟨rfl, rfl, hr, hsize, hedge⟩⟩

theorem Represents.closed_table (h : inspection.Represents automaton) (hr : automaton.InRange) :
    inspection.table.adjacency.Closed := by
  intro q p hedge
  obtain ⟨a, ht⟩ := h.table.edge_adjacency_iff.1 hedge
  rw [h.table.size_adjacency]
  exact hr.target_lt _ ht

theorem Represents.closed_links (h : inspection.Represents automaton) (hr : automaton.InRange) :
    inspection.links.Closed := by
  intro q p hedge
  rw [h.size_links]
  rcases (h.edge_links q p).1 hedge with ⟨a, ht⟩ | ⟨a, ht⟩
  · exact hr.target_lt _ ht
  · exact hr.source_lt _ ht

/-- The walk along transitions counts all states unless some cannot be reached. -/
theorem Represents.exists_reached (h : inspection.Represents automaton) (hr : automaton.InRange) :
    ∃ reached, inspection.table.adjacency.reachCount? inspection.initial = some reached ∧
      (reached < inspection.size ↔ automaton.Exhibits .unreachableStates) := by
  rw [h.size_eq, h.initial_eq]
  exact Adjacency.exists_reachCount? h.table.size_adjacency
    (fun _ _ => h.table.edge_adjacency_iff) (h.closed_table hr) hr.initial_lt

/-- The walk along links counts all states unless some are disjoint. -/
theorem Represents.exists_connected (h : inspection.Represents automaton)
    (hr : automaton.InRange) :
    ∃ connected, inspection.links.reachCount? inspection.initial = some connected ∧
      (connected < inspection.size ↔ automaton.Disjoint) := by
  rw [h.size_eq, h.initial_eq, Automaton.Disjoint, ← Relation.EqvGen.reflTransGen_symmGen]
  exact Adjacency.exists_reachCount? h.size_links h.edge_links (h.closed_links hr) hr.initial_lt

theorem Represents.conflicts_isEmpty_iff (h : inspection.Represents automaton) :
    inspection.table.conflicts.isEmpty = true ↔ ¬ automaton.Exhibits .nondeterministic := by
  rw [h.table.conflicts_isEmpty_iff]
  simp only [Automaton.Exhibits]
  push Not
  constructor
  · intro hall q a p p' hne hp hp'
    exact hne (hall q a p p' hp hp')
  · intro hall q a p p' hp hp'
    by_contra hne
    exact hall q a p p' hne hp hp'

theorem Represents.hasConflict_iff (h : inspection.Represents automaton) :
    (!inspection.table.conflicts.isEmpty) = true ↔ automaton.Exhibits .nondeterministic := by
  rw [Bool.not_eq_true', ← Bool.not_eq_true, h.conflicts_isEmpty_iff, not_not]

/-- Without conflicts and gaps each cell has exactly one target. -/
theorem Represents.complete_iff (h : inspection.Represents automaton) (hr : automaton.InRange) :
    (inspection.table.conflicts.isEmpty && inspection.table.gaps.isEmpty) = true ↔
      automaton.Total := by
  rw [Bool.and_eq_true, h.table.conflicts_isEmpty_iff, h.table.gaps_isEmpty_iff]
  constructor
  · intro hboth q hq a ha
    obtain ⟨hunique, hsome⟩ := hboth
    obtain ⟨p, hp⟩ := hsome q hq a ha
    exact ⟨p, hp, fun p' hp' => hunique q a p' p hp' hp⟩
  · intro htotal
    refine ⟨?_, ?_⟩
    · intro q a p p' hp hp'
      exact (htotal q (hr.source_lt _ hp) a (hr.symbol_lt _ hp)).unique hp hp'
    · intro q hq a ha
      exact (htotal q hq a ha).exists

/-- An accepting run reports what the automaton exhibits, besides the warnings from before. -/
theorem Represents.run_result_ok (h : inspection.Represents automaton) (hr : automaton.InRange)
    (hconn : ¬ automaton.Disjoint) (warnings : Warnings) :
    ∃ report, (inspection.run warnings).result = .ok report ∧
      (report.classification = .complete ↔ automaton.Total) ∧
      ∀ x, report.warnings.contains x = true ↔
        warnings.contains x = true ∨ automaton.Exhibits x := by
  obtain ⟨reached, hreached, hunreached⟩ := h.exists_reached hr
  obtain ⟨connected, hconnected, hdisjoint⟩ := h.exists_connected hr
  rw [← hdisjoint] at hconn
  refine ⟨_, by rw [run_of_connected hreached hconnected hconn], ?_, ?_⟩
  · rw [← h.complete_iff hr]
    simp [classification]
  · intro x
    simp only [finalWarnings, scanWarnings, walkWarnings, Warnings.contains_insert_if, hunreached,
      h.hasConflict_iff]
    cases x with
    | noAcceptingState => simp [Automaton.Exhibits]
    | unreachableStates => simp
    | nondeterministic => simp

theorem Represents.run_result_error (h : inspection.Represents automaton)
    (hr : automaton.InRange) (hd : automaton.Disjoint) (warnings : Warnings) :
    (inspection.run warnings).result = .error (.rejected .disjointStates) := by
  obtain ⟨reached, hreached, -⟩ := h.exists_reached hr
  obtain ⟨connected, hconnected, hdisjoint⟩ := h.exists_connected hr
  rw [run_of_disjoint hreached hconnected (hdisjoint.2 hd)]

end Inspection

theorem validate_eq_run {automaton : Automaton} {inspection : Inspection}
    (hof : Inspection.ofAutomaton? automaton = some inspection) :
    validate automaton = inspection.run := by
  simp only [validate, inspect, hof, Stage.inRange_some, pure_bind]

/-- Disjoint states are the only reason for which a validation rejects an automaton. -/
theorem validate_result_error {automaton : Automaton} (hr : automaton.InRange)
    (hd : automaton.Disjoint) (warnings : Warnings) :
    (validate automaton warnings).result = .error (.rejected .disjointStates) := by
  obtain ⟨inspection, hof, h⟩ := Inspection.exists_ofAutomaton? hr
  rw [validate_eq_run hof]
  exact h.run_result_error hr hd warnings

theorem validate_result_ok {automaton : Automaton} (hr : automaton.InRange)
    (hconn : ¬ automaton.Disjoint) (warnings : Warnings) :
    ∃ report, (validate automaton warnings).result = .ok report ∧
      (report.classification = .complete ↔ automaton.Total) ∧
      ∀ x, report.warnings.contains x = true ↔
        warnings.contains x = true ∨ automaton.Exhibits x := by
  obtain ⟨inspection, hof, h⟩ := Inspection.exists_ofAutomaton? hr
  rw [validate_eq_run hof]
  exact h.run_result_ok hr hconn warnings

end AutomatonCheck
