import AutomatonCheck.Proofs.CheckOutcome

/-!
# Reached states are connected

The walk along transitions and the walk along links are taken on graphs of their own, and
an inspection compares nothing but their counts with the size. Yet every edge of the
table is a link, so wherever the first walk gets, the second one does. An automaton is
therefore never rejected as disjoint without being found to have unreachable states.
-/
namespace AutomatonCheck

namespace Adjacency

variable {graph other : Adjacency} {origin : Nat}

/-- With more edges a walk yields more states, in whatever order. -/
theorem walkFrom_subset (hedge : ∀ q p, graph.Edge q p → other.Edge q p)
    (h : (other.walkFrom origin).completed = true) :
    (graph.walkFrom origin).order ⊆ (other.walkFrom origin).order := by
  intro q hq
  rw [mem_walkFrom_iff h]
  exact Relation.ReflTransGen.mono hedge _ _ (reaches_of_mem_walkFrom hq)

end Adjacency

namespace Automaton

variable {automaton : Automaton}

/-- What is not even connected to the initial state cannot be reached from it. -/
theorem Disjoint.unreachable (hd : automaton.Disjoint) : automaton.Exhibits .unreachableStates := by
  obtain ⟨q, hq, hnot⟩ := hd
  refine ⟨q, hq, ?_⟩
  intro hreach
  exact hnot (Relation.EqvGen.reflTransGen_le_eqvGen _ _ _ hreach)

end Automaton

namespace Inspection

variable {inspection : Inspection} {automaton : Automaton} {q p : Nat}

section Represents

variable (h : inspection.Represents automaton)

include h

theorem Represents.edge_links_of_edge_table (hedge : inspection.table.adjacency.Edge q p) :
    inspection.links.Edge q p := by
  rw [h.edge_links]
  exact .of_rel (h.table.edge_adjacency_iff.1 hedge)

variable (hr : automaton.InRange)

include hr

theorem Represents.completed_table (hq : q < automaton.size) :
    (inspection.table.adjacency.walkFrom q).completed = true := by
  rw [← h.table.size_adjacency] at hq
  exact (h.closed_table hr).completed_walkFrom hq

theorem Represents.completed_links (hq : q < automaton.size) :
    (inspection.links.walkFrom q).completed = true := by
  rw [← h.size_links] at hq
  exact (h.closed_links hr).completed_walkFrom hq

theorem Represents.disjointness_of_disjoint (hd : automaton.Disjoint) (warnings : Warnings) :
    (inspection.disjointness warnings).result = .error (.rejected .disjointStates) := by
  obtain ⟨connected, hconnected, hdisjoint⟩ := h.exists_connected hr
  rw [disjointness_apply hconnected, if_pos (hdisjoint.2 hd)]

theorem Represents.disjointness_of_connected (hconn : ¬ automaton.Disjoint) (warnings : Warnings) :
    (inspection.disjointness warnings).result = .ok () := by
  obtain ⟨connected, hconnected, hdisjoint⟩ := h.exists_connected hr
  rw [disjointness_apply hconnected, if_neg (mt hdisjoint.1 hconn)]

/-- The walk along transitions never rejects, and it leaves one warning at most. -/
theorem Represents.reachability_of_unreachable (hu : automaton.Exhibits .unreachableStates)
    (warnings : Warnings) :
    (inspection.reachability warnings).result = .ok () ∧
      (inspection.reachability warnings).warnings = warnings.insert .unreachableStates := by
  obtain ⟨reached, hreached, hunreached⟩ := h.exists_reached hr
  rw [reachability_apply hreached, walkWarnings, if_pos (hunreached.2 hu)]
  exact ⟨rfl, rfl⟩

end Represents

end Inspection

/-- A parsed description is rejected only if its states are disjoint. -/
theorem exists_report_of_connected {lines : List String} {automaton : Automaton}
    (h : readAutomaton lines = .ok automaton) (hconn : ¬ automaton.Disjoint) :
    ∃ report, (check lines).result = .ok report := by
  obtain ⟨report, hok, -⟩ := validate_result_ok (inRange_of_readAutomaton h) hconn
    (if automaton.finals.isEmpty then .insert .empty .noAcceptingState else .empty)
  exact ⟨report, by rw [check_result h, hok]⟩

theorem check_eq_disjointStates_iff {lines : List String} {automaton : Automaton}
    (h : readAutomaton lines = .ok automaton) :
    (check lines).result = .error (.rejected .disjointStates) ↔ automaton.Disjoint := by
  constructor
  · intro hreject
    by_contra hconn
    obtain ⟨report, hok⟩ := exists_report_of_connected h hconn
    rw [hreject] at hok
    cases hok
  · intro hd
    rw [check_result h, validate_result_error (inRange_of_readAutomaton h) hd]

/-- From every state of a parsed automaton, the walk along transitions stays within the walk along
links. Whoever finds disjoint states has therefore warned of unreachable ones, and where every state
is reached from the initial one, the check ends in a report. -/
theorem connected_of_reached {lines : List String} {automaton : Automaton} {before : Warnings}
    (h : (parse lines before).result = .ok automaton) :
    ∃ inspection, Inspection.ofAutomaton? automaton = some inspection ∧
      (∀ q < automaton.size, (inspection.table.adjacency.walkFrom q).completed = true ∧
        (inspection.links.walkFrom q).completed = true ∧
        (inspection.table.adjacency.walkFrom q).order ⊆ (inspection.links.walkFrom q).order) ∧
      (∀ warnings, (inspection.disjointness warnings).result ≠ .ok () →
        ∀ kept, (inspection.reachability kept).result = .ok () ∧
          (inspection.reachability kept).warnings = kept.insert .unreachableStates) ∧
      ((∀ q < automaton.size,
          Relation.ReflTransGen (Leads automaton.transitions) automaton.initial q) →
        (∀ kept, ∃ report, (validate automaton kept).result = .ok report) ∧
        ∃ report, (check lines).result = .ok report) := by
  have hread : readAutomaton lines = .ok automaton := parse_eq_ok_iff.1 h
  have hr : automaton.InRange := inRange_of_readAutomaton hread
  obtain ⟨inspection, hof, hrep⟩ := Inspection.exists_ofAutomaton? hr
  refine ⟨inspection, hof, ?_, ?_, ?_⟩
  · intro q hq
    have hlinks := hrep.completed_links hr hq
    have hsubset := Adjacency.walkFrom_subset (fun _ _ => hrep.edge_links_of_edge_table) hlinks
    exact ⟨hrep.completed_table hr hq, hlinks, hsubset⟩
  · intro warnings hreject
    have hd : automaton.Disjoint := by
      by_contra hconn
      exact hreject (hrep.disjointness_of_connected hr hconn warnings)
    exact hrep.reachability_of_unreachable hr hd.unreachable
  · intro hall
    have hconn : ¬ automaton.Disjoint := by
      intro hd
      obtain ⟨q, hq, hnot⟩ := hd.unreachable
      exact hnot (hall q hq)
    refine ⟨?_, exists_report_of_connected hread hconn⟩
    intro kept
    obtain ⟨report, hok, -⟩ := validate_result_ok hr hconn kept
    exact ⟨report, hok⟩

/-- A shore with a bridge, and an island that no bridge leads to. -/
def islandLines (start : String) : List String :=
  ["states=[shore,bridge,island]", "alpha=[go]", "init.st=[" ++ start ++ "]", "fin.st=[island]",
    "trans=[shore>go>bridge]"]

def islandInspection : Inspection :=
  ⟨3, 0, ⟨1, [[[1]], [[]], [[]]]⟩, ⟨[[1], [0], []]⟩⟩

theorem inspect_islandLines :
    (parse (islandLines "shore") .empty).result.toOption.bind Inspection.ofAutomaton? =
      some islandInspection := by
  decide +kernel

/-- The island makes both parts of the inspection fail, while each state of a lamp is reached. -/
theorem island_connected_of_reached :
    (∃ automaton, (parse (islandLines "shore") .empty).result = .ok automaton ∧
      Inspection.ofAutomaton? automaton = some islandInspection ∧
      (islandInspection.disjointness .empty).result = .error (.rejected .disjointStates) ∧
      (islandInspection.reachability .empty).warnings = Warnings.empty.insert .unreachableStates) ∧
    ∃ report, (check lampLines).result = .ok report := by
  constructor
  · obtain ⟨automaton, hok, hof⟩ := Option.bind_eq_some_iff.1 inspect_islandLines
    have h : (parse (islandLines "shore") .empty).result = .ok automaton :=
      toOption_eq_some_iff.1 hok
    obtain ⟨inspection, hof', -, hwarns, -⟩ := connected_of_reached h
    rw [hof] at hof'
    cases hof'
    have hcount : islandInspection.links.reachCount? islandInspection.initial = some 2 := by cbv
    have hdisjoint :
        (islandInspection.disjointness .empty).result = .error (.rejected .disjointStates) := by
      rw [Inspection.disjointness_apply hcount]
      rfl
    obtain ⟨-, hraised⟩ := hwarns .empty (by simp [hdisjoint]) .empty
    exact ⟨automaton, h, hof, hdisjoint, hraised⟩
  · have hlamp : (parse lampLines .empty).result.toOption.map (fun automaton =>
        (automaton.size, automaton.initial, automaton.transitions)) = some (2, 1, [⟨1, 0, 0⟩]) := by
      decide +kernel
    obtain ⟨automaton, hok, heq⟩ := Option.map_eq_some_iff.1 hlamp
    have h : (parse lampLines .empty).result = .ok automaton := toOption_eq_some_iff.1 hok
    obtain ⟨hsize, hinitial, htransitions⟩ : automaton.size = 2 ∧ automaton.initial = 1 ∧
        automaton.transitions = [⟨1, 0, 0⟩] := by simpa using heq
    obtain ⟨inspection, -, -, -, hconnected⟩ := connected_of_reached h
    rw [hsize, hinitial, htransitions] at hconnected
    refine (hconnected ?_).2
    intro q hq
    obtain rfl | rfl : q = 0 ∨ q = 1 := by omega
    · exact .single ⟨0, by simp⟩
    · exact .refl

end AutomatonCheck
