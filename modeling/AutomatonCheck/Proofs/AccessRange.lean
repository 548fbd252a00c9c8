import AutomatonCheck.Proofs.CheckOutcome

/-!
# Every access is in range

Lists are read by index in three places: a transition is entered into its cell of the
table, its two states are linked, and a traversal reads the successors of the state at
the head of its queue. The parser gives every name a position in its roster, entering a
transition keeps the sizes of both graphs, and their edges lead to states they have. A
traversal therefore marks and queues no other states, step after step, and a check has
nothing left to stop for but a rejection.
-/
namespace AutomatonCheck

namespace Traversal

variable {graph : Adjacency} {origin : Nat} {t : Traversal}

/-- One traversal leads to another by yielding states. -/
def Continues (graph : Adjacency) : Traversal → Traversal → Prop :=
  Relation.ReflTransGen fun t rest => ∃ q, t.next graph = .yielded q rest

/-- The invariant holds wherever a traversal has got to. -/
theorem Continues.exists_explores (h : Continues graph (start origin) t) :
    ∃ yielded, t.Explores graph origin yielded := by
  induction h with
  | refl => exact ⟨[], explores_start graph origin⟩
  | tail _ hstep ih =>
    obtain ⟨yielded, hexplores⟩ := ih
    obtain ⟨q, hnext⟩ := hstep
    exact ⟨yielded ++ [q], hexplores.next hnext⟩

end Traversal

/-- Whatever steps a traversal takes from the origin, it queues only states of the graph and finds
their successors. -/
def Adjacency.TraversesInRange (graph : Adjacency) (origin : Nat) : Prop :=
  ∀ t, Traversal.Continues graph (.start origin) t →
    (∀ q ∈ t.queue, q < graph.size) ∧ t.next graph ≠ .outOfRange

theorem Adjacency.Closed.traversesInRange {graph : Adjacency} {origin : Nat}
    (hclosed : graph.Closed) (ho : origin < graph.size) : graph.TraversesInRange origin := by
  intro t ht
  obtain ⟨yielded, hexplores⟩ := ht.exists_explores
  have hqueue : ∀ q ∈ t.queue, q < graph.size := by
    intro q hq
    have hmarked : q ∈ t.marked := (hexplores.mem_marked q).2 (.inr hq)
    exact hclosed.lt_of_reaches ho (hexplores.reached q hmarked)
  refine ⟨hqueue, ?_⟩
  rw [ne_eq, Traversal.next_eq_outOfRange_iff]
  intro hout
  obtain ⟨q, queue, hcut, hge⟩ := hout
  have hlt : q < graph.size := hqueue q (by simp [hcut])
  omega

namespace Automaton

variable {automaton : Automaton}

/-- Each transition finds its cell in the table and its two states among the links that the
transitions before it have built. -/
structure BuildsInRange (automaton : Automaton) : Prop where
  cell : ∀ before t after, automaton.transitions = before ++ t :: after →
    ∃ table targets,
      before.foldlM TransitionTable.insert? (.empty automaton.size automaton.alphabet.size) =
        some table ∧
      table.destinations? t.source t.symbol = some targets
  neighbors : ∀ before t after, automaton.transitions = before ++ t :: after →
    ∃ links sources targets,
      before.foldlM Adjacency.link? (.isolated automaton.size) = some links ∧
      links.successors? t.source = some sources ∧ links.successors? t.target = some targets

theorem InRange.buildsInRange (h : automaton.InRange) : automaton.BuildsInRange where
  cell := by
    intro before t after hcut
    have ht : t ∈ automaton.transitions := by simp [hcut]
    have hbefore : ∀ u ∈ before, u.source < automaton.size ∧ u.symbol < automaton.alphabet.size := by
      intro u hu
      have hmem : u ∈ automaton.transitions := by simp [hcut, hu]
      exact ⟨h.source_lt u hmem, h.symbol_lt u hmem⟩
    obtain ⟨table, htable, hrep, -⟩ := TransitionTable.exists_foldlM_empty hbefore
    obtain ⟨targets, htargets⟩ :=
      hrep.exists_destinations?_iff.2 ⟨h.source_lt t ht, h.symbol_lt t ht⟩
    exact ⟨table, targets, htable, htargets⟩
  neighbors := by
    intro before t after hcut
    have ht : t ∈ automaton.transitions := by simp [hcut]
    have hbefore : ∀ u ∈ before, u.source < automaton.size ∧ u.target < automaton.size := by
      intro u hu
      have hmem : u ∈ automaton.transitions := by simp [hcut, hu]
      exact ⟨h.source_lt u hmem, h.target_lt u hmem⟩
    obtain ⟨links, hlinks, hsize, -⟩ := Adjacency.exists_foldlM_isolated hbefore
    have hsource : t.source < links.size := by rw [hsize]; exact h.source_lt t ht
    have htarget : t.target < links.size := by rw [hsize]; exact h.target_lt t ht
    exact ⟨links, _, _, hlinks, List.getElem?_eq_getElem hsource, List.getElem?_eq_getElem htarget⟩

end Automaton

/-- A validation of an automaton in range ends in a report or finds disjoint states. -/
theorem validate_ne_outOfRange {automaton : Automaton} (hr : automaton.InRange)
    (warnings : Warnings) : (validate automaton warnings).result ≠ .error .outOfRange := by
  by_cases hdis : automaton.Disjoint
  · rw [validate_result_error hr hdis]
    simp
  · obtain ⟨report, hok, -⟩ := validate_result_ok hr hdis warnings
    rw [hok]
    simp

theorem parse_ne_outOfRange (lines : List String) (warnings : Warnings) :
    (parse lines warnings).result ≠ .error .outOfRange := by
  rw [parse_result, ne_eq, resultOf_eq_error_iff]
  intro hout
  obtain ⟨rejection, hstop, -⟩ := hout
  cases hstop

theorem exists_outcome_iff {result : Except Stop Report} :
    (∃ outcome, Outcome.ofResult? result = some outcome) ↔ result ≠ .error .outOfRange := by
  match result with
  | .ok report => simp [Outcome.ofResult?]
  | .error (.rejected rejection) => simp [Outcome.ofResult?]
  | .error .outOfRange => simp [Outcome.ofResult?]

theorem check_ne_outOfRange (lines : List String) : (check lines).result ≠ .error .outOfRange := by
  cases hparse : (parse lines .empty).result with
  | error stop =>
    have hstop : stop ≠ .outOfRange := by
      intro hout
      rw [hout] at hparse
      exact parse_ne_outOfRange lines .empty hparse
    rw [check, checking, Stage.result_bind_of_error hparse]
    simpa using hstop
  | ok automaton =>
    rw [check, checking, Stage.result_bind_of_ok hparse]
    exact validate_ne_outOfRange (inRange_of_readAutomaton (parse_eq_ok_iff.1 hparse)) _

/-- Every check has an outcome. A parsed automaton has a state, its indices are in range, and so is
every index that is read while its graphs are built, walked and validated. -/
theorem check_reads_in_range (lines : List String) :
    (∃ outcome, Outcome.ofResult? (check lines).result = some outcome) ∧
    ∀ before, (parse lines before).result ≠ .error .outOfRange ∧
      ∀ automaton, (parse lines before).result = .ok automaton →
        0 < automaton.size ∧ automaton.InRange ∧ automaton.BuildsInRange ∧
        (∀ warnings, (validate automaton warnings).result ≠ .error .outOfRange) ∧
        ∃ inspection, Inspection.ofAutomaton? automaton = some inspection ∧
          ∀ origin < automaton.size, inspection.table.adjacency.TraversesInRange origin ∧
            inspection.links.TraversesInRange origin := by
  refine ⟨exists_outcome_iff.2 (check_ne_outOfRange lines), ?_⟩
  intro before
  refine ⟨parse_ne_outOfRange lines before, ?_⟩
  intro automaton h
  have hr : automaton.InRange := inRange_of_readAutomaton (parse_eq_ok_iff.1 h)
  have hpos : 0 < automaton.size := Nat.zero_lt_of_lt hr.initial_lt
  obtain ⟨inspection, hof, hrep⟩ := Inspection.exists_ofAutomaton? hr
  refine ⟨hpos, hr, hr.buildsInRange, validate_ne_outOfRange hr, inspection, hof, ?_⟩
  intro origin ho
  have htable : origin < inspection.table.adjacency.size := by
    rw [hrep.table.size_adjacency]
    exact ho
  have hlinks : origin < inspection.links.size := by
    rw [hrep.size_links]
    exact ho
  exact ⟨(hrep.closed_table hr).traversesInRange htable,
    (hrep.closed_links hr).traversesInRange hlinks⟩

theorem lamp_reads_in_range :
    ∃ automaton inspection, (parse lampLines .empty).result = .ok automaton ∧
      0 < automaton.size ∧ automaton.InRange ∧ automaton.BuildsInRange ∧
      Inspection.ofAutomaton? automaton = some inspection ∧
      inspection.table.adjacency.TraversesInRange automaton.initial ∧
      inspection.links.TraversesInRange automaton.initial := by
  obtain ⟨automaton, h⟩ := exists_parse_lampLines
  obtain ⟨-, hall⟩ := check_reads_in_range lampLines
  obtain ⟨-, hparsed⟩ := hall .empty
  obtain ⟨hpos, hr, hbuilds, -, inspection, hof, htraverses⟩ := hparsed automaton h
  obtain ⟨htable, hlinks⟩ := htraverses automaton.initial hr.initial_lt
  exact ⟨automaton, inspection, h, hpos, hr, hbuilds, hof, htable, hlinks⟩

end AutomatonCheck
