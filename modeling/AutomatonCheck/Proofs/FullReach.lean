import AutomatonCheck.Proofs.Acceptance
import AutomatonCheck.Proofs.Verdict

/-!
# Whether every state is reached

Both walks are asked whether they yield every state. A graph answers that itself, by
comparing the number of yielded states with its size, and an inspection looks whether
they are fewer. These are one question, and a question about the states themselves,
since a walk yields nothing twice and nothing out of range.
-/
namespace AutomatonCheck

namespace Adjacency

variable {graph : Adjacency} {origin : Nat}

theorem length_walkFrom_eq_iff :
    (graph.walkFrom origin).order.length = graph.size ↔
      ∀ q < graph.size, q ∈ (graph.walkFrom origin).order := by
  have hle := length_walkFrom_le graph origin
  constructor
  · intro heq q hq
    by_contra hnot
    have hlt := length_walkFrom_lt_iff.2 ⟨q, hq, hnot⟩
    omega
  · intro hall
    by_contra hne
    obtain ⟨q, hq, hnot⟩ := length_walkFrom_lt_iff.1 (Nat.lt_of_le_of_ne hle hne)
    exact hnot (hall q hq)

theorem reachesAll?_of_completed (h : (graph.walkFrom origin).completed = true) :
    graph.reachesAll? origin = some ((graph.walkFrom origin).order.length == graph.size) := by
  rw [reachesAll?, coveredBy?, Walk.count?, if_pos h, Option.map_some]

/-- A walk from an origin yields a number of states that the graph has, and it is known whether these
are all. -/
structure CountsFrom (graph : Adjacency) (origin : Nat) : Prop where
  counted : graph.reachCount? origin = some (graph.walkFrom origin).order.length
  bounded : (graph.walkFrom origin).order.length ≤ graph.size
  decided : ∃ all, graph.reachesAll? origin = some all ∧
    (all = true ↔ ∀ q < graph.size, q ∈ (graph.walkFrom origin).order)

theorem Closed.countsFrom (hclosed : graph.Closed) (ho : origin < graph.size) :
    graph.CountsFrom origin where
  counted := reachCount?_of_completed (hclosed.completed_walkFrom ho)
  bounded := length_walkFrom_le graph origin
  decided := by
    refine ⟨_, reachesAll?_of_completed (hclosed.completed_walkFrom ho), ?_⟩
    rw [beq_iff_eq, length_walkFrom_eq_iff]

/-- The number of yielded states differs from the size only by being less. -/
theorem Closed.exists_reachesAll? {n : Nat} (hclosed : graph.Closed) (hn : graph.size = n)
    (ho : origin < n) :
    ∃ count all, graph.reachCount? origin = some count ∧ graph.reachesAll? origin = some all ∧
      (all = true ↔ ¬ count < n) := by
  rw [← hn] at ho ⊢
  refine ⟨_, _, (hclosed.countsFrom ho).counted,
    reachesAll?_of_completed (hclosed.completed_walkFrom ho), ?_⟩
  have hle := length_walkFrom_le graph origin
  rw [beq_iff_eq]
  omega

end Adjacency

namespace Inspection

variable {inspection : Inspection} {automaton : Automaton} {reached : Nat}

theorem walkWarnings_empty_iff :
    inspection.walkWarnings reached .empty = .empty ↔ ¬ reached < inspection.size := by
  unfold walkWarnings
  by_cases h : reached < inspection.size
  · have hne : Warnings.empty.insert .unreachableStates ≠ .empty := by decide
    simp [h, hne]
  · simp [h]

/-- The graph of the transitions says that every state is reached where the walk along them raises no
warning. -/
theorem Represents.reachesAll?_table (h : inspection.Represents automaton) (hr : automaton.InRange) :
    ∃ all, inspection.table.adjacency.reachesAll? automaton.initial = some all ∧
      (inspection.reachability .empty).result = .ok () ∧
      (all = true ↔ (inspection.reachability .empty).warnings = .empty) := by
  obtain ⟨reached, all, hreached, hall, hiff⟩ :=
    (h.closed_table hr).exists_reachesAll? h.table.size_adjacency hr.initial_lt
  rw [← h.initial_eq] at hreached
  rw [← h.size_eq] at hiff
  rw [reachability_apply hreached, walkWarnings_empty_iff]
  exact ⟨all, hall, rfl, hiff⟩

/-- The graph of the links says that every state is reached where the walk along them rejects
nothing. -/
theorem Represents.reachesAll?_links (h : inspection.Represents automaton) (hr : automaton.InRange) :
    ∃ all, inspection.links.reachesAll? automaton.initial = some all ∧
      ∀ warnings, all = true ↔ (inspection.disjointness warnings).result = .ok () := by
  obtain ⟨connected, all, hconnected, hall, hiff⟩ :=
    (h.closed_links hr).exists_reachesAll? h.size_links hr.initial_lt
  rw [← h.initial_eq] at hconnected
  rw [← h.size_eq] at hiff
  refine ⟨all, hall, ?_⟩
  intro warnings
  rw [disjointness_apply hconnected, hiff]
  by_cases hlt : connected < inspection.size
  · simp [hlt]
  · simp [hlt]

end Inspection

/-- Either graph of a parsed automaton says that every state is reached from the initial one just
where the inspection finds nothing amiss on its walk there. From any origin, as many states are
yielded as the graph has if and only if these are all. -/
theorem full_reach_agrees {lines : List String} {automaton : Automaton} {before : Warnings}
    (h : (parse lines before).result = .ok automaton) :
    ∃ inspection, Inspection.ofAutomaton? automaton = some inspection ∧
      (∃ all, inspection.table.adjacency.reachesAll? automaton.initial = some all ∧
        (inspection.reachability .empty).result = .ok () ∧
        (all = true ↔ (inspection.reachability .empty).warnings = .empty)) ∧
      (∃ all, inspection.links.reachesAll? automaton.initial = some all ∧
        ∀ warnings, all = true ↔ (inspection.disjointness warnings).result = .ok ()) ∧
      (∀ origin < inspection.table.adjacency.size, inspection.table.adjacency.CountsFrom origin) ∧
      (∀ origin < inspection.links.size, inspection.links.CountsFrom origin) ∧
      inspection.table.adjacency.size = automaton.size ∧ inspection.links.size = automaton.size := by
  have hr : automaton.InRange := inRange_of_readAutomaton (parse_eq_ok_iff.1 h)
  obtain ⟨inspection, hof, hrep⟩ := Inspection.exists_ofAutomaton? hr
  refine ⟨inspection, hof, hrep.reachesAll?_table hr, hrep.reachesAll?_links hr, ?_, ?_,
    hrep.table.size_adjacency, hrep.size_links⟩
  · intro origin ho
    exact (hrep.closed_table hr).countsFrom ho
  · intro origin ho
    exact (hrep.closed_links hr).countsFrom ho

/-- A lamp that is on from the start and can only be turned on. -/
def litLampLines : List String :=
  ["states=[on,off]", "alpha=[go]", "init.st=[on]", "fin.st=[on]", "trans=[off>go>on]"]

def litLampInspection : Inspection :=
  ⟨2, 0, ⟨1, [[[]], [[0]]]⟩, ⟨[[1], [0]]⟩⟩

theorem inspect_litLampLines : (parse litLampLines .empty).result.toOption.bind (fun automaton =>
    (Inspection.ofAutomaton? automaton).map fun inspection => (automaton.initial, inspection)) =
    some (0, litLampInspection) := by
  decide +kernel

/-- Nothing leads from `on` to `off`, but the two are linked. -/
theorem litLamp_reach_agrees :
    ∃ automaton, (parse litLampLines .empty).result = .ok automaton ∧
      Inspection.ofAutomaton? automaton = some litLampInspection ∧
      litLampInspection.table.adjacency.reachesAll? automaton.initial = some false ∧
      (litLampInspection.reachability .empty).warnings ≠ .empty ∧
      litLampInspection.links.reachesAll? automaton.initial = some true ∧
      (litLampInspection.disjointness .empty).result = .ok () := by
  obtain ⟨automaton, hok, hinspect⟩ := Option.bind_eq_some_iff.1 inspect_litLampLines
  obtain ⟨inspection, hof, heq⟩ := Option.map_eq_some_iff.1 hinspect
  obtain ⟨hinitial, rfl⟩ := Prod.mk.inj heq
  have h : (parse litLampLines .empty).result = .ok automaton := toOption_eq_some_iff.1 hok
  obtain ⟨inspection, hof', ⟨reached, htable, -, hwarn⟩, ⟨connected, hlinks, hreject⟩, -⟩ :=
    full_reach_agrees h
  rw [hof] at hof'
  cases hof'
  have hfalse : litLampInspection.table.adjacency.reachesAll? automaton.initial = some false := by
    rw [hinitial]
    cbv
  have htrue : litLampInspection.links.reachesAll? automaton.initial = some true := by
    rw [hinitial]
    cbv
  rw [hfalse] at htable
  rw [htrue] at hlinks
  cases htable
  cases hlinks
  refine ⟨automaton, h, hof, hfalse, ?_, htrue, (hreject .empty).1 rfl⟩
  intro hempty
  exact Bool.false_ne_true (hwarn.2 hempty)

end AutomatonCheck
