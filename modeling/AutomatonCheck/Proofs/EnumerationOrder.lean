import Mathlib.Data.List.Forall2
import AutomatonCheck.Inspection
import AutomatonCheck.Proofs.Acceptance
import AutomatonCheck.Proofs.Verdict

/-!
# The order in which successors are enumerated

The targets of a cell and the neighbours of a state are sets, and whoever lists them
chooses an order for each. Another order sends a walk through the states in another
order and with other queues on the way, but an order has no part in which states are
reached, and none in how many targets a cell has. So each part of an inspection is the
same stage, with the same events, and so is the whole run.
-/
namespace AutomatonCheck

theorem forall₂_zipIdx {α β : Type} {r : α → β → Prop} {xs : List α} {ys : List β}
    (h : List.Forall₂ r xs ys) (i : Nat) :
    List.Forall₂ (fun x y => r x.1 y.1 ∧ x.2 = y.2) (xs.zipIdx i) (ys.zipIdx i) := by
  induction h generalizing i with
  | nil => exact .nil
  | cons hxy _ ih => exact .cons ⟨hxy, rfl⟩ (ih (i + 1))

/-- Two walks through the same states that end in the same way. -/
structure Walk.SameStates (walk other : Walk) : Prop where
  perm : walk.order.Perm other.order
  completed : walk.completed = other.completed

theorem Walk.SameStates.count?_eq {walk other : Walk} (h : walk.SameStates other) :
    walk.count? = other.count? := by
  rw [Walk.count?, Walk.count?, h.completed, h.perm.length_eq]

namespace Adjacency

variable {graph other : Adjacency} {origin q p : Nat}

/-- The other graph lists the successors of each state in an order of its own. -/
def Reorders (graph other : Adjacency) : Prop := List.Forall₂ List.Perm graph.lists other.lists

theorem Reorders.symm (h : graph.Reorders other) : other.Reorders graph :=
  (h.imp fun _ _ hperm => hperm.symm).flip

theorem Reorders.size_eq (h : graph.Reorders other) : graph.size = other.size :=
  List.Forall₂.length_eq h

theorem Reorders.edge (h : graph.Reorders other) (he : graph.Edge q p) : other.Edge q p := by
  obtain ⟨ps, hps, hp⟩ := he
  have hq : q < graph.size := lt_of_successors? hps
  have hq' : q < other.size := by rw [← h.size_eq]; exact hq
  have hperm : ps.Perm other.lists[q] := by
    obtain ⟨hlt, rfl⟩ := List.getElem?_eq_some_iff.1 hps
    exact List.Forall₂.get h hlt hq'
  exact ⟨other.lists[q], List.getElem?_eq_getElem hq', hperm.mem_iff.1 hp⟩

theorem Reorders.reaches_eq (h : graph.Reorders other) : graph.Reaches = other.Reaches := by
  have hedge : graph.Edge = other.Edge := by
    funext q p
    exact propext ⟨h.edge, h.symm.edge⟩
  rw [Reaches, Reaches, hedge]

theorem Reorders.completed_walkFrom (h : graph.Reorders other) (origin : Nat) :
    (graph.walkFrom origin).completed = (other.walkFrom origin).completed := by
  rw [Bool.eq_iff_iff, completed_walkFrom_iff, completed_walkFrom_iff, h.reaches_eq, h.size_eq]

/-- Walks that come to their end yield the states that can be reached, and no order plays a part
in these. -/
theorem Reorders.perm_walkFrom (h : graph.Reorders other)
    (hc : (graph.walkFrom origin).completed = true) :
    (graph.walkFrom origin).order.Perm (other.walkFrom origin).order := by
  have hc' : (other.walkFrom origin).completed = true := by rw [← h.completed_walkFrom]; exact hc
  apply (List.perm_ext_iff_of_nodup (nodup_walkFrom _ _) (nodup_walkFrom _ _)).2
  intro q
  rw [mem_walkFrom_iff hc, mem_walkFrom_iff hc', h.reaches_eq]

theorem walkFrom_of_size_le (h : graph.size ≤ origin) : graph.walkFrom origin = ⟨[], false⟩ :=
  Traversal.walk_of_outOfRange (Traversal.next_eq_outOfRange_iff.2 ⟨origin, [], rfl, h⟩)

/-- From every origin the same states are reached, whichever order the successors have. -/
theorem Reorders.sameStates (h : graph.Reorders other) (hclosed : graph.Closed) (origin : Nat) :
    (graph.walkFrom origin).SameStates (other.walkFrom origin) := by
  by_cases ho : origin < graph.size
  · exact ⟨h.perm_walkFrom (hclosed.completed_walkFrom ho), h.completed_walkFrom origin⟩
  · have hsize : graph.size ≤ origin := Nat.le_of_not_lt ho
    have hsize' : other.size ≤ origin := by rw [← h.size_eq]; exact hsize
    rw [walkFrom_of_size_le hsize, walkFrom_of_size_le hsize']
    exact ⟨.refl _, rfl⟩

end Adjacency

/-- The same place with the same targets in another order. -/
structure TableEntry.Reorders (entry other : TableEntry) : Prop where
  state_eq : entry.state = other.state
  symbol_eq : entry.symbol = other.symbol
  targets : entry.targets.Perm other.targets

namespace TransitionTable

variable {table other : TransitionTable}

/-- The other table lists the targets of each cell in an order of its own. -/
structure Reorders (table other : TransitionTable) : Prop where
  alphabetSize_eq : table.alphabetSize = other.alphabetSize
  rows : List.Forall₂ (List.Forall₂ List.Perm) table.rows other.rows

theorem Reorders.adjacency (h : table.Reorders other) :
    table.adjacency.Reorders other.adjacency := by
  refine List.rel_map ?_ h.rows
  intro row row' hrow
  exact List.Perm.flatten_congr hrow

theorem Reorders.entries (h : table.Reorders other) :
    List.Forall₂ TableEntry.Reorders table.entries other.entries := by
  refine List.rel_flatMap (forall₂_zipIdx h.rows 0) ?_
  intro row row' hrow
  refine List.rel_map ?_ (forall₂_zipIdx hrow.1 0)
  intro cell cell' hcell
  exact ⟨hrow.2, hcell.2, hcell.1⟩

/-- Cells are in conflict for their number of targets. -/
theorem Reorders.conflicts (h : table.Reorders other) :
    List.Forall₂ TableEntry.Reorders table.conflicts other.conflicts := by
  refine List.rel_filter ?_ h.entries
  intro entry entry' hentry
  simp only [hentry.targets.length_eq]

theorem Reorders.gaps (h : table.Reorders other) :
    List.Forall₂ TableEntry.Reorders table.gaps other.gaps := by
  refine List.rel_filter ?_ h.entries
  intro entry entry' hentry
  simp only [hentry.targets.isEmpty_eq]

end TransitionTable

/-- Entries that agree up to order give the same list of anything that does not depend on it. -/
theorem map_eq_of_reorders {α : Type} {f : TableEntry → α} {entries others : List TableEntry}
    (h : List.Forall₂ TableEntry.Reorders entries others)
    (hf : ∀ entry other, entry.Reorders other → f entry = f other) :
    entries.map f = others.map f := by
  rw [← List.forall₂_eq_eq_eq]
  exact List.rel_map (fun {_ _} hentry => hf _ _ hentry) h

theorem isEmpty_eq_of_forall₂ {α β : Type} {r : α → β → Prop} {xs : List α} {ys : List β}
    (h : List.Forall₂ r xs ys) : xs.isEmpty = ys.isEmpty := by
  cases h <;> rfl

namespace Inspection

variable {inspection other : Inspection} {automaton : Automaton}

/-- The other inspection enumerates the sets of both graphs in orders of its own. -/
structure Reorders (inspection other : Inspection) : Prop where
  size_eq : inspection.size = other.size
  initial_eq : inspection.initial = other.initial
  table : inspection.table.Reorders other.table
  links : inspection.links.Reorders other.links

section

variable (h : inspection.Reorders other)

include h

theorem Reorders.determinism_eq : inspection.determinism = other.determinism := by
  have hconflicts := h.table.conflicts
  have hempty := isEmpty_eq_of_forall₂ hconflicts
  have hevents := map_eq_of_reorders
    (f := fun entry => Event.conflict entry.state entry.symbol entry.targets.length) hconflicts
    fun entry other hentry => by
      rw [hentry.state_eq, hentry.symbol_eq, hentry.targets.length_eq]
  simp only [determinism, hempty, hevents]

theorem Reorders.completeness_eq (deterministic : Bool) :
    inspection.completeness deterministic = other.completeness deterministic := by
  have hgaps := h.table.gaps
  have hempty := isEmpty_eq_of_forall₂ hgaps
  have hevents := map_eq_of_reorders (f := fun entry => Event.gap entry.state entry.symbol) hgaps
    fun entry other hentry => by rw [hentry.state_eq, hentry.symbol_eq]
  simp only [completeness, hempty, hevents]

variable (ht : inspection.table.adjacency.Closed) (hl : inspection.links.Closed)

include ht in
theorem Reorders.reached_eq (origin : Nat) :
    inspection.table.adjacency.reachCount? origin = other.table.adjacency.reachCount? origin :=
  (h.table.adjacency.sameStates ht origin).count?_eq

include hl in
theorem Reorders.connected_eq (origin : Nat) :
    inspection.links.reachCount? origin = other.links.reachCount? origin :=
  (h.links.sameStates hl origin).count?_eq

include ht hl

/-- The four parts are the same stages, so the whole run is. -/
theorem Reorders.run_eq : inspection.run = other.run := by
  have hreachability : inspection.reachability = other.reachability := by
    simp only [reachability, h.reached_eq ht, h.size_eq, h.initial_eq]
  have hdisjointness : inspection.disjointness = other.disjointness := by
    simp only [disjointness, h.connected_eq hl, h.size_eq, h.initial_eq]
  simp only [run, hreachability, hdisjointness, h.determinism_eq, h.completeness_eq]

end

end Inspection

/-- The graphs of a parsed automaton can be enumerated in any orders: the two counts are the same,
each walk goes through the same states, and a run leaves behind what a validation does. -/
theorem validation_of_any_order {lines : List String} {automaton : Automaton} {before : Warnings}
    (h : (parse lines before).result = .ok automaton) :
    ∃ inspection reached connected, Inspection.ofAutomaton? automaton = some inspection ∧
      ∀ other, inspection.Reorders other →
        (∀ warnings, other.run warnings = validate automaton warnings) ∧
        other.table.adjacency.reachCount? automaton.initial = some reached ∧
        other.links.reachCount? automaton.initial = some connected ∧
        ∀ origin,
          (inspection.table.adjacency.walkFrom origin).SameStates
            (other.table.adjacency.walkFrom origin) ∧
          (inspection.links.walkFrom origin).SameStates (other.links.walkFrom origin) := by
  have hr : automaton.InRange := inRange_of_readAutomaton (parse_eq_ok_iff.1 h)
  obtain ⟨inspection, hof, hrep⟩ := Inspection.exists_ofAutomaton? hr
  obtain ⟨reached, hreached, -⟩ := hrep.exists_reached hr
  obtain ⟨connected, hconnected, -⟩ := hrep.exists_connected hr
  rw [hrep.initial_eq] at hreached hconnected
  have htable := hrep.closed_table hr
  have hlinks := hrep.closed_links hr
  refine ⟨inspection, reached, connected, hof, ?_⟩
  intro other hother
  refine ⟨?_, ?_, ?_, ?_⟩
  · intro warnings
    rw [validate_eq_run hof, hother.run_eq htable hlinks]
  · rw [← hother.reached_eq htable, hreached]
  · rw [← hother.connected_eq hlinks, hconnected]
  · intro origin
    exact ⟨hother.table.adjacency.sameStates htable origin, hother.links.sameStates hlinks origin⟩

/-- A fork with two ways on the same symbol. -/
def forkLines : List String :=
  ["states=[fork,left,right]", "alpha=[go]", "init.st=[fork]", "fin.st=[]",
    "trans=[fork>go>left,fork>go>right,left>go>fork]"]

def forkInspection : Inspection :=
  ⟨3, 0, ⟨1, [[[1, 2]], [[0]], [[]]]⟩, ⟨[[1, 2], [0], [0]]⟩⟩

/-- The fork with its ways in the other order, in one of its graphs or in both. -/
def turnedFork (ways neighbors : List Nat) : Inspection :=
  ⟨3, 0, ⟨1, [[ways], [[0]], [[]]]⟩, ⟨[neighbors, [0], [0]]⟩⟩

theorem forkInspection_reorders {ways neighbors : List Nat} (hw : [1, 2].Perm ways)
    (hn : [1, 2].Perm neighbors) : forkInspection.Reorders (turnedFork ways neighbors) where
  size_eq := rfl
  initial_eq := rfl
  table := by
    refine ⟨rfl, ?_⟩
    exact .cons (.cons hw .nil) (.cons (.cons (.refl _) .nil) (.cons (.cons (.refl _) .nil) .nil))
  links := .cons hn (.cons (.refl _) (.cons (.refl _) .nil))

theorem inspect_forkLines :
    (parse forkLines .empty).result.toOption.bind Inspection.ofAutomaton? = some forkInspection := by
  decide +kernel

theorem exists_parse_forkLines : ∃ automaton, (parse forkLines .empty).result = .ok automaton ∧
    Inspection.ofAutomaton? automaton = some forkInspection := by
  obtain ⟨automaton, hok, hof⟩ := Option.bind_eq_some_iff.1 inspect_forkLines
  exact ⟨automaton, toOption_eq_some_iff.1 hok, hof⟩

theorem fork_of_any_order :
    ∃ automaton, (parse forkLines .empty).result = .ok automaton ∧
      Inspection.ofAutomaton? automaton = some forkInspection ∧
      forkInspection.Reorders (turnedFork [2, 1] [1, 2]) ∧
      forkInspection ≠ turnedFork [2, 1] [1, 2] ∧
      (turnedFork [2, 1] [1, 2]).run .empty = validate automaton .empty := by
  obtain ⟨automaton, h, hof⟩ := exists_parse_forkLines
  obtain ⟨inspection, reached, connected, hof', hall⟩ := validation_of_any_order h
  rw [hof] at hof'
  cases hof'
  have hother : forkInspection.Reorders (turnedFork [2, 1] [1, 2]) :=
    forkInspection_reorders (by decide) (by decide)
  obtain ⟨hrun, -⟩ := hall _ hother
  exact ⟨automaton, h, hof, hother, by decide, hrun .empty⟩

end AutomatonCheck
