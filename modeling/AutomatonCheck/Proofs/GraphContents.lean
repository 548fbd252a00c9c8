import Mathlib.Data.List.Induction
import Mathlib.Data.List.ProdSigma
import Mathlib.Data.Set.Card
import AutomatonCheck.Proofs.Acceptance
import AutomatonCheck.Proofs.TransitionGraphs

/-!
# What the two graphs hold

The table and the links are built apart from each other, but from the same transitions.
The table keeps for each transition its symbol: going through its cells in order, one
meets every pair of a state and a symbol once, and a state is as often a successor as
there are symbols that lead to it. The links keep neither symbol nor direction, so they
can be read off the table, but not the other way round.
-/
namespace AutomatonCheck

/-- What stands somewhere in a longer list stands at its end or in the list before. -/
theorem exists_getElem?_concat_iff {α : Type} {xs : List α} {x : α} {holds : α → Prop} {i : Nat} :
    (∃ y, (xs ++ [x])[i]? = some y ∧ holds y) ↔
      (i = xs.length ∧ holds x) ∨ ∃ y, xs[i]? = some y ∧ holds y := by
  grind

/-- In lists that hold nothing twice, an element stands as often as there are lists that hold it. -/
theorem count_flatten_of_nodup {cells : List (List Nat)} (hcells : ∀ cell ∈ cells, cell.Nodup)
    (p : Nat) :
    cells.flatten.count p = {a : Nat | ∃ cell, cells[a]? = some cell ∧ p ∈ cell}.ncard := by
  induction cells using List.reverseRecOn with
  | nil => simp
  | append_singleton cells cell ih =>
    have hcell : cell.Nodup := hcells cell (by simp)
    have hbefore : cells.flatten.count p =
        {a : Nat | ∃ cell, cells[a]? = some cell ∧ p ∈ cell}.ncard :=
      ih fun other hother => hcells other (by simp [hother])
    rw [List.flatten_append, List.flatten_singleton, List.count_append, hcell.count, hbefore]
    simp only [exists_getElem?_concat_iff]
    by_cases hp : p ∈ cell
    · have hlt : ∀ a ∈ {a : Nat | ∃ cell, cells[a]? = some cell ∧ p ∈ cell}, a < cells.length := by
        intro a ha
        obtain ⟨other, hother, -⟩ := ha
        exact (List.getElem?_eq_some_iff.1 hother).1
      have hfresh : cells.length ∉ {a : Nat | ∃ cell, cells[a]? = some cell ∧ p ∈ cell} := by
        intro hmem
        exact Nat.lt_irrefl _ (hlt _ hmem)
      rw [if_pos hp, ← Set.ncard_insert_of_notMem hfresh ((Set.finite_lt_nat _).subset hlt)]
      congr 1
      ext a
      simp [hp]
    · simp [hp]

/-- The state and the symbol of an entry. -/
def TableEntry.place (entry : TableEntry) : Nat × Nat := (entry.state, entry.symbol)

namespace TransitionTable

variable {table : TransitionTable} {n m q p : Nat} {ts : List Transition} {ps : List Nat}

/-- The entries of a table go through all states, and for each state through all symbols. -/
theorem Represents.map_place_entries (h : table.Represents n m ts) :
    table.entries.map TableEntry.place = (List.range n).product (List.range m) := by
  have hrow : ∀ numbered ∈ table.rows.zipIdx,
      (numbered.1.zipIdx.map fun cell => TableEntry.mk numbered.2 cell.2 cell.1).map
        TableEntry.place = (List.range m).map (Prod.mk numbered.2) := by
    intro numbered hmem
    have hwidth : numbered.1.length = m := h.width _ (List.fst_mem_of_mem_zipIdx hmem)
    calc (numbered.1.zipIdx.map fun cell => TableEntry.mk numbered.2 cell.2 cell.1).map
          TableEntry.place
        = (numbered.1.zipIdx.map Prod.snd).map (Prod.mk numbered.2) := by
          rw [List.map_map, List.map_map]
          rfl
      _ = (List.range m).map (Prod.mk numbered.2) := by
          rw [List.zipIdx_map_snd, hwidth, List.range_eq_range']
  calc table.entries.map TableEntry.place
      = table.rows.zipIdx.flatMap fun numbered => (List.range m).map (Prod.mk numbered.2) := by
        rw [entries, List.map_flatMap]
        exact List.flatMap_congr hrow
    _ = (table.rows.zipIdx.map Prod.snd).flatMap fun q => (List.range m).map (Prod.mk q) := by
        rw [List.flatMap_map]
    _ = (List.range n).product (List.range m) := by
        rw [List.zipIdx_map_snd, h.height, ← List.range_eq_range']
        rfl

theorem Represents.ordered_entries (h : table.Represents n m ts) :
    table.entries.Pairwise fun entry later =>
      entry.state < later.state ∨ (entry.state = later.state ∧ entry.symbol < later.symbol) := by
  have hplaces : (table.entries.map TableEntry.place).Pairwise fun place later =>
      place.1 < later.1 ∨ (place.1 = later.1 ∧ place.2 < later.2) := by
    rw [h.map_place_entries]
    apply List.pairwise_flatMap.2
    constructor
    · intro q _
      rw [List.pairwise_map]
      exact List.pairwise_lt_range.imp fun hlt => .inr ⟨rfl, hlt⟩
    · apply List.pairwise_lt_range.imp
      intro q q' hlt place hplace later hlater
      obtain ⟨a, -, rfl⟩ := List.mem_map.1 hplace
      obtain ⟨a', -, rfl⟩ := List.mem_map.1 hlater
      exact .inl hlt
  exact List.pairwise_map.1 hplaces

/-- Each pair of a state and a symbol has one entry, and no other pair has any. -/
theorem Represents.count_place_entries (h : table.Represents n m ts) (q a : Nat) :
    (table.entries.map TableEntry.place).count (q, a) = if q < n ∧ a < m then 1 else 0 := by
  have hnodup : (table.entries.map TableEntry.place).Nodup := by
    rw [h.map_place_entries]
    exact List.nodup_range.product List.nodup_range
  rw [hnodup.count, h.map_place_entries]
  simp only [List.pair_mem_product, List.mem_range]

/-- A state is as often a successor as there are symbols that lead to it. -/
theorem Represents.count_successors (h : table.Represents n m ts)
    (hps : table.adjacency.successors? q = some ps) (p : Nat) :
    ps.count p = {a | table.Moves q a p}.ncard := by
  simp only [Adjacency.successors?, adjacency, List.getElem?_map, Option.map_eq_some_iff] at hps
  obtain ⟨row, hrow, rfl⟩ := hps
  have hdestinations (a : Nat) : table.destinations? q a = row[a]? := by
    rw [destinations?, hrow, Option.bind_some]
  have hcells : ∀ cell ∈ row, cell.Nodup := by
    intro cell hcell
    obtain ⟨a, ha⟩ := List.mem_iff_getElem?.1 hcell
    exact h.distinct q a cell (by rw [hdestinations, ha])
  rw [count_flatten_of_nodup hcells]
  simp only [Moves, hdestinations]

end TransitionTable

/-- A table and links that hold the transitions of an automaton, each in its own way. -/
structure Automaton.HeldIn (automaton : Automaton) (table : TransitionTable) (links : Adjacency) :
    Prop where
  size_table : table.size = automaton.size
  size_links : links.size = automaton.size
  ordered : table.entries.Pairwise fun entry later =>
    entry.state < later.state ∨ (entry.state = later.state ∧ entry.symbol < later.symbol)
  once : ∀ q a, (table.entries.map TableEntry.place).count (q, a) =
    if q < automaton.size ∧ a < automaton.alphabet.size then 1 else 0
  cell : ∀ entry ∈ table.entries,
    table.destinations? entry.state entry.symbol = some entry.targets ∧ entry.targets.Nodup ∧
      ∀ p, p ∈ entry.targets ↔ ⟨entry.state, entry.symbol, p⟩ ∈ automaton.transitions
  successors : ∀ q < automaton.size, ∃ ps, table.adjacency.successors? q = some ps ∧
    ∀ p, ps.count p = {a | table.Moves q a p}.ncard
  neighbors : ∀ q < automaton.size, ∃ ps, links.successors? q = some ps ∧
    ∀ p, p ∈ ps ↔ ∃ a, table.Moves q a p ∨ table.Moves p a q
  symmetric : ∀ q p, links.Edge q p ↔ links.Edge p q

/-- Both graphs are read off one relation, whatever order the transitions have and however often
they stand. -/
theorem Automaton.InRange.exists_heldIn {automaton : Automaton} (hr : automaton.InRange) :
    ∃ table links, TransitionTable.ofAutomaton? automaton = some table ∧
      Adjacency.linksOf? automaton = some links ∧ automaton.HeldIn table links := by
  obtain ⟨table, htable, h, -⟩ := TransitionTable.exists_ofAutomaton? hr
  obtain ⟨links, hlinks, hsize, hedge⟩ := Adjacency.exists_linksOf? hr
  refine ⟨table, links, htable, hlinks, ?_⟩
  constructor
  case size_table => exact h.height
  case size_links => exact hsize
  case ordered => exact h.ordered_entries
  case once => exact h.count_place_entries
  case cell =>
    intro entry hentry
    have hcell := TransitionTable.mem_entries_iff.1 hentry
    refine ⟨hcell, h.distinct _ _ _ hcell, ?_⟩
    intro p
    rw [← h.moves_iff]
    constructor
    · intro hp
      exact ⟨entry.targets, hcell, hp⟩
    · intro hmove
      obtain ⟨targets, htargets, hp⟩ := hmove
      rw [hcell] at htargets
      cases htargets
      exact hp
  case successors =>
    intro q hq
    rw [← h.size_adjacency] at hq
    exact ⟨_, List.getElem?_eq_getElem hq, h.count_successors (List.getElem?_eq_getElem hq)⟩
  case neighbors =>
    intro q hq
    rw [← hsize] at hq
    refine ⟨links.lists[q], List.getElem?_eq_getElem hq, ?_⟩
    intro p
    have hmem : p ∈ links.lists[q] ↔ links.Edge q p := by
      simp [Adjacency.Edge, Adjacency.successors?, List.getElem?_eq_getElem hq]
    rw [hmem, hedge, symmGen_leads_iff]
    simp only [Leads, h.moves_iff, exists_or]
  case symmetric =>
    intro q p
    rw [hedge, hedge, symmGen_leads_iff, symmGen_leads_iff, or_comm]

/-- The graphs of a parsed automaton can be built, and they hold the same transitions. -/
theorem graphs_hold_transitions {lines : List String} {automaton : Automaton} {before : Warnings}
    (h : (parse lines before).result = .ok automaton) :
    ∃ table links, TransitionTable.ofAutomaton? automaton = some table ∧
      Adjacency.linksOf? automaton = some links ∧ automaton.HeldIn table links := by
  have hr : automaton.InRange := inRange_of_readAutomaton (parse_eq_ok_iff.1 h)
  exact hr.exists_heldIn

/-- A turnstile, which a coin or a kick opens and a push locks again. Putting in a coin is described
twice. -/
def turnstileLines : List String :=
  ["states=[locked,open]", "alpha=[coin,kick,push]", "init.st=[locked]", "fin.st=[open]",
    "trans=[locked>coin>open,locked>kick>open,locked>coin>open,locked>push>locked," ++
      "open>coin>open,open>push>locked]"]

def turnstileTable : TransitionTable := ⟨3, [[[1], [1], [0]], [[1], [], [0]]]⟩

def turnstileLinks : Adjacency := ⟨[[0, 1], [0, 1]]⟩

theorem build_turnstileLines : (parse turnstileLines .empty).result.toOption.bind (fun automaton =>
    (TransitionTable.ofAutomaton? automaton).bind fun table =>
      (Adjacency.linksOf? automaton).map fun links => (table, links)) =
    some (turnstileTable, turnstileLinks) := by
  decide +kernel

/-- A locked turnstile opens on two symbols, so `open` is twice among the successors of `locked`. -/
theorem turnstile_holds_transitions :
    ∃ automaton, (parse turnstileLines .empty).result = .ok automaton ∧
      TransitionTable.ofAutomaton? automaton = some turnstileTable ∧
      Adjacency.linksOf? automaton = some turnstileLinks ∧
      automaton.HeldIn turnstileTable turnstileLinks ∧
      {a | turnstileTable.Moves 0 a 1}.ncard = 2 := by
  obtain ⟨automaton, hok, hbuilt⟩ := Option.bind_eq_some_iff.1 build_turnstileLines
  have h : (parse turnstileLines .empty).result = .ok automaton := toOption_eq_some_iff.1 hok
  obtain ⟨table, links, htable, hlinks, hheld⟩ := graphs_hold_transitions h
  rw [htable, hlinks] at hbuilt
  cases hbuilt
  refine ⟨automaton, h, htable, hlinks, hheld, ?_⟩
  have hsize : automaton.size = 2 := hheld.size_table.symm
  obtain ⟨ps, hps, hcount⟩ := hheld.successors 0 (by rw [hsize]; decide)
  have hlist : turnstileTable.adjacency.successors? 0 = some [1, 1, 0] := by decide
  rw [hlist] at hps
  cases hps
  rw [← hcount]
  decide

end AutomatonCheck
