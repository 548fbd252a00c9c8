import AutomatonCheck.Graph.TransitionTable
import AutomatonCheck.Proofs.Exploration

/-!
# The two graphs of an automaton

Both graphs are built by entering the transitions one after another, and both represent
the set of transitions entered so far. The table says of each cell which targets it
has, each once; the links only matter as a relation between states. Entering a
transition whose indices are in range changes one cell, or two lists of links, and
leaves everything else as it was.
-/
namespace AutomatonCheck

variable {n m : Nat} {ts : List Transition} {t : Transition}

namespace TransitionTable

variable {table table' : TransitionTable} {q a p : Nat}

/-- A target in a cell of the table. -/
def Moves (table : TransitionTable) (q a p : Nat) : Prop :=
  ∃ targets, table.destinations? q a = some targets ∧ p ∈ targets

/-- A table of this height and width has exactly these transitions in its cells, whatever the
order within a cell. -/
structure Represents (table : TransitionTable) (n m : Nat) (ts : List Transition) : Prop where
  height : table.rows.length = n
  width : ∀ row ∈ table.rows, row.length = m
  alphabetSize : table.alphabetSize = m
  distinct : ∀ q a targets, table.destinations? q a = some targets → targets.Nodup
  moves_iff : ∀ q a p, table.Moves q a p ↔ ⟨q, a, p⟩ ∈ ts

/-- The cells list their targets in increasing order. -/
def Increasing (table : TransitionTable) : Prop :=
  ∀ q a targets, table.destinations? q a = some targets → targets.Pairwise (· < ·)

theorem Represents.exists_destinations?_iff (h : table.Represents n m ts) :
    (∃ targets, table.destinations? q a = some targets) ↔ q < n ∧ a < m := by
  simp only [destinations?, Option.bind_eq_some_iff, List.getElem?_eq_some_iff]
  constructor
  · intro hex
    obtain ⟨targets, row, ⟨hq, rfl⟩, ha, -⟩ := hex
    have hwidth := h.width _ (List.getElem_mem hq)
    have hheight := h.height
    omega
  · intro hlt
    obtain ⟨hq, ha⟩ := hlt
    have hq' : q < table.rows.length := by rw [h.height]; exact hq
    have ha' : a < table.rows[q].length := by
      rw [h.width _ (List.getElem_mem hq')]
      exact ha
    exact ⟨_, _, ⟨hq', rfl⟩, ha', rfl⟩

theorem eq_nil_of_destinations?_empty {targets : List Nat}
    (h : (empty n m).destinations? q a = some targets) : targets = [] := by
  simp only [destinations?, empty, Option.bind_eq_some_iff, List.getElem?_replicate] at h
  obtain ⟨row, hrow, hcell⟩ := h
  split at hrow
  · cases hrow
    rw [List.getElem?_replicate] at hcell
    split at hcell
    · cases hcell
      rfl
    · cases hcell
  · cases hrow

theorem represents_empty (n m : Nat) : (empty n m).Represents n m [] where
  height := by simp [empty]
  width := by simp [empty]
  alphabetSize := rfl
  distinct := by
    intro q a targets h
    rw [eq_nil_of_destinations?_empty h]
    exact .nil
  moves_iff := by
    intro q a p
    simp only [List.not_mem_nil, iff_false]
    intro h
    obtain ⟨targets, htargets, hp⟩ := h
    rw [eq_nil_of_destinations?_empty htargets] at hp
    simp at hp

theorem increasing_empty (n m : Nat) : (empty n m).Increasing := by
  intro q a targets h
  rw [eq_nil_of_destinations?_empty h]
  exact .nil

/-- Entering a transition changes its cell and no other. -/
theorem destinations?_insert? (h : table.insert? t = some table') (q a : Nat) :
    table'.destinations? q a =
      if q = t.source ∧ a = t.symbol then
        (table.destinations? q a).map (Indices.insert t.target)
      else table.destinations? q a := by
  simp only [insert?, bind, Option.bind_eq_some_iff] at h
  obtain ⟨row, hrow, cell, hcell, h⟩ := h
  cases h
  have hsource : t.source < table.rows.length := (List.getElem?_eq_some_iff.1 hrow).1
  have hsymbol : t.symbol < row.length := (List.getElem?_eq_some_iff.1 hcell).1
  unfold destinations?
  by_cases hq : q = t.source
  · subst hq
    by_cases ha : a = t.symbol
    · subst ha
      simp [List.getElem?_set_self hsource, List.getElem?_set_self hsymbol, hrow, hcell]
    · simp [List.getElem?_set_self hsource, List.getElem?_set_ne (Ne.symm ha), hrow, ha]
  · simp [List.getElem?_set_ne (Ne.symm hq), hq]

theorem moves_insert? (h : table.insert? t = some table') (q a p : Nat) :
    table'.Moves q a p ↔ table.Moves q a p ∨ (⟨q, a, p⟩ : Transition) = t := by
  have hcell : ∃ targets, table.destinations? t.source t.symbol = some targets := by
    simp only [insert?, bind, Option.bind_eq_some_iff] at h
    obtain ⟨row, hrow, cell, hcell, -⟩ := h
    exact ⟨cell, by simp [destinations?, hrow, hcell]⟩
  obtain ⟨targets, htargets⟩ := hcell
  simp only [Moves, destinations?_insert? h]
  by_cases hplace : q = t.source ∧ a = t.symbol
  · obtain ⟨rfl, rfl⟩ := hplace
    have heq : (⟨t.source, t.symbol, p⟩ : Transition) = t ↔ p = t.target := by
      cases t
      simp
    simp [htargets, heq, or_comm]
  · have hne : (⟨q, a, p⟩ : Transition) ≠ t := by
      intro heq
      exact hplace ⟨by rw [← heq], by rw [← heq]⟩
    simp [hplace, hne]

theorem Increasing.insert? (hi : table.Increasing) (h : table.insert? t = some table') :
    table'.Increasing := by
  intro q a targets htargets
  rw [destinations?_insert? h] at htargets
  split at htargets
  · obtain ⟨old, hold, rfl⟩ := Option.map_eq_some_iff.1 htargets
    exact Indices.increasing_insert (hi q a old hold)
  · exact hi q a targets htargets

/-- A transition in range can be entered, and then the table has it besides the others. -/
theorem Represents.insert? (h : table.Represents n m ts) (hi : table.Increasing)
    (hsource : t.source < n) (hsymbol : t.symbol < m) :
    ∃ table', table.insert? t = some table' ∧ table'.Represents n m (ts ++ [t]) := by
  obtain ⟨cell, hcell⟩ := h.exists_destinations?_iff.2 ⟨hsource, hsymbol⟩
  simp only [destinations?, Option.bind_eq_some_iff] at hcell
  obtain ⟨row, hrow, hcell⟩ := hcell
  have hins : table.insert? t = some { table with
      rows := table.rows.set t.source (row.set t.symbol (Indices.insert t.target cell)) } := by
    simp [TransitionTable.insert?, hrow, hcell]
  refine ⟨_, hins, ?_, ?_, h.alphabetSize, ?_, ?_⟩
  · simp [h.height]
  · intro row' hrow'
    rcases List.mem_or_eq_of_mem_set hrow' with hold | rfl
    · exact h.width row' hold
    · rw [List.length_set]
      exact h.width row (List.mem_of_getElem? hrow)
  · intro q a targets htargets
    exact ((hi.insert? hins) q a targets htargets).imp Nat.ne_of_lt
  · intro q a p
    rw [moves_insert? hins, h.moves_iff]
    simp

theorem Represents.foldlM_insert? {us : List Transition} (h : table.Represents n m ts)
    (hi : table.Increasing) (hrange : ∀ t ∈ us, t.source < n ∧ t.symbol < m) :
    ∃ table', us.foldlM TransitionTable.insert? table = some table' ∧
      table'.Represents n m (ts ++ us) ∧ table'.Increasing := by
  induction us generalizing table ts with
  | nil => exact ⟨table, rfl, by simpa using h, hi⟩
  | cons t us ih =>
    obtain ⟨hsource, hsymbol⟩ := hrange t (by simp)
    obtain ⟨next, hnext, hr⟩ := h.insert? hi hsource hsymbol
    obtain ⟨last, hlast, hlr, hli⟩ := ih hr (hi.insert? hnext) fun t ht => hrange t (by simp [ht])
    refine ⟨last, ?_, by simpa [List.append_assoc] using hlr, hli⟩
    simp [List.foldlM_cons, hnext, hlast]

/-- The table of transitions whose source and symbol are in range. -/
theorem exists_foldlM_empty {us : List Transition}
    (hrange : ∀ t ∈ us, t.source < n ∧ t.symbol < m) :
    ∃ table, us.foldlM TransitionTable.insert? (empty n m) = some table ∧
      table.Represents n m us ∧ table.Increasing := by
  simpa using (represents_empty n m).foldlM_insert? (increasing_empty n m) hrange

/-- The table of an automaton whose indices are in range. -/
theorem exists_ofAutomaton? {automaton : Automaton} (h : automaton.InRange) :
    ∃ table, ofAutomaton? automaton = some table ∧
      table.Represents automaton.size automaton.alphabet.size automaton.transitions ∧
      table.Increasing :=
  exists_foldlM_empty fun t ht => ⟨h.source_lt t ht, h.symbol_lt t ht⟩

theorem mem_entries_iff {entry : TableEntry} :
    entry ∈ table.entries ↔
      table.destinations? entry.state entry.symbol = some entry.targets := by
  obtain ⟨q, a, targets⟩ := entry
  simp only [entries, destinations?, List.mem_flatMap, List.mem_map, Prod.exists,
    List.mem_zipIdx_iff_getElem?, Option.bind_eq_some_iff]
  constructor
  · intro h
    obtain ⟨row, i, hrow, cell, j, hcell, heq⟩ := h
    cases heq
    exact ⟨row, hrow, hcell⟩
  · intro h
    obtain ⟨row, hrow, hcell⟩ := h
    exact ⟨row, q, hrow, targets, a, hcell, rfl⟩

theorem length_le_one_iff_of_nodup {targets : List Nat} (h : targets.Nodup) :
    targets.length ≤ 1 ↔ ∀ p ∈ targets, ∀ p' ∈ targets, p = p' := by
  match targets with
  | [] => simp
  | [p] => simp
  | p :: p' :: rest =>
    have hne : p ≠ p' := by
      intro heq
      rw [heq, List.nodup_cons] at h
      exact h.1 (by simp)
    constructor
    · intro hlen
      simp at hlen
    · intro hall
      exact absurd (hall p (by simp) p' (by simp)) hne

/-- There is a conflict unless each cell has at most one target. -/
theorem Represents.conflicts_isEmpty_iff (h : table.Represents n m ts) :
    table.conflicts.isEmpty = true ↔
      ∀ q a p p', (⟨q, a, p⟩ : Transition) ∈ ts → (⟨q, a, p'⟩ : Transition) ∈ ts → p = p' := by
  simp only [conflicts, List.isEmpty_iff, List.filter_eq_nil_iff, mem_entries_iff,
    decide_eq_true_eq, Nat.not_lt, ← h.moves_iff]
  constructor
  · intro hcells q a p p' hp hp'
    obtain ⟨targets, htargets, hp⟩ := hp
    obtain ⟨targets', htargets', hp'⟩ := hp'
    rw [htargets] at htargets'
    cases htargets'
    have hlen : targets.length ≤ 1 := hcells ⟨q, a, targets⟩ htargets
    exact (length_le_one_iff_of_nodup (h.distinct q a targets htargets)).1 hlen p hp p' hp'
  · intro hmoves entry hentry
    rw [length_le_one_iff_of_nodup (h.distinct _ _ _ hentry)]
    intro p hp p' hp'
    exact hmoves _ _ p p' ⟨_, hentry, hp⟩ ⟨_, hentry, hp'⟩

/-- There is a gap unless each cell has a target. -/
theorem Represents.gaps_isEmpty_iff (h : table.Represents n m ts) :
    table.gaps.isEmpty = true ↔ ∀ q < n, ∀ a < m, ∃ p, (⟨q, a, p⟩ : Transition) ∈ ts := by
  simp only [gaps, List.isEmpty_iff, List.filter_eq_nil_iff, mem_entries_iff, ← h.moves_iff]
  constructor
  · intro hcells q hq a ha
    obtain ⟨targets, htargets⟩ := h.exists_destinations?_iff.2 ⟨hq, ha⟩
    obtain ⟨p, hp⟩ := List.exists_mem_of_ne_nil targets (hcells ⟨q, a, targets⟩ htargets)
    exact ⟨p, targets, htargets, hp⟩
  · intro hmoves entry hentry hempty
    obtain ⟨hq, ha⟩ := h.exists_destinations?_iff.1 ⟨_, hentry⟩
    obtain ⟨p, targets, htargets, hp⟩ := hmoves _ hq _ ha
    rw [hentry] at htargets
    cases htargets
    rw [hempty] at hp
    simp at hp

end TransitionTable

/-- A transition leads from one state to the other, on any symbol. -/
def Leads (ts : List Transition) (q p : Nat) : Prop := ∃ a, (⟨q, a, p⟩ : Transition) ∈ ts

theorem symmGen_leads_iff {ts : List Transition} {q p : Nat} :
    Relation.SymmGen (Leads ts) q p ↔ Leads ts q p ∨ Leads ts p q := Iff.rfl

namespace TransitionTable

variable {table : TransitionTable} {q p : Nat}

theorem Represents.edge_adjacency_iff (h : table.Represents n m ts) :
    table.adjacency.Edge q p ↔ Leads ts q p := by
  simp only [Leads, ← h.moves_iff, Moves, destinations?, Option.bind_eq_some_iff]
  simp only [Adjacency.Edge, Adjacency.successors?, adjacency, List.getElem?_map,
    Option.map_eq_some_iff]
  constructor
  · intro hedge
    obtain ⟨ps, ⟨row, hrow, rfl⟩, hp⟩ := hedge
    obtain ⟨cell, hcell, hp⟩ := List.mem_flatten.1 hp
    obtain ⟨a, ha⟩ := List.mem_iff_getElem?.1 hcell
    exact ⟨a, cell, ⟨row, hrow, ha⟩, hp⟩
  · intro hmove
    obtain ⟨a, cell, ⟨row, hrow, ha⟩, hp⟩ := hmove
    exact ⟨_, ⟨row, hrow, rfl⟩, List.mem_flatten_of_mem (List.mem_of_getElem? ha) hp⟩

theorem Represents.size_adjacency (h : table.Represents n m ts) : table.adjacency.size = n := by
  simpa [adjacency, Adjacency.size] using h.height

end TransitionTable

namespace Adjacency

variable {graph graph' : Adjacency} {q p r s : Nat}

theorem exists_insert? (h : q < graph.size) (p : Nat) : ∃ graph', graph.insert? q p = some graph' := by
  simp [insert?, List.getElem?_eq_getElem h]

/-- An inserted edge is an edge besides the others. -/
theorem edge_insert? (h : graph.insert? q p = some graph') :
    graph'.size = graph.size ∧ ∀ r s, graph'.Edge r s ↔ graph.Edge r s ∨ (r = q ∧ s = p) := by
  simp only [insert?, bind, Option.bind_eq_some_iff] at h
  obtain ⟨neighbors, hneighbors, h⟩ := h
  cases h
  have hq : q < graph.lists.length := (List.getElem?_eq_some_iff.1 hneighbors).1
  refine ⟨by simp [size], ?_⟩
  intro r s
  unfold Edge successors?
  by_cases hr : r = q
  · subst hr
    simp [List.getElem?_set_self hq, hneighbors, or_comm]
  · simp [List.getElem?_set_ne (Ne.symm hr), hr]

/-- Both directions of a transition between states of the graph can be linked. -/
theorem exists_link? (hsource : t.source < graph.size) (htarget : t.target < graph.size) :
    ∃ graph', graph.link? t = some graph' ∧ graph'.size = graph.size ∧
      ∀ r s, graph'.Edge r s ↔ graph.Edge r s ∨ (r = t.source ∧ s = t.target) ∨
        (r = t.target ∧ s = t.source) := by
  obtain ⟨there, hthere⟩ := exists_insert? hsource t.target
  obtain ⟨hsize, hedge⟩ := edge_insert? hthere
  rw [← hsize] at htarget
  obtain ⟨back, hback⟩ := exists_insert? htarget t.source
  obtain ⟨hsize', hedge'⟩ := edge_insert? hback
  refine ⟨back, by simp [link?, hthere, hback], hsize'.trans hsize, ?_⟩
  intro r s
  rw [hedge', hedge, or_assoc]

theorem exists_foldlM_link? {us : List Transition} (hg : graph.size = n)
    (he : ∀ r s, graph.Edge r s ↔ Relation.SymmGen (Leads ts) r s)
    (hrange : ∀ t ∈ us, t.source < n ∧ t.target < n) :
    ∃ links, us.foldlM link? graph = some links ∧ links.size = n ∧
      ∀ r s, links.Edge r s ↔ Relation.SymmGen (Leads (ts ++ us)) r s := by
  induction us generalizing graph ts with
  | nil => exact ⟨graph, rfl, hg, by simpa using he⟩
  | cons t us ih =>
    obtain ⟨hsource, htarget⟩ := hrange t (by simp)
    rw [← hg] at hsource htarget
    obtain ⟨next, hnext, hsize, hedge⟩ := exists_link? hsource htarget
    have hlinks (r s : Nat) : next.Edge r s ↔ Relation.SymmGen (Leads (ts ++ [t])) r s := by
      have hleads (q p : Nat) :
          Leads (ts ++ [t]) q p ↔ Leads ts q p ∨ (q = t.source ∧ p = t.target) := by
        cases t
        simp only [Leads, List.mem_append, List.mem_singleton, Transition.mk.injEq, exists_or,
          exists_and_left, exists_eq_left]
      rw [hedge, he]
      simp only [symmGen_leads_iff, hleads]
      tauto
    obtain ⟨last, hlast, hlsize, hledge⟩ :=
      ih (hsize.trans hg) hlinks fun t ht => hrange t (by simp [ht])
    refine ⟨last, ?_, hlsize, by simpa [List.append_assoc] using hledge⟩
    simp [List.foldlM_cons, hnext, hlast]

theorem edge_isolated_iff {n r s : Nat} :
    (isolated n).Edge r s ↔ Relation.SymmGen (Leads []) r s := by
  simp only [Edge, successors?, isolated, List.getElem?_replicate, symmGen_leads_iff, Leads]
  constructor
  · intro hedge
    obtain ⟨ps, hps, hs⟩ := hedge
    split at hps
    · cases hps
      simp at hs
    · cases hps
  · simp

/-- The links of transitions between states in range. -/
theorem exists_foldlM_isolated {us : List Transition}
    (hrange : ∀ t ∈ us, t.source < n ∧ t.target < n) :
    ∃ links, us.foldlM link? (isolated n) = some links ∧ links.size = n ∧
      ∀ r s, links.Edge r s ↔ Relation.SymmGen (Leads us) r s := by
  have hsize : (isolated n).size = n := by simp [isolated, size]
  have hfold := exists_foldlM_link? hsize (fun _ _ => edge_isolated_iff) hrange
  simpa using hfold

/-- The links of an automaton whose indices are in range. -/
theorem exists_linksOf? {automaton : Automaton} (h : automaton.InRange) :
    ∃ links, linksOf? automaton = some links ∧ links.size = automaton.size ∧
      ∀ q p, links.Edge q p ↔ Relation.SymmGen (Leads automaton.transitions) q p :=
  exists_foldlM_isolated fun t ht => ⟨h.source_lt t ht, h.target_lt t ht⟩

end Adjacency

end AutomatonCheck
