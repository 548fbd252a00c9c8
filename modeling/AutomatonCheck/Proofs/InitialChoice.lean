import AutomatonCheck.Proofs.ConnectedStates

/-!
# The choice of the initial state

A walk runs forward from one state, but on a graph in which every edge has its reverse,
what it yields is the same from each state that it yields. The walks along links hence
cut the states into classes, and whether there is more than one class is no matter of
the state that is initial: only another line of the description changes it.
-/
namespace AutomatonCheck

namespace Adjacency

variable {graph : Adjacency} {q p : Nat}

theorem Reaches.symm (hsymm : ∀ q p, graph.Edge q p → graph.Edge p q) (h : graph.Reaches q p) :
    graph.Reaches p q := by
  induction h with
  | refl => exact .refl
  | tail _ hedge ih => exact .head (hsymm _ _ hedge) ih

/-- The walks from the states of a graph yield classes: each state is in its own, and classes that
have a state in common have all. -/
structure Partitions (graph : Adjacency) : Prop where
  completed : ∀ q < graph.size, (graph.walkFrom q).completed = true
  origin_mem : ∀ q < graph.size, q ∈ (graph.walkFrom q).order
  mem_comm : ∀ q < graph.size, ∀ p < graph.size,
    p ∈ (graph.walkFrom q).order ↔ q ∈ (graph.walkFrom p).order
  perm_or_disjoint : ∀ q < graph.size, ∀ p < graph.size,
    (graph.walkFrom q).order.Perm (graph.walkFrom p).order ∨
      (graph.walkFrom q).order.Disjoint (graph.walkFrom p).order

theorem Closed.partitions (hclosed : graph.Closed)
    (hsymm : ∀ q p, graph.Edge q p → graph.Edge p q) : graph.Partitions := by
  have hmem {q p : Nat} (hq : q < graph.size) :
      p ∈ (graph.walkFrom q).order ↔ graph.Reaches q p :=
    mem_walkFrom_iff (hclosed.completed_walkFrom hq)
  constructor
  case completed =>
    intro q hq
    exact hclosed.completed_walkFrom hq
  case origin_mem =>
    intro q hq
    exact (hmem hq).2 .refl
  case mem_comm =>
    intro q hq p hp
    rw [hmem hq, hmem hp]
    exact ⟨.symm hsymm, .symm hsymm⟩
  case perm_or_disjoint =>
    intro q hq p hp
    by_cases hqp : graph.Reaches q p
    · left
      apply (List.perm_ext_iff_of_nodup (nodup_walkFrom graph q) (nodup_walkFrom graph p)).2
      intro r
      rw [hmem hq, hmem hp]
      constructor
      · intro hqr
        exact (hqp.symm hsymm).trans hqr
      · intro hpr
        exact hqp.trans hpr
    · right
      intro r hqr hpr
      rw [hmem hq] at hqr
      rw [hmem hp] at hpr
      exact hqp (hqr.trans (hpr.symm hsymm))

end Adjacency

namespace Automaton

variable {automaton : Automaton} {start : Nat}

/-- The same automaton with another initial state. -/
def startingAt (automaton : Automaton) (start : Nat) : Automaton :=
  { automaton with initial := start }

theorem InRange.startingAt (hr : automaton.InRange) (hs : start < automaton.size) :
    (automaton.startingAt start).InRange :=
  ⟨hs, hr.finals_lt, hr.source_lt, hr.symbol_lt, hr.target_lt⟩

/-- A state apart from the initial one is there if any two states are apart. -/
theorem disjoint_iff (hi : automaton.initial < automaton.size) :
    automaton.Disjoint ↔ ∃ q < automaton.size, ∃ p < automaton.size,
      ¬ Relation.EqvGen (Leads automaton.transitions) q p := by
  constructor
  · intro hd
    exact ⟨automaton.initial, hi, hd⟩
  · intro hex
    obtain ⟨q, hq, p, hp, hnot⟩ := hex
    by_contra hconn
    have hall : ∀ r < automaton.size,
        Relation.EqvGen (Leads automaton.transitions) automaton.initial r := by
      intro r hr
      by_contra hapart
      exact hconn ⟨r, hr, hapart⟩
    exact hnot (.trans _ _ _ (.symm _ _ (hall q hq)) (hall p hp))

theorem InRange.disjoint_startingAt_iff (hr : automaton.InRange) (hs : start < automaton.size) :
    (automaton.startingAt start).Disjoint ↔ automaton.Disjoint := by
  rw [disjoint_iff (hr.startingAt hs).initial_lt, disjoint_iff hr.initial_lt]
  rfl

end Automaton

namespace Inspection

variable {inspection : Inspection} {automaton : Automaton} {start : Nat}

/-- The same graphs, walked from another state. -/
def startingAt (inspection : Inspection) (start : Nat) : Inspection :=
  { inspection with initial := start }

theorem Represents.startingAt (h : inspection.Represents automaton) (start : Nat) :
    (inspection.startingAt start).Represents (automaton.startingAt start) :=
  ⟨h.size_eq, rfl, h.table, h.size_links, h.edge_links⟩

theorem ofAutomaton?_startingAt (hof : ofAutomaton? automaton = some inspection) (start : Nat) :
    ofAutomaton? (automaton.startingAt start) = some (inspection.startingAt start) := by
  simp only [ofAutomaton?, bind, Option.bind_eq_some_iff] at hof ⊢
  obtain ⟨table, htable, links, hlinks, heq⟩ := hof
  cases heq
  exact ⟨table, htable, links, hlinks, rfl⟩

/-- Wherever the walk along links starts, it finds disjoint states or it does not. -/
theorem Represents.disjointness_startingAt (h : inspection.Represents automaton)
    (hr : automaton.InRange) (hs : start < automaton.size) (warnings : Warnings) :
    ((inspection.startingAt start).disjointness warnings).result =
      (inspection.disjointness warnings).result := by
  by_cases hd : automaton.Disjoint
  · have hd' := (hr.disjoint_startingAt_iff hs).2 hd
    rw [h.disjointness_of_disjoint hr hd,
      (h.startingAt start).disjointness_of_disjoint (hr.startingAt hs) hd']
  · have hd' := mt (hr.disjoint_startingAt_iff hs).1 hd
    rw [h.disjointness_of_connected hr hd,
      (h.startingAt start).disjointness_of_connected (hr.startingAt hs) hd']

end Inspection

section OtherLines

variable {lines lines' : List String} {automaton automaton' : Automaton}

/-- The line of the initial state decides nothing else about the automaton. -/
theorem eq_startingAt_of_same_lines (h : readAutomaton lines = .ok automaton)
    (h' : readAutomaton lines' = .ok automaton')
    (hsame : ∀ i ≠ Section.initial.place, lines'[i]? = lines[i]?) :
    automaton' = automaton.startingAt automaton'.initial := by
  have hread : ∀ s : Section, s.place ≠ Section.initial.place → s.read lines' = s.read lines :=
    fun s hs => Section.read_of_same_line (hsame s.place hs)
  obtain ⟨states, alphabet, initial, finals, transitions⟩ := automaton
  obtain ⟨states', alphabet', initial', finals', transitions'⟩ := automaton'
  obtain ⟨hs, ha, -, hf, ht, -⟩ := readAutomaton_eq_ok_iff.1 h
  obtain ⟨hs', ha', -, hf', ht', -⟩ := readAutomaton_eq_ok_iff.1 h'
  rw [readStates, readRoster, hread .states (by decide)] at hs'
  rw [readAlphabet, readRoster, hread .alphabet (by decide)] at ha'
  obtain rfl : states = states' := Except.ok.inj (hs.symm.trans hs')
  obtain rfl : alphabet = alphabet' := Except.ok.inj (ha.symm.trans ha')
  rw [readFinals, readStateList, hread .final (by decide)] at hf'
  rw [readTransitions, hread .transitions (by decide)] at ht'
  obtain rfl : finals = finals' := Except.ok.inj (hf.symm.trans hf')
  obtain rfl : transitions = transitions' := Except.ok.inj (ht.symm.trans ht')
  rfl

/-- Two parsed descriptions that differ in the line of the initial state are both rejected for
disjoint states or neither is. -/
theorem check_eq_disjointStates_of_same_lines (h : readAutomaton lines = .ok automaton)
    (h' : readAutomaton lines' = .ok automaton')
    (hsame : ∀ i ≠ Section.initial.place, lines'[i]? = lines[i]?) :
    (check lines').result = .error (.rejected .disjointStates) ↔
      (check lines).result = .error (.rejected .disjointStates) := by
  have hr : automaton.InRange := inRange_of_readAutomaton h
  have hr' : automaton'.InRange := inRange_of_readAutomaton h'
  have hstart : automaton' = automaton.startingAt automaton'.initial :=
    eq_startingAt_of_same_lines h h' hsame
  have hlt : automaton'.initial < automaton.size := by
    have hsize : automaton'.size = automaton.size := by rw [hstart]; rfl
    rw [← hsize]
    exact hr'.initial_lt
  rw [check_eq_disjointStates_iff h, check_eq_disjointStates_iff h', hstart,
    hr.disjoint_startingAt_iff hlt]

end OtherLines

/-- The walks along the links of a parsed automaton cut its states into classes. Whether states are
found to be disjoint is therefore the same for every initial state, also for one that is written into
the description. -/
theorem connected_states_partition {lines : List String} {automaton : Automaton} {before : Warnings}
    (h : (parse lines before).result = .ok automaton) :
    ∃ inspection, Inspection.ofAutomaton? automaton = some inspection ∧
      inspection.links.size = automaton.size ∧ inspection.links.Partitions ∧
      (∀ start < automaton.size,
        Inspection.ofAutomaton? (automaton.startingAt start) =
          some (inspection.startingAt start) ∧
        ∀ warnings, ((inspection.startingAt start).disjointness warnings).result =
          (inspection.disjointness warnings).result) ∧
      ∀ lines' automaton', (parse lines' before).result = .ok automaton' →
        (∀ i ≠ Section.initial.place, lines'[i]? = lines[i]?) →
        ((check lines').result = .error (.rejected .disjointStates) ↔
          (check lines).result = .error (.rejected .disjointStates)) := by
  have hread : readAutomaton lines = .ok automaton := parse_eq_ok_iff.1 h
  have hr : automaton.InRange := inRange_of_readAutomaton hread
  obtain ⟨inspection, hof, hrep⟩ := Inspection.exists_ofAutomaton? hr
  have hsymm : ∀ q p, inspection.links.Edge q p → inspection.links.Edge p q := by
    intro q p hedge
    rw [hrep.edge_links] at hedge ⊢
    exact hedge.symm
  refine ⟨inspection, hof, hrep.size_links, (hrep.closed_links hr).partitions hsymm, ?_, ?_⟩
  · intro start hs
    exact ⟨Inspection.ofAutomaton?_startingAt hof start, hrep.disjointness_startingAt hr hs⟩
  · intro lines' automaton' h' hsame
    exact check_eq_disjointStates_of_same_lines hread (parse_eq_ok_iff.1 h') hsame

theorem islandLines_eq_of_ne {i : Nat} (hi : i ≠ Section.initial.place) :
    (islandLines "island")[i]? = (islandLines "shore")[i]? :=
  match i with
  | 0 => rfl
  | 1 => rfl
  | 2 => absurd rfl hi
  | 3 => rfl
  | 4 => rfl
  | _ + 5 => rfl

/-- One class holds the shore and the bridge and another the island, and either start finds out. -/
theorem island_states_partition :
    ∃ automaton, (parse (islandLines "shore") .empty).result = .ok automaton ∧
      Inspection.ofAutomaton? automaton = some islandInspection ∧
      islandInspection.links.Partitions ∧
      (∀ q ∈ [0, 1, 2], ((islandInspection.startingAt q).disjointness .empty).result =
        .error (.rejected .disjointStates)) ∧
      (check (islandLines "island")).result = .error (.rejected .disjointStates) := by
  obtain ⟨automaton, hok, hof⟩ := Option.bind_eq_some_iff.1 inspect_islandLines
  have h : (parse (islandLines "shore") .empty).result = .ok automaton :=
    toOption_eq_some_iff.1 hok
  have hother : (parse (islandLines "island") .empty).result.toOption.isSome = true := by
    decide +kernel
  obtain ⟨automaton', hok'⟩ := Option.isSome_iff_exists.1 hother
  have h' : (parse (islandLines "island") .empty).result = .ok automaton' :=
    toOption_eq_some_iff.1 hok'
  obtain ⟨inspection, hof', hsize, hpartitions, hstart, hlines⟩ := connected_states_partition h
  rw [hof] at hof'
  cases hof'
  have hcount : islandInspection.links.reachCount? islandInspection.initial = some 2 := by cbv
  have hshore : (check (islandLines "shore")).result = .error (.rejected .disjointStates) := by
    decide +kernel
  refine ⟨automaton, h, hof, hpartitions, ?_, ?_⟩
  · intro q hq
    have hlt : q < automaton.size := by
      rw [← hsize]
      revert q
      decide
    rw [(hstart q hlt).2, Inspection.disjointness_apply hcount]
    rfl
  · exact (hlines _ automaton' h' fun _ => islandLines_eq_of_ne).2 hshore

end AutomatonCheck
