import Mathlib.Data.Set.Function
import AutomatonCheck.Proofs.Renaming

/-!
# Equal automata and equal graphs

Automata are compared by their names as sets and by position in all else. Two that are equal
have the same names, but a name may have changed its place; what one of them says of a name,
the other says of the name that has taken the place. The graphs have no names: a table is
given by its size and its transitions as a set, the links can be read off the table, and an
inspection is given by its table and its initial state.
-/
namespace AutomatonCheck

/-- A map that turns one list into another without repetitions pairs their elements. -/
theorem bijOn_of_map_eq {α β : Type} {f : α → β} {xs : List α} {ys : List β} (h : xs.map f = ys)
    (hys : ys.Nodup) : Set.BijOn f {x | x ∈ xs} {y | y ∈ ys} := by
  subst h
  refine ⟨?_, ?_, ?_⟩
  · intro x hx
    exact List.mem_map_of_mem hx
  · intro x hx x' hx' heq
    exact List.inj_on_of_nodup_map hys hx hx' heq
  · intro y hy
    obtain ⟨x, hx, rfl⟩ := List.mem_map.1 hy
    exact ⟨x, hx, rfl⟩

namespace Roster

variable {kind : NameKind} {roster other : Roster kind} {i : Nat}

/-- Equal rosters have the same names. -/
theorem beq_iff : (roster == other) = true ↔ ∀ text, text ∈ roster.texts ↔ text ∈ other.texts := by
  have hperm : (roster == other) = true ↔ roster.names.Perm other.names := by
    have hbeq : (roster == other) =
        (roster.size == other.size && roster.names.all fun name => other.names.contains name) := rfl
    simp only [hbeq, Bool.and_eq_true, beq_iff_eq, List.all_eq_true, List.contains_iff_mem]
    constructor
    · intro h
      obtain ⟨hsize, hsub⟩ := h
      exact (List.subperm_of_subset roster.nodup hsub).perm_of_length_le (Nat.le_of_eq hsize.symm)
    · intro h
      exact ⟨h.length_eq, fun name hname => h.mem_iff.1 hname⟩
  rw [hperm]
  constructor
  · intro h text
    exact (h.map Name.text).mem_iff
  · intro h
    refine (List.perm_ext_iff_of_nodup roster.nodup other.nodup).2 fun name => ?_
    rw [← mem_texts, ← mem_texts, h]

theorem size_eq_of_beq (h : (roster == other) = true) : roster.size = other.size := by
  have hperm : roster.texts.Perm other.texts :=
    (List.perm_ext_iff_of_nodup roster.nodup_texts other.nodup_texts).2 (beq_iff.1 h)
  rw [size_eq_length_texts, size_eq_length_texts, hperm.length_eq]

/-- The name that has in the other roster the place of this name. -/
def counterpart (roster other : Roster kind) (name : String) : String :=
  ((roster.position? name).map other.textAt).getD name

theorem counterpart_textAt (hi : i < roster.size) :
    roster.counterpart other (roster.textAt i) = other.textAt i := by
  have hposition : roster.position? (roster.textAt i) = some i :=
    position?_eq_some_iff.2 (names_textAt hi)
  rw [counterpart, hposition, Option.map_some, Option.getD_some]

theorem map_counterpart (hsize : roster.size = other.size) :
    roster.texts.map (roster.counterpart other) = other.texts := by
  apply List.ext_getElem?
  intro i
  rw [List.getElem?_map]
  by_cases hi : i < roster.size
  · have hold : roster.texts[i]? = some (roster.textAt i) := names_iff_getElem?.1 (names_textAt hi)
    have hnew : other.texts[i]? = some (other.textAt i) :=
      names_iff_getElem?.1 (names_textAt (by rw [← hsize]; exact hi))
    rw [hold, hnew, Option.map_some, counterpart_textAt hi]
  · have hi' : ¬ i < other.size := by rw [← hsize]; exact hi
    rw [size_eq_length_texts] at hi hi'
    rw [List.getElem?_eq_none (Nat.le_of_not_lt hi), List.getElem?_eq_none (Nat.le_of_not_lt hi'),
      Option.map_none]

end Roster

namespace Automaton

variable {automaton other : Automaton}

/-- Each name is replaced by the one that has its place in the other automaton. -/
def counterparts (automaton other : Automaton) : Renaming where
  state := automaton.states.counterpart other.states
  symbol := automaton.alphabet.counterpart other.alphabet

theorem beq_iff : (automaton == other) = true ↔
    (automaton.states == other.states) = true ∧ (automaton.alphabet == other.alphabet) = true ∧
      automaton.initial = other.initial ∧ automaton.finals = other.finals ∧
      automaton.transitions = other.transitions := by
  have hbeq : (automaton == other) = (automaton.states == other.states &&
      automaton.alphabet == other.alphabet && automaton.initial == other.initial &&
      automaton.finals == other.finals && automaton.transitions == other.transitions) := rfl
  simp only [hbeq, Bool.and_eq_true, beq_iff_eq, and_assoc]

/-- An automaton in range is known by its listing. -/
theorem InRange.eq_of_listedEntries_eq (h : automaton.InRange) (h' : other.InRange)
    (hi : automaton.finals.Pairwise (· < ·)) (hi' : other.finals.Pairwise (· < ·))
    (hsame : automaton.listedEntries = other.listedEntries) : automaton = other := by
  have hgrammatical := h'.grammatical
  have hdescribes := h'.describes hi'
  rw [← hsame] at hgrammatical hdescribes
  have hread := h.readAutomaton_descriptionOf hi
  rw [(readAutomaton_iff_describes automaton.writtenIn_descriptionOf).2
    ⟨hgrammatical, hdescribes⟩] at hread
  exact (Except.ok.inj hread).symm

end Automaton

namespace Renaming

variable {r : Renaming} {automaton other : Automaton}

/-- The renaming takes one automaton to the other, which has the same names: in each section of
their listings the entry in a place is replaced by the entry in the same place, and the names are
paired. -/
structure Carries (r : Renaming) (automaton other : Automaton) : Prop where
  same_states : ∀ name, name ∈ automaton.states.texts ↔ name ∈ other.states.texts
  same_symbols : ∀ name, name ∈ automaton.alphabet.texts ↔ name ∈ other.alphabet.texts
  states : Set.BijOn r.state {name | name ∈ automaton.states.texts}
    {name | name ∈ other.states.texts}
  symbols : Set.BijOn r.symbol {name | name ∈ automaton.alphabet.texts}
    {name | name ∈ other.alphabet.texts}
  entries : ∀ s, (automaton.listedEntries s).map (r.onEntry s) = other.listedEntries s

theorem onTransition_showTransition (r : Renaming) (automaton : Automaton) (t : Transition) :
    r.onTransition (automaton.showTransition t) =
      r.state (automaton.states.textAt t.source) ++ ">" ++
        r.symbol (automaton.alphabet.textAt t.symbol) ++ ">" ++
        r.state (automaton.states.textAt t.target) := by
  have hfields : fields (automaton.showTransition t) =
      [automaton.states.textAt t.source, automaton.alphabet.textAt t.symbol,
        automaton.states.textAt t.target] := joinedBy_iff.1 (joinedBy_showTransition automaton t)
  simp only [onTransition, hfields]

/-- A renamed automaton is listed with the new names in the old places. -/
theorem Renames.map_listedEntries (h : r.Renames automaton other) (hr : automaton.InRange)
    (s : Section) : (automaton.listedEntries s).map (r.onEntry s) = other.listedEntries s := by
  have hstate {q : Nat} (hq : q < automaton.size) :
      r.state (automaton.states.textAt q) = other.states.textAt q :=
    ((Roster.names_textAt hq).rename h.states).textAt.symm
  have hsymbol {a : Nat} (ha : a < automaton.alphabet.size) :
      r.symbol (automaton.alphabet.textAt a) = other.alphabet.textAt a :=
    ((Roster.names_textAt ha).rename h.alphabet).textAt.symm
  cases s with
  | states => exact h.states.symm
  | alphabet => exact h.alphabet.symm
  | initial =>
    show [r.state (automaton.states.textAt automaton.initial)] =
      [other.states.textAt other.initial]
    rw [hstate hr.initial_lt, h.initial]
  | final =>
    show (automaton.finals.map automaton.states.textAt).map r.state =
      other.finals.map other.states.textAt
    rw [h.finals, List.map_map]
    exact List.map_congr_left fun q hq => hstate (hr.finals_lt q hq)
  | transitions =>
    show (automaton.transitions.map automaton.showTransition).map r.onTransition =
      other.transitions.map other.showTransition
    rw [h.transitions, List.map_map]
    refine List.map_congr_left fun t ht => ?_
    rw [Function.comp_apply, onTransition_showTransition, hstate (hr.source_lt t ht),
      hsymbol (hr.symbol_lt t ht), hstate (hr.target_lt t ht)]
    rfl

/-- With the old indices under the new names, the automaton is the one that the entries list. -/
theorem Carries.renames (h : r.Carries automaton other) (hr : automaton.InRange)
    (hr' : other.InRange) (hi : automaton.finals.Pairwise (· < ·))
    (hi' : other.finals.Pairwise (· < ·)) : r.Renames automaton other := by
  have hs : other.states.texts = automaton.states.texts.map r.state := (h.entries .states).symm
  have ha : other.alphabet.texts = automaton.alphabet.texts.map r.symbol :=
    (h.entries .alphabet).symm
  let moved : Automaton :=
    ⟨other.states, other.alphabet, automaton.initial, automaton.finals, automaton.transitions⟩
  have hmoved : r.Renames automaton moved := ⟨hs, ha, rfl, rfl, rfl⟩
  have hsize : moved.size = automaton.size := Roster.size_of_texts_eq hs
  have hsymbols : moved.alphabet.size = automaton.alphabet.size := Roster.size_of_texts_eq ha
  have hrange : moved.InRange := by
    constructor
    · rw [hsize]; exact hr.initial_lt
    · rw [hsize]; exact hr.finals_lt
    · rw [hsize]; exact hr.source_lt
    · rw [hsymbols]; exact hr.symbol_lt
    · rw [hsize]; exact hr.target_lt
  have hsame : moved.listedEntries = other.listedEntries := by
    funext s
    rw [← hmoved.map_listedEntries hr, h.entries]
  have heq : moved = other := hrange.eq_of_listedEntries_eq hr' hi hi' hsame
  rw [← heq]
  exact hmoved

end Renaming

/-- Automata are equal if and only if the names that have the same places carry one to the other. -/
theorem Automaton.InRange.beq_iff_carries {automaton other : Automaton} (hr : automaton.InRange)
    (hr' : other.InRange) (hi : automaton.finals.Pairwise (· < ·))
    (hi' : other.finals.Pairwise (· < ·)) :
    (automaton == other) = true ↔ (automaton.counterparts other).Carries automaton other := by
  rw [Automaton.beq_iff]
  constructor
  · intro h
    obtain ⟨hs, ha, hinitial, hfinals, htransitions⟩ := h
    have hstates := Roster.map_counterpart (Roster.size_eq_of_beq hs)
    have hsymbols := Roster.map_counterpart (Roster.size_eq_of_beq ha)
    have hrenames : (automaton.counterparts other).Renames automaton other :=
      ⟨hstates.symm, hsymbols.symm, hinitial.symm, hfinals.symm, htransitions.symm⟩
    exact ⟨Roster.beq_iff.1 hs, Roster.beq_iff.1 ha,
      bijOn_of_map_eq hstates other.states.nodup_texts,
      bijOn_of_map_eq hsymbols other.alphabet.nodup_texts, hrenames.map_listedEntries hr⟩
  · intro h
    have hrenames := h.renames hr hr' hi hi'
    exact ⟨Roster.beq_iff.2 h.same_states, Roster.beq_iff.2 h.same_symbols, hrenames.initial.symm,
      hrenames.finals.symm, hrenames.transitions.symm⟩

namespace TransitionTable

variable {table other : TransitionTable} {n m : Nat} {ts us : List Transition}

theorem destinations?_getElem {q a : Nat} (hq : q < table.rows.length) (ha : a < table.rows[q].length) :
    table.destinations? q a = some table.rows[q][a] := by
  rw [destinations?, List.getElem?_eq_getElem hq, Option.bind_some, List.getElem?_eq_getElem ha]

/-- Tables of one size that list the same transitions in increasing cells are one table. -/
theorem Represents.eq_of_mem_iff (h : table.Represents n m ts) (h' : other.Represents n m us)
    (hi : table.Increasing) (hi' : other.Increasing) (hsame : ∀ t, t ∈ ts ↔ t ∈ us) :
    table = other := by
  have hcell {q a : Nat} {targets targets' : List Nat}
      (hc : table.destinations? q a = some targets)
      (hc' : other.destinations? q a = some targets') : targets = targets' := by
    refine (hi q a targets hc).eq_of_mem_iff (hi' q a targets' hc') fun p => ?_
    have hmoves : table.Moves q a p ↔ other.Moves q a p := by
      rw [h.moves_iff, h'.moves_iff, hsame]
    simpa [Moves, hc, hc'] using hmoves
  refine TransitionTable.ext (h.alphabetSize.trans h'.alphabetSize.symm) ?_
  refine List.ext_getElem (h.height.trans h'.height.symm) fun q hq hq' => ?_
  have hwidth : table.rows[q].length = m := h.width _ (List.getElem_mem hq)
  have hwidth' : other.rows[q].length = m := h'.width _ (List.getElem_mem hq')
  refine List.ext_getElem (hwidth.trans hwidth'.symm) fun a ha ha' => ?_
  exact hcell (destinations?_getElem hq ha) (destinations?_getElem hq' ha')

end TransitionTable

namespace Adjacency

variable {graph graph' other : Adjacency}

/-- The lists of successors are increasing. -/
def Increasing (graph : Adjacency) : Prop :=
  ∀ q ps, graph.successors? q = some ps → ps.Pairwise (· < ·)

theorem increasing_isolated (n : Nat) : (isolated n).Increasing := by
  intro q ps hps
  have hmem : ps ∈ List.replicate n [] := List.mem_of_getElem? hps
  rw [List.eq_of_mem_replicate hmem]
  exact .nil

theorem Increasing.insert? (hi : graph.Increasing) {q p : Nat}
    (h : graph.insert? q p = some graph') : graph'.Increasing := by
  simp only [Adjacency.insert?, bind, Option.bind_eq_some_iff] at h
  obtain ⟨neighbors, hneighbors, h⟩ := h
  cases h
  intro r ps hps
  rw [successors?, List.getElem?_set] at hps
  split at hps
  · split at hps
    · cases hps
      exact Indices.increasing_insert (hi q neighbors hneighbors)
    · cases hps
  · exact hi r ps hps

theorem Increasing.foldlM_link? {ts : List Transition} (hi : graph.Increasing)
    (h : ts.foldlM link? graph = some graph') : graph'.Increasing := by
  induction ts generalizing graph with
  | nil =>
    cases h
    exact hi
  | cons t ts ih =>
    rw [List.foldlM_cons] at h
    obtain ⟨back, hback, h⟩ := Option.bind_eq_some_iff.1 h
    obtain ⟨there, hthere, hback⟩ := Option.bind_eq_some_iff.1 hback
    exact ih ((hi.insert? hthere).insert? hback) h

/-- Graphs of one size that have the same edges in increasing lists are one graph. -/
theorem Increasing.eq_of_edge_iff (hi : graph.Increasing) (hi' : other.Increasing)
    (hsize : graph.size = other.size) (hedge : ∀ q p, graph.Edge q p ↔ other.Edge q p) :
    graph = other := by
  refine Adjacency.ext (List.ext_getElem hsize fun q hq hq' => ?_)
  have hps : graph.successors? q = some graph.lists[q] := List.getElem?_eq_getElem hq
  have hps' : other.successors? q = some other.lists[q] := List.getElem?_eq_getElem hq'
  refine (hi q _ hps).eq_of_mem_iff (hi' q _ hps') fun p => ?_
  simpa [Edge, hps, hps'] using hedge q p

end Adjacency

namespace Inspection

variable {inspection inspection' : Inspection} {automaton other : Automaton}

/-- The graphs of an automaton, with every set in increasing order. -/
structure Orders (inspection : Inspection) (automaton : Automaton) : Prop
    extends Represents inspection automaton where
  increasing_table : inspection.table.Increasing
  increasing_links : inspection.links.Increasing

theorem exists_orders (h : automaton.InRange) :
    ∃ inspection, ofAutomaton? automaton = some inspection ∧ inspection.Orders automaton := by
  obtain ⟨table, htable, hr, hi⟩ := TransitionTable.exists_ofAutomaton? h
  obtain ⟨links, hlinks, hsize, hedge⟩ := Adjacency.exists_linksOf? h
  have hincreasing : links.Increasing := (Adjacency.increasing_isolated _).foldlM_link? hlinks
  exact ⟨⟨automaton.size, automaton.initial, table, links⟩, by simp [ofAutomaton?, htable, hlinks],
    ⟨rfl, rfl, hr, hsize, hedge⟩, hi, hincreasing⟩

section

variable (h : inspection.Orders automaton) (h' : inspection'.Orders other)

include h h'

/-- Tables are equal if and only if their sizes and their transitions as sets are. -/
theorem Orders.table_eq_iff : inspection.table = inspection'.table ↔
    automaton.size = other.size ∧ automaton.alphabet.size = other.alphabet.size ∧
      ∀ t, t ∈ automaton.transitions ↔ t ∈ other.transitions := by
  constructor
  · intro heq
    have htable := h'.table
    rw [← heq] at htable
    refine ⟨h.table.height.symm.trans htable.height,
      h.table.alphabetSize.symm.trans htable.alphabetSize, fun t => ?_⟩
    rw [← h.table.moves_iff t.source t.symbol t.target,
      htable.moves_iff t.source t.symbol t.target]
  · intro hsame
    obtain ⟨hsize, hsymbols, hmem⟩ := hsame
    have htable := h'.table
    rw [← hsize, ← hsymbols] at htable
    exact h.table.eq_of_mem_iff htable h.increasing_table h'.increasing_table hmem

/-- The table decides the links. -/
theorem Orders.links_eq (heq : inspection.table = inspection'.table) :
    inspection.links = inspection'.links := by
  obtain ⟨hsize, -, hmem⟩ := (h.table_eq_iff h').1 heq
  apply h.increasing_links.eq_of_edge_iff h'.increasing_links
  · rw [h.size_links, h'.size_links, hsize]
  · intro q p
    simp only [h.edge_links, h'.edge_links, symmGen_leads_iff, Leads, hmem]

/-- Table and initial state decide the inspection. -/
theorem Orders.eq_of_table_eq (heq : inspection.table = inspection'.table)
    (hinitial : automaton.initial = other.initial) : inspection = inspection' := by
  have hsize : inspection.size = inspection'.size := by
    rw [h.size_eq, h'.size_eq, ((h.table_eq_iff h').1 heq).1]
  have hstart : inspection.initial = inspection'.initial := by
    rw [h.initial_eq, h'.initial_eq, hinitial]
  have hlinks := h.links_eq h' heq
  cases inspection
  cases inspection'
  rw [Inspection.mk.injEq]
  exact ⟨hsize, hstart, heq, hlinks⟩

end

end Inspection

/-- Parsed automata are equal if and only if the names that have the same places are a bijection of
the same names onto themselves that carries the initial state, the final states and each transition
of one automaton to those of the other; then their graphs are equal. Tables are equal if and only if
they have the same size and the same set of transitions. Equal tables come with equal links, and from
the same initial state with the same validation, whatever was raised before. -/
theorem equality_explained {lines lines' : List String} {automaton other : Automaton}
    {before before' : Warnings} (h : (parse lines before).result = .ok automaton)
    (h' : (parse lines' before').result = .ok other) :
    ((automaton == other) = true ↔ (automaton.counterparts other).Carries automaton other) ∧
    ∃ inspection inspection', Inspection.ofAutomaton? automaton = some inspection ∧
      Inspection.ofAutomaton? other = some inspection' ∧
      ((automaton == other) = true →
        inspection.table = inspection'.table ∧ inspection.links = inspection'.links) ∧
      (inspection.table = inspection'.table ↔
        automaton.size = other.size ∧ automaton.alphabet.size = other.alphabet.size ∧
          ∀ t, t ∈ automaton.transitions ↔ t ∈ other.transitions) ∧
      (inspection.table = inspection'.table → inspection.links = inspection'.links) ∧
      (inspection.table = inspection'.table → automaton.initial = other.initial →
        ∀ warnings, validate automaton warnings = validate other warnings) := by
  rw [parse_eq_ok_iff] at h h'
  have hr : automaton.InRange := inRange_of_readAutomaton h
  have hr' : other.InRange := inRange_of_readAutomaton h'
  obtain ⟨inspection, hof, ho⟩ := Inspection.exists_orders hr
  obtain ⟨inspection', hof', ho'⟩ := Inspection.exists_orders hr'
  refine ⟨hr.beq_iff_carries hr' (increasing_finals_of_readAutomaton h)
    (increasing_finals_of_readAutomaton h'), inspection, inspection', hof, hof', ?_,
    ho.table_eq_iff ho', ho.links_eq ho', ?_⟩
  · intro hequal
    obtain ⟨hs, ha, -, -, htransitions⟩ := Automaton.beq_iff.1 hequal
    have htable : inspection.table = inspection'.table := by
      rw [ho.table_eq_iff ho', htransitions]
      exact ⟨Roster.size_eq_of_beq hs, Roster.size_eq_of_beq ha, fun _ => Iff.rfl⟩
    exact ⟨htable, ho.links_eq ho' htable⟩
  · intro htable hinitial warnings
    rw [validate_eq_run hof, validate_eq_run hof', ho.eq_of_table_eq ho' htable hinitial]

/-- A day that begins in the light. -/
def dayLines : List String :=
  ["states=[light,dark]", "alpha=[dusk,dawn]", "init.st=[light]", "fin.st=[dark]",
    "trans=[light>dusk>dark,dark>dawn>light]"]

/-- The day with all names exchanged: it begins in the dark. -/
def nightLines : List String :=
  ["states=[dark,light]", "alpha=[dawn,dusk]", "init.st=[dark]", "fin.st=[light]",
    "trans=[dark>dawn>light,light>dusk>dark]"]

theorem compare_day_night : (parse dayLines .empty).result.toOption.bind (fun automaton =>
    (parse nightLines .empty).result.toOption.map fun other =>
      (automaton == other, automaton.states.texts, other.states.texts)) =
    some (true, ["light", "dark"], ["dark", "light"]) := by
  decide +kernel

/-- Day and night are equal, though the names have changed their places. -/
theorem day_equal_night :
    ∃ automaton other, (parse dayLines .empty).result = .ok automaton ∧
      (parse nightLines .empty).result = .ok other ∧ (automaton == other) = true ∧
      automaton.states.texts = ["light", "dark"] ∧ other.states.texts = ["dark", "light"] ∧
      (automaton.counterparts other).Carries automaton other ∧
      ∀ warnings, validate automaton warnings = validate other warnings := by
  obtain ⟨automaton, hok, hcompared⟩ := Option.bind_eq_some_iff.1 compare_day_night
  obtain ⟨other, hok', heq⟩ := Option.map_eq_some_iff.1 hcompared
  have h : (parse dayLines .empty).result = .ok automaton := toOption_eq_some_iff.1 hok
  have h' : (parse nightLines .empty).result = .ok other := toOption_eq_some_iff.1 hok'
  obtain ⟨hequal, hstates, hstates'⟩ : (automaton == other) = true ∧
      automaton.states.texts = ["light", "dark"] ∧ other.states.texts = ["dark", "light"] := by
    simpa using heq
  obtain ⟨hcarries, inspection, inspection', -, -, hgraphs, -, -, hvalidate⟩ :=
    equality_explained h h'
  exact ⟨automaton, other, h, h', hequal, hstates, hstates', hcarries.1 hequal,
    hvalidate (hgraphs hequal).1 (Automaton.beq_iff.1 hequal).2.2.1⟩

end AutomatonCheck
