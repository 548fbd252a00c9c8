import Mathlib.Combinatorics.Enumerative.DoubleCounting
import AutomatonCheck.Proofs.AddedTransitions
import AutomatonCheck.Proofs.BreadthFirst
import AutomatonCheck.Proofs.ConnectedStates

/-!
# Counting transitions

A report says how many transitions an automaton can have, repetitions apart. Its states hang
together, and each but the initial one has a transition that links it to a state closer to the
initial one; no transition does this for two states. If the automaton is deterministic, no two
transitions share a cell of the table, of which there are as many as pairs of a state and a
symbol, and it is complete if no cell is left over.
-/
namespace AutomatonCheck

/-- The place of a transition in the table. -/
def Transition.cell (t : Transition) : Nat × Nat := (t.source, t.symbol)

namespace Automaton

variable {automaton : Automaton}

/-- The number of transitions; one that is repeated counts once. -/
def transitionCount (automaton : Automaton) : Nat := automaton.transitions.toFinset.card

/-- The places in the table, one for each state and each symbol. -/
def cells (automaton : Automaton) : Finset (Nat × Nat) :=
  Finset.range automaton.size ×ˢ Finset.range automaton.alphabet.size

theorem card_cells (automaton : Automaton) :
    automaton.cells.card = automaton.size * automaton.alphabet.size := by
  rw [cells, Finset.card_product, Finset.card_range, Finset.card_range]

theorem mem_cells {q a : Nat} :
    (q, a) ∈ automaton.cells ↔ q < automaton.size ∧ a < automaton.alphabet.size := by
  simp [cells]

theorem mem_image_cell {q a : Nat} :
    (q, a) ∈ automaton.transitions.toFinset.image Transition.cell ↔
      ∃ p, (⟨q, a, p⟩ : Transition) ∈ automaton.transitions := by
  simp only [Finset.mem_image, List.mem_toFinset, Transition.cell, Prod.mk.injEq]
  constructor
  · intro h
    obtain ⟨⟨q, a, p⟩, ht, rfl, rfl⟩ := h
    exact ⟨p, ht⟩
  · intro h
    obtain ⟨p, ht⟩ := h
    exact ⟨_, ht, rfl, rfl⟩

theorem InRange.image_cell_subset (hr : automaton.InRange) :
    automaton.transitions.toFinset.image Transition.cell ⊆ automaton.cells := by
  intro cell hcell
  obtain ⟨p, ht⟩ := mem_image_cell.1 hcell
  exact mem_cells.2 ⟨hr.source_lt _ ht, hr.symbol_lt _ ht⟩

/-- Without conflicts, different transitions are in different cells. -/
theorem card_image_cell (hdet : ¬ automaton.Exhibits .nondeterministic) :
    (automaton.transitions.toFinset.image Transition.cell).card = automaton.transitionCount := by
  apply Finset.card_image_of_injOn
  intro t ht t' ht' hcell
  rw [Finset.mem_coe, List.mem_toFinset] at ht ht'
  obtain ⟨q, a, p⟩ := t
  obtain ⟨q', a', p'⟩ := t'
  obtain ⟨rfl, rfl⟩ := Prod.mk.inj hcell
  by_contra hne
  refine hdet ⟨q, a, p, p', ?_, ht, ht'⟩
  rintro rfl
  exact hne rfl

section InRange

variable (hr : automaton.InRange)

include hr

theorem InRange.transitionCount_le (hdet : ¬ automaton.Exhibits .nondeterministic) :
    automaton.transitionCount ≤ automaton.size * automaton.alphabet.size := by
  rw [← card_image_cell hdet, ← card_cells]
  exact Finset.card_le_card hr.image_cell_subset

theorem Total.deterministic (htotal : automaton.Total) :
    ¬ automaton.Exhibits .nondeterministic := by
  rintro ⟨q, a, p, p', hne, ht, ht'⟩
  exact hne ((htotal q (hr.source_lt _ ht) a (hr.symbol_lt _ ht)).unique ht ht')

/-- An automaton is complete if it is deterministic and has a transition for each cell. -/
theorem InRange.total_iff_transitionCount_eq : automaton.Total ↔
    ¬ automaton.Exhibits .nondeterministic ∧
      automaton.transitionCount = automaton.size * automaton.alphabet.size := by
  constructor
  · intro htotal
    have hdet := Total.deterministic hr htotal
    refine ⟨hdet, Nat.le_antisymm (hr.transitionCount_le hdet) ?_⟩
    rw [← card_image_cell hdet, ← card_cells]
    apply Finset.card_le_card
    rintro ⟨q, a⟩ hcell
    obtain ⟨hq, ha⟩ := mem_cells.1 hcell
    exact mem_image_cell.2 (htotal q hq a ha).exists
  · rintro ⟨hdet, hcount⟩ q hq a ha
    rw [← card_image_cell hdet, ← card_cells] at hcount
    have hall : automaton.transitions.toFinset.image Transition.cell = automaton.cells :=
      Finset.eq_of_subset_of_card_le hr.image_cell_subset hcount.ge
    have hcell : (q, a) ∈ automaton.cells := mem_cells.2 ⟨hq, ha⟩
    rw [← hall, mem_image_cell] at hcell
    obtain ⟨p, ht⟩ := hcell
    refine ⟨p, ht, ?_⟩
    intro p' ht'
    by_contra hne
    exact hdet ⟨q, a, p', p, hne, ht', ht⟩

end InRange

end Automaton

namespace Adjacency

variable {links : Adjacency} {origin q p : Nat} {t : Transition}

/-- The transition is between the state and another one that is one step closer to the origin. -/
def LinkedCloser (links : Adjacency) (origin q : Nat) (t : Transition) : Prop :=
  ∃ d p, links.IsDistance origin q (d + 1) ∧ links.IsDistance origin p d ∧
    (t.source = q ∧ t.target = p ∨ t.source = p ∧ t.target = q)

/-- Of the two states of a transition, the one that is farther from the origin is linked. -/
theorem LinkedCloser.unique (h : links.LinkedCloser origin q t)
    (h' : links.LinkedCloser origin p t) : q = p := by
  obtain ⟨d, r, hq, hr, ⟨rfl, rfl⟩ | ⟨rfl, rfl⟩⟩ := h
  · obtain ⟨e, s, hp, hs, ⟨hsource, -⟩ | ⟨rfl, rfl⟩⟩ := h'
    · exact hsource
    · have hfar : d + 1 = e := hq.unique hs
      have hnear : d = e + 1 := hr.unique hp
      omega
  · obtain ⟨e, s, hp, hs, ⟨rfl, rfl⟩ | ⟨-, htarget⟩⟩ := h'
    · have hfar : d + 1 = e := hq.unique hs
      have hnear : d = e + 1 := hr.unique hp
      omega
    · exact htarget

theorem exists_linkedCloser {ts : List Transition}
    (hedge : ∀ r s, links.Edge r s ↔ Relation.SymmGen (Leads ts) r s)
    (hreach : links.Reaches origin q) (hne : q ≠ origin) :
    ∃ t ∈ ts, links.LinkedCloser origin q t := by
  obtain ⟨d, hq⟩ := hreach.exists_isDistance
  cases d with
  | zero => exact absurd hq.eq_origin hne
  | succ d =>
    obtain ⟨p, hp, hcloser⟩ := hq.exists_closer
    rcases (hedge p q).1 hp with ⟨a, ht⟩ | ⟨a, ht⟩
    · exact ⟨_, ht, d, p, hq, hcloser, .inr ⟨rfl, rfl⟩⟩
    · exact ⟨_, ht, d, p, hq, hcloser, .inl ⟨rfl, rfl⟩⟩

end Adjacency

/-- States that hang together have a transition for each of them but one. -/
theorem Automaton.InRange.size_sub_one_le_transitionCount {automaton : Automaton}
    (hr : automaton.InRange) (hconn : ¬ automaton.Disjoint) :
    automaton.size - 1 ≤ automaton.transitionCount := by
  obtain ⟨links, -, -, hedge⟩ := Adjacency.exists_linksOf? hr
  have hreach : ∀ q < automaton.size, links.Reaches automaton.initial q := by
    intro q hq
    have hlinked : Relation.EqvGen (Leads automaton.transitions) automaton.initial q := by
      by_contra hnot
      exact hconn ⟨q, hq, hnot⟩
    rw [← Relation.EqvGen.reflTransGen_symmGen] at hlinked
    exact Relation.ReflTransGen.mono (fun r s => (hedge r s).2) _ _ hlinked
  have hinitial : automaton.initial ∈ Finset.range automaton.size := Finset.mem_range.2 hr.initial_lt
  calc automaton.size - 1
      = ((Finset.range automaton.size).erase automaton.initial).card := by
        rw [Finset.card_erase_of_mem hinitial, Finset.card_range]
    _ ≤ automaton.transitionCount := by
        apply Finset.card_le_card_of_forall_subsingleton (links.LinkedCloser automaton.initial)
        · intro q hq
          rw [Finset.mem_erase, Finset.mem_range] at hq
          obtain ⟨t, ht, hlinked⟩ := Adjacency.exists_linkedCloser hedge (hreach q hq.2) hq.1
          exact ⟨t, List.mem_toFinset.2 ht, hlinked⟩
        · intro t _ q hq p hp
          exact hq.2.unique hp.2

/-- A state that is reached is the origin or is entered from another state. -/
theorem exists_entering {ts : List Transition} {origin q : Nat}
    (h : Relation.ReflTransGen (Leads ts) origin q) (hne : q ≠ origin) :
    ∃ t ∈ ts, t.target = q ∧ t.source ≠ q := by
  induction h with
  | refl => exact absurd rfl hne
  | @tail p q _ hlead ih =>
    by_cases hpq : p = q
    · rw [← hpq] at hne ⊢
      exact ih hne
    · obtain ⟨a, ht⟩ := hlead
      exact ⟨_, ht, rfl, hpq⟩

theorem Roster.card_toFinset {kind : NameKind} {roster : Roster kind} {declared : List String}
    (h : roster.texts = declared.eraseDups) : declared.toFinset.card = roster.size := by
  rw [card_toFinset_eq_length_eraseDups, ← h, size_eq_length_texts]

/-- Transitions in range are told apart by their names. -/
theorem Automaton.InRange.showTransition_inj {automaton : Automaton} (hr : automaton.InRange)
    {t u : Transition} (ht : t ∈ automaton.transitions) (hu : u ∈ automaton.transitions)
    (h : automaton.showTransition t = automaton.showTransition u) : t = u := by
  have hcut := joinedBy_showTransition automaton t
  rw [h] at hcut
  have hfields := hcut.unique (joinedBy_showTransition automaton u)
  simp only [List.cons.injEq, and_true] at hfields
  obtain ⟨hsource, hsymbol, htarget⟩ := hfields
  have hsources := Roster.textAt_inj (hr.source_lt t ht) (hr.source_lt u hu) hsource
  have hsymbols := Roster.textAt_inj (hr.symbol_lt t ht) (hr.symbol_lt u hu) hsymbol
  have htargets := Roster.textAt_inj (hr.target_lt t ht) (hr.target_lt u hu) htarget
  cases t
  cases u
  rw [Transition.mk.injEq]
  exact ⟨hsources, hsymbols, htargets⟩

namespace Contents

variable {contents : Contents} {automaton : Automaton}

/-- Different transitions are different entries. -/
theorem Describes.card_transitions (hd : contents.Describes automaton) (hr : automaton.InRange) :
    (contents .transitions).toFinset.card = automaton.transitionCount := by
  have himage : (contents .transitions).toFinset =
      automaton.transitions.toFinset.image automaton.showTransition := by
    ext entry
    rw [List.mem_toFinset, ← hd.transitions, List.mem_map, Finset.mem_image]
    simp only [List.mem_toFinset]
  rw [himage, Finset.card_image_of_injOn, Automaton.transitionCount]
  intro t ht u hu
  exact hr.showTransition_inj (List.mem_toFinset.1 ht) (List.mem_toFinset.1 hu)

end Contents

/-- What a report says of the automaton. -/
theorem report_of_readAutomaton {lines : List String} {automaton : Automaton} {report : Report}
    (hread : readAutomaton lines = .ok automaton) (h : (check lines).result = .ok report) :
    ¬ automaton.Disjoint ∧ (report.classification = .complete ↔ automaton.Total) ∧
      (report.warnings.contains .unreachableStates = true ↔
        automaton.Exhibits .unreachableStates) ∧
      (report.warnings.contains .nondeterministic = true ↔
        automaton.Exhibits .nondeterministic) := by
  have hconn : ¬ automaton.Disjoint := by
    rw [← check_eq_disjointStates_iff hread, h]
    simp
  rw [check_result hread] at h
  obtain ⟨validated, hok, hcomplete, hwarnings⟩ :=
    validate_result_ok (inRange_of_readAutomaton hread) hconn _
  rw [hok] at h
  cases h
  refine ⟨hconn, hcomplete, ?_, ?_⟩
  · rw [hwarnings, Warnings.contains_insert_if]
    simp
  · rw [hwarnings, Warnings.contains_insert_if]
    simp

/-- An automaton that ends in a report has at least as many distinct transitions as states other than
the initial one. Without a warning of nondeterminism it has no more of them than pairs of a state
and a symbol, and just as many if and only if it is complete. Without a warning of unreachable
states, a transition from another state leads to each state but the initial one. -/
theorem report_counts_transitions {lines : List String} {report : Report}
    (h : (check lines).result = .ok report) :
    ∃ automaton, (∀ before, (parse lines before).result = .ok automaton) ∧
      (∀ contents : Contents, contents.WrittenIn lines →
        (contents .states).toFinset.card = automaton.size ∧
        (contents .alphabet).toFinset.card = automaton.alphabet.size ∧
        (contents .transitions).toFinset.card = automaton.transitionCount) ∧
      automaton.size - 1 ≤ automaton.transitionCount ∧
      (report.warnings.contains .nondeterministic = false →
        automaton.transitionCount ≤ automaton.size * automaton.alphabet.size) ∧
      (report.classification = .complete ↔
        report.warnings.contains .nondeterministic = false ∧
          automaton.transitionCount = automaton.size * automaton.alphabet.size) ∧
      (report.warnings.contains .unreachableStates = false →
        ∀ q < automaton.size, q ≠ automaton.initial →
          ∃ t ∈ automaton.transitions, t.target = q ∧ t.source ≠ q) := by
  obtain ⟨automaton, hread⟩ := exists_readAutomaton_of_check h
  have hr : automaton.InRange := inRange_of_readAutomaton hread
  obtain ⟨hconn, hcomplete, hunreachable, hconflict⟩ := report_of_readAutomaton hread h
  have hdet : report.warnings.contains .nondeterministic = false ↔
      ¬ automaton.Exhibits .nondeterministic := by
    rw [← hconflict, Bool.not_eq_true]
  refine ⟨automaton, fun before => parse_eq_ok_iff.2 hread, ?_,
    hr.size_sub_one_le_transitionCount hconn, ?_, ?_, ?_⟩
  · intro contents hw
    obtain ⟨-, hd⟩ := (readAutomaton_iff_describes hw).1 hread
    exact ⟨Roster.card_toFinset hd.states, Roster.card_toFinset hd.alphabet,
      hd.card_transitions hr⟩
  · rw [hdet]
    exact hr.transitionCount_le
  · rw [hcomplete, hdet]
    exact hr.total_iff_transitionCount_eq
  · intro hall q hq hne
    have hreach : Relation.ReflTransGen (Leads automaton.transitions) automaton.initial q := by
      by_contra hnot
      rw [hunreachable.2 ⟨q, hq, hnot⟩] at hall
      cases hall
    exact exists_entering hreach hne

/-- A switch for both directions, one of which is described twice. -/
theorem switch_counts_transitions :
    (check (switchLines "off>go>on,on>go>off,off>go>on")).result = .ok ⟨.complete, .empty⟩ ∧
      ∃ automaton,
        (parse (switchLines "off>go>on,on>go>off,off>go>on") .empty).result = .ok automaton ∧
        automaton.transitions.length = 3 ∧ automaton.transitionCount = 2 * 1 ∧
        ∃ t ∈ automaton.transitions, t.target = 0 ∧ t.source ≠ 0 := by
  have h : (check (switchLines "off>go>on,on>go>off,off>go>on")).result =
      .ok ⟨.complete, .empty⟩ := by
    decide +kernel
  have hswitch : (parse (switchLines "off>go>on,on>go>off,off>go>on") .empty).result.toOption.map
      (fun automaton => (automaton.size, automaton.alphabet.size, automaton.initial,
        automaton.transitions.length)) = some (2, 1, 1, 3) := by
    decide +kernel
  obtain ⟨automaton, hparse, -, -, -, hcomplete, hentered⟩ := report_counts_transitions h
  obtain ⟨parsed, hok, heq⟩ := Option.map_eq_some_iff.1 hswitch
  have hsame : automaton = parsed := by
    have hparsed : (parse (switchLines "off>go>on,on>go>off,off>go>on") .empty).result =
        .ok parsed := toOption_eq_some_iff.1 hok
    rw [hparse .empty] at hparsed
    exact Except.ok.inj hparsed
  obtain ⟨hsize, halphabet, hinitial, hlength⟩ : automaton.size = 2 ∧
      automaton.alphabet.size = 1 ∧ automaton.initial = 1 ∧
      automaton.transitions.length = 3 := by simpa [hsame] using heq
  have hcount := (hcomplete.1 rfl).2
  rw [hsize, halphabet] at hcount
  exact ⟨h, automaton, hparse .empty, hlength, hcount,
    hentered rfl 0 (by omega) (by omega)⟩

end AutomatonCheck
