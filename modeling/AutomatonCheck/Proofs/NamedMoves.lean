import AutomatonCheck.Proofs.Acceptance
import AutomatonCheck.Proofs.Verdict

/-!
# Moves between names

A description moves from one name to another if the text of that move is an entry of its
transitions. The automaton that is read makes the same moves between the positions of
these names, so whatever an inspection concludes about positions can be said of the
entries alone: which states are joined or reached, and how many targets a name has.
-/
namespace AutomatonCheck

variable {contents : Contents} {automaton : Automaton}

namespace Contents

/-- The move from a source to a target on a symbol is an entry. -/
def Moves (contents : Contents) (source symbol target : String) : Prop :=
  source ++ ">" ++ symbol ++ ">" ++ target ∈ contents .transitions

/-- Some move goes from the source to the target. -/
def Leads (contents : Contents) (source target : String) : Prop :=
  ∃ symbol, contents.Moves source symbol target

/-- Some declared state is related to the initial one neither forwards nor backwards. -/
def Disjoint (contents : Contents) (initial : String) : Prop :=
  ∃ name ∈ contents .states, ¬ Relation.EqvGen contents.Leads initial name

/-- What a warning says about a description. -/
def Exhibits (contents : Contents) (initial : String) : Warning → Prop
  | .noAcceptingState => contents .final = []
  | .unreachableStates =>
    ∃ name ∈ contents .states, ¬ Relation.ReflTransGen contents.Leads initial name
  | .nondeterministic => ∃ source symbol target target', target ≠ target' ∧
      contents.Moves source symbol target ∧ contents.Moves source symbol target'

/-- Every declared state has exactly one target on every declared symbol. -/
def Total (contents : Contents) : Prop :=
  ∀ source ∈ contents .states, ∀ symbol ∈ contents .alphabet,
    ∃! target, contents.Moves source symbol target

/-- The names of a move are declared, and its text is cut into them. -/
theorem Grammatical.declared (hg : contents.Grammatical) {source symbol target : String}
    (hm : contents.Moves source symbol target) :
    source ∈ contents .states ∧ symbol ∈ contents .alphabet ∧ target ∈ contents .states ∧
      JoinedBy '>' (source ++ ">" ++ symbol ++ ">" ++ target) [source, symbol, target] := by
  obtain ⟨q, hq, a, ha, p, hp, hj⟩ := hg.transitions _ hm
  have hfields : [source, symbol, target] = [q, a, p] := by
    refine hj.of_length rfl ?_
    simp [← String.toList_inj]
  simp only [List.cons.injEq, and_true] at hfields
  obtain ⟨rfl, rfl, rfl⟩ := hfields
  exact ⟨hq, ha, hp, hj⟩

/-- The moves are the transitions by name. -/
theorem Describes.moves_iff (hd : contents.Describes automaton) (hg : contents.Grammatical)
    {source symbol target : String} : contents.Moves source symbol target ↔
      ∃ t ∈ automaton.transitions, automaton.states.Names t.source source ∧
        automaton.alphabet.Names t.symbol symbol ∧ automaton.states.Names t.target target := by
  constructor
  · intro hm
    obtain ⟨hs, ha, htg, hj⟩ := hg.declared hm
    rw [Moves, ← hd.transitions, List.mem_map] at hm
    obtain ⟨t, ht, hshow⟩ := hm
    rw [← hshow] at hj
    obtain ⟨q, a, p, hj', hsource, hsymbol, htarget⟩ :=
      writtenAs_show hj (hg.states _ hs) (hg.alphabet _ ha) (hg.states _ htg)
    have hfields := hj'.unique hj
    simp only [List.cons.injEq, and_true] at hfields
    obtain ⟨rfl, rfl, rfl⟩ := hfields
    exact ⟨t, ht, hsource, hsymbol, htarget⟩
  · intro h
    obtain ⟨t, ht, hsource, hsymbol, htarget⟩ := h
    rw [Moves, ← hd.transitions, List.mem_map]
    refine ⟨t, ht, ?_⟩
    rw [Automaton.showTransition, hsource.textAt, hsymbol.textAt, htarget.textAt]

theorem Describes.mem_states_iff (hd : contents.Describes automaton) {name : String} :
    name ∈ contents .states ↔ name ∈ automaton.states.texts :=
  (Roster.mem_texts_iff_of_eq hd.states).symm

theorem Describes.mem_alphabet_iff (hd : contents.Describes automaton) {name : String} :
    name ∈ contents .alphabet ↔ name ∈ automaton.alphabet.texts :=
  (Roster.mem_texts_iff_of_eq hd.alphabet).symm

theorem Describes.leads_iff (hd : contents.Describes automaton) (hg : contents.Grammatical)
    (hr : automaton.InRange) {source target : String} : contents.Leads source target ↔
      ∃ q p, automaton.states.Names q source ∧ automaton.states.Names p target ∧
        AutomatonCheck.Leads automaton.transitions q p := by
  simp only [Leads, hd.moves_iff hg]
  constructor
  · intro h
    obtain ⟨symbol, ⟨q, a, p⟩, ht, hsource, -, htarget⟩ := h
    exact ⟨q, p, hsource, htarget, a, ht⟩
  · intro h
    obtain ⟨q, p, hsource, htarget, a, ht⟩ := h
    exact ⟨_, ⟨q, a, p⟩, ht, hsource, Roster.names_textAt (hr.symbol_lt _ ht), htarget⟩

section Inspected

variable (hd : contents.Describes automaton) (hg : contents.Grammatical)
  (hr : automaton.InRange)

include hd hg hr

/-- States are reached at the positions of the names that are reached. -/
theorem Describes.reflTransGen_leads_iff {q p : Nat} {source target : String}
    (hq : automaton.states.Names q source) (hp : automaton.states.Names p target) :
    Relation.ReflTransGen (AutomatonCheck.Leads automaton.transitions) q p ↔
      Relation.ReflTransGen contents.Leads source target := by
  refine Roster.Names.reflTransGen_iff ?_ (fun _ _ => hd.leads_iff hg hr) hq hp
  intro i j hlead
  obtain ⟨a, ht⟩ := hlead
  exact ⟨hr.source_lt _ ht, hr.target_lt _ ht⟩

theorem Describes.eqvGen_leads_iff {q p : Nat} {source target : String}
    (hq : automaton.states.Names q source) (hp : automaton.states.Names p target) :
    Relation.EqvGen (AutomatonCheck.Leads automaton.transitions) q p ↔
      Relation.EqvGen contents.Leads source target := by
  rw [← Relation.EqvGen.reflTransGen_symmGen, ← Relation.EqvGen.reflTransGen_symmGen]
  refine Roster.Names.reflTransGen_iff ?_ ?_ hq hp
  · intro i j hlink
    rcases hlink with ⟨a, ht⟩ | ⟨a, ht⟩
    · exact ⟨hr.source_lt _ ht, hr.target_lt _ ht⟩
    · exact ⟨hr.target_lt _ ht, hr.source_lt _ ht⟩
  · intro text other
    constructor
    · intro h
      rcases h with hlead | hlead
      · obtain ⟨i, j, hi, hj, hlead⟩ := (hd.leads_iff hg hr).1 hlead
        exact ⟨i, j, hi, hj, .inl hlead⟩
      · obtain ⟨j, i, hj, hi, hlead⟩ := (hd.leads_iff hg hr).1 hlead
        exact ⟨i, j, hi, hj, .inr hlead⟩
    · intro h
      obtain ⟨i, j, hi, hj, hlead | hlead⟩ := h
      · exact .inl ((hd.leads_iff hg hr).2 ⟨i, j, hi, hj, hlead⟩)
      · exact .inr ((hd.leads_iff hg hr).2 ⟨j, i, hj, hi, hlead⟩)

theorem Describes.disjoint_iff {initial : String} (hi : initial ∈ contents .initial) :
    automaton.Disjoint ↔ contents.Disjoint initial := by
  simp only [Automaton.Disjoint, Contents.Disjoint, hd.mem_states_iff]
  refine Roster.exists_lt_iff_exists_mem fun q name hq => ?_
  rw [hd.eqvGen_leads_iff hg hr (hd.initial initial hi) hq]

theorem Describes.unreachable_iff {initial : String} (hi : initial ∈ contents .initial) :
    automaton.Exhibits .unreachableStates ↔ contents.Exhibits initial .unreachableStates := by
  simp only [Automaton.Exhibits, Contents.Exhibits, hd.mem_states_iff]
  refine Roster.exists_lt_iff_exists_mem fun q name hq => ?_
  rw [hd.reflTransGen_leads_iff hg hr (hd.initial initial hi) hq]

theorem Describes.nondeterministic_iff (initial : String) :
    automaton.Exhibits .nondeterministic ↔ contents.Exhibits initial .nondeterministic := by
  simp only [Automaton.Exhibits, Contents.Exhibits, hd.moves_iff hg]
  constructor
  · intro h
    obtain ⟨q, a, p, p', hne, ht, ht'⟩ := h
    have hsource := Roster.names_textAt (hr.source_lt _ ht)
    have hsymbol := Roster.names_textAt (hr.symbol_lt _ ht)
    have htarget := Roster.names_textAt (hr.target_lt _ ht)
    have htarget' := Roster.names_textAt (hr.target_lt _ ht')
    refine ⟨_, _, _, _, ?_, ⟨_, ht, hsource, hsymbol, htarget⟩, _, ht', hsource, hsymbol, htarget'⟩
    intro he
    rw [← he] at htarget'
    exact hne (htarget.unique_position htarget')
  · intro h
    obtain ⟨source, symbol, target, target', hne, ⟨⟨q, a, p⟩, ht, hq, ha, hp⟩,
      ⟨⟨q', a', p'⟩, ht', hq', ha', hp'⟩⟩ := h
    cases hq.unique_position hq'
    cases ha.unique_position ha'
    refine ⟨q, a, p, p', ?_, ht, ht'⟩
    intro he
    cases he
    exact hne (hp.unique_text hp')

theorem Describes.total_iff : automaton.Total ↔ contents.Total := by
  simp only [Automaton.Total, Contents.Total, hd.mem_states_iff, hd.mem_alphabet_iff]
  refine Roster.forall_lt_iff_forall_mem fun q source hq => ?_
  refine Roster.forall_lt_iff_forall_mem fun a symbol ha => ?_
  refine Roster.existsUnique_iff (fun p ht => hr.target_lt _ ht) fun target => ?_
  rw [hd.moves_iff hg]
  constructor
  · intro h
    obtain ⟨⟨q', a', p⟩, ht, hq', ha', hp⟩ := h
    cases hq.unique_position hq'
    cases ha.unique_position ha'
    exact ⟨p, hp, ht⟩
  · intro h
    obtain ⟨p, hp, ht⟩ := h
    exact ⟨⟨q, a, p⟩, ht, hq, ha, hp⟩

end Inspected

/-- No state is final if no final state was entered. -/
theorem Describes.finals_isEmpty_iff (hd : contents.Describes automaton)
    (hg : contents.Grammatical) : automaton.finals.isEmpty = true ↔ contents .final = [] := by
  rw [List.isEmpty_iff]
  apply Roster.eq_nil_iff_of_mem_iff ?_ hd.finals
  intro name hname
  exact hd.mem_states_iff.1 (hg.final name hname)

end Contents

end AutomatonCheck
