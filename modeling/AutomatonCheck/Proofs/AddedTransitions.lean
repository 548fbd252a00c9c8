import AutomatonCheck.Proofs.CheckOutcome

/-!
# Added transitions

A description can be extended and still say all that it said before. More transitions
between the names it declares relate more states and give a state more targets, never
fewer: states that are not disjoint stay so, fewer are unreachable, and conflicts remain.
Where each state has exactly one target on each symbol, nothing can be added without a
conflict, but what was there already can be repeated.
-/
namespace AutomatonCheck

variable {lines lines' : List String} {contents others : Contents}
  {initial source symbol target : String}

namespace Contents

/-- An entry that consists of a declared state, a declared symbol and a declared state. -/
def IsMove (contents : Contents) (entry : String) : Prop :=
  ∃ source ∈ contents .states, ∃ symbol ∈ contents .alphabet, ∃ target ∈ contents .states,
    JoinedBy '>' entry [source, symbol, target]

/-- All declared names are declared in the other contents too, and the same states are initial and
final there. -/
structure Extends (contents others : Contents) : Prop where
  states : contents .states ⊆ others .states
  alphabet : contents .alphabet ⊆ others .alphabet
  initial : others .initial = contents .initial
  final : others .final = contents .final

theorem IsMove.extend {entry : String} (hm : contents.IsMove entry)
    (h : contents.Extends others) : others.IsMove entry := by
  obtain ⟨source, hs, symbol, ha, target, ht, hj⟩ := hm
  exact ⟨source, h.states hs, symbol, h.alphabet ha, target, h.states ht, hj⟩

/-- What is left to show of extended contents is that new names are words and new entries moves. -/
theorem Extends.grammatical (h : contents.Extends others) (hg : contents.Grammatical)
    (hs : ∀ name ∈ others .states, NameKind.state.IsWord name)
    (ha : ∀ name ∈ others .alphabet, NameKind.symbol.IsWord name)
    (ht : ∀ entry ∈ others .transitions, others.IsMove entry) : others.Grammatical where
  states := hs
  alphabet := ha
  initial := by
    obtain ⟨name, hdecl, hname, hsole⟩ := hg.initial
    rw [h.initial]
    exact ⟨name, h.states hdecl, hname, hsole⟩
  final := by
    rw [h.final]
    intro name hname
    exact h.states (hg.final name hname)
  transitions := ht

/-- The other contents have more transitions between declared names, in any places, and are the
same in all other sections. -/
structure AddsTransitions (contents others : Contents) : Prop where
  same : ∀ s, s ≠ .transitions → others s = contents s
  kept : contents .transitions ⊆ others .transitions
  added : ∀ entry ∈ others .transitions, entry ∉ contents .transitions → contents.IsMove entry

namespace AddsTransitions

variable (h : contents.AddsTransitions others)

include h

theorem states_eq : others .states = contents .states := h.same .states (by decide)

theorem alphabet_eq : others .alphabet = contents .alphabet := h.same .alphabet (by decide)

theorem final_eq : others .final = contents .final := h.same .final (by decide)

theorem extension : contents.Extends others where
  states := by rw [h.states_eq]; exact List.Subset.refl _
  alphabet := by rw [h.alphabet_eq]; exact List.Subset.refl _
  initial := h.same .initial (by decide)
  final := h.final_eq

theorem grammatical (hg : contents.Grammatical) : others.Grammatical := by
  apply h.extension.grammatical hg
  · rw [h.states_eq]
    exact hg.states
  · rw [h.alphabet_eq]
    exact hg.alphabet
  · intro entry hentry
    by_cases hold : entry ∈ contents .transitions
    · exact IsMove.extend (hg.transitions entry hold) h.extension
    · exact (h.added entry hentry hold).extend h.extension

theorem moves (hm : contents.Moves source symbol target) : others.Moves source symbol target :=
  h.kept hm

theorem leads_le : contents.Leads ≤ others.Leads := by
  intro source target hlead
  obtain ⟨symbol, hm⟩ := hlead
  exact ⟨symbol, h.moves hm⟩

/-- States that stay disjoint were disjoint. -/
theorem disjoint (hd : others.Disjoint initial) : contents.Disjoint initial := by
  obtain ⟨name, hname, hnot⟩ := hd
  rw [h.states_eq] at hname
  refine ⟨name, hname, ?_⟩
  intro hrelated
  exact hnot (Relation.EqvGen.mono h.leads_le _ _ hrelated)

theorem unreachable (hu : others.Exhibits initial .unreachableStates) :
    contents.Exhibits initial .unreachableStates := by
  obtain ⟨name, hname, hnot⟩ := hu
  rw [h.states_eq] at hname
  refine ⟨name, hname, ?_⟩
  intro hreach
  exact hnot (Relation.ReflTransGen.mono h.leads_le _ _ hreach)

theorem nondeterministic (hn : contents.Exhibits initial .nondeterministic) :
    others.Exhibits initial .nondeterministic := by
  obtain ⟨source, symbol, target, target', hne, hm, hm'⟩ := hn
  exact ⟨source, symbol, target, target', hne, h.moves hm, h.moves hm'⟩

theorem noAcceptingState_iff : others.Exhibits initial .noAcceptingState ↔
    contents.Exhibits initial .noAcceptingState := by
  simp only [Exhibits, h.final_eq]

/-- Where each state has its target on each symbol, a new move gives some state a second one. -/
theorem nondeterministic_of_total (hg : contents.Grammatical) (htotal : contents.Total)
    (hm : others.Moves source symbol target) (hnew : ¬ contents.Moves source symbol target) :
    others.Exhibits initial .nondeterministic := by
  obtain ⟨hsource, hsymbol, -, -⟩ := (h.grammatical hg).declared hm
  rw [h.states_eq] at hsource
  rw [h.alphabet_eq] at hsymbol
  obtain ⟨target', hm'⟩ := (htotal source hsource symbol hsymbol).exists
  have hne : target ≠ target' := by
    intro heq
    rw [← heq] at hm'
    exact hnew hm'
  exact ⟨source, symbol, target, target', hne, hm, h.moves hm'⟩

end AddsTransitions

theorem Grammatical.not_total_of_nondeterministic (hg : contents.Grammatical)
    (hn : contents.Exhibits initial .nondeterministic) : ¬ contents.Total := by
  intro htotal
  obtain ⟨source, symbol, target, target', hne, hm, hm'⟩ := hn
  obtain ⟨hsource, hsymbol, -, -⟩ := hg.declared hm
  exact hne ((htotal source hsource symbol hsymbol).unique hm hm')

section Outcome

variable (h : contents.Extends others) (hw : contents.WrittenIn lines)
  (hw' : others.WrittenIn lines') (hg : contents.Grammatical) (hg' : others.Grammatical)

include h hw hw' hg hg'

/-- The checks of both descriptions are decided from the same initial state. -/
theorem Extends.exists_decides : ∃ initial ∈ contents .states,
    contents.Decides initial (check lines).result ∧
      others.Decides initial (check lines').result := by
  obtain ⟨initial, hdecl, hi, -⟩ := hg.initial
  obtain ⟨automaton, hread⟩ := exists_readAutomaton hw hg
  obtain ⟨automaton', hread'⟩ := exists_readAutomaton hw' hg'
  have hi' : initial ∈ others .initial := by
    rw [h.initial]
    exact hi
  exact ⟨initial, hdecl, check_decides hw hi hread, check_decides hw' hi' hread'⟩

end Outcome

theorem Grammatical.exists_parse (hg : contents.Grammatical) (hw : contents.WrittenIn lines) :
    ∃ automaton, ∀ warnings, (parse lines warnings).result = .ok automaton := by
  obtain ⟨automaton, hread⟩ := exists_readAutomaton hw hg
  exact ⟨automaton, fun _ => parse_eq_ok_iff.2 hread⟩

theorem WrittenIn.grammatical_of_parse (hw : contents.WrittenIn lines) {automaton : Automaton}
    {before : Warnings} (h : (parse lines before).result = .ok automaton) :
    contents.Grammatical :=
  (exists_readAutomaton_iff hw).1 ⟨automaton, parse_eq_ok_iff.1 h⟩

end Contents

/-- With more transitions between declared names a description is still parsed, and states that are
not disjoint stay so. A report then keeps the warning of conflicts and gains none of unreachable or
final states, and a complete one is left with a conflict by any move that is new. -/
theorem check_of_more_transitions {automaton : Automaton} {before : Warnings}
    (h : (parse lines before).result = .ok automaton) (hw : contents.WrittenIn lines)
    (hw' : others.WrittenIn lines') (hadds : contents.AddsTransitions others) :
    (∃ automaton', ∀ warnings, (parse lines' warnings).result = .ok automaton') ∧
    ((check lines').result = .error (.rejected .disjointStates) →
      (check lines).result = .error (.rejected .disjointStates)) ∧
    ∀ report, (check lines).result = .ok report →
      ∃ report', (check lines').result = .ok report' ∧
        (report.warnings.contains .nondeterministic = true →
          report'.warnings.contains .nondeterministic = true) ∧
        (report'.warnings.contains .unreachableStates = true →
          report.warnings.contains .unreachableStates = true) ∧
        report'.warnings.contains .noAcceptingState = report.warnings.contains .noAcceptingState ∧
        (report.classification = .complete → ∀ source symbol target,
          others.Moves source symbol target → ¬ contents.Moves source symbol target →
            report'.classification = .incomplete ∧
              report'.warnings.contains .nondeterministic = true) := by
  have hg : contents.Grammatical := hw.grammatical_of_parse h
  have hg' : others.Grammatical := hadds.grammatical hg
  obtain ⟨initial, -, hd, hd'⟩ := hadds.extension.exists_decides hw hw' hg hg'
  refine ⟨hg'.exists_parse hw', ?_, ?_⟩
  · rw [hd.disjoint, hd'.disjoint]
    exact hadds.disjoint
  · intro report hok
    rw [hok] at hd
    obtain ⟨hconn, hcomplete, hwarnings⟩ := hd.of_ok
    obtain ⟨report', hok', hcomplete', hwarnings'⟩ := hd'.connected (mt hadds.disjoint hconn)
    refine ⟨report', hok', ?_, ?_, ?_, ?_⟩
    · rw [hwarnings, hwarnings']
      exact hadds.nondeterministic
    · rw [hwarnings, hwarnings']
      exact hadds.unreachable
    · rw [Bool.eq_iff_iff, hwarnings, hwarnings']
      exact hadds.noAcceptingState_iff
    · intro htotal source symbol target hm hnew
      have hconflict : others.Exhibits initial .nondeterministic :=
        hadds.nondeterministic_of_total hg (hcomplete.1 htotal) hm hnew
      refine ⟨?_, (hwarnings' _).2 hconflict⟩
      cases hclass : report'.classification with
      | incomplete => rfl
      | complete =>
        exact absurd (hcomplete'.1 hclass) (hg'.not_total_of_nondeterministic hconflict)

/-- A lamp with a switch that does what the entries say. -/
def switchLines (moves : String) : List String :=
  ["states=[on,off]", "alpha=[go]", "init.st=[off]", "fin.st=[on]", "trans=[" ++ moves ++ "]"]

def switchContents (moves : List String) : Contents := .of ["on", "off"] ["go"] ["off"] ["on"] moves

/-- A switch for both directions, and one with an empty entry and a repeated one that can also fail
to turn the lamp on. -/
theorem switch_of_more_transitions :
    (check (switchLines "off>go>on,on>go>off")).result = .ok ⟨.complete, .empty⟩ ∧
      ∃ report, (check (switchLines "off>go>off,off>go>on,,on>go>off,off>go>on")).result =
          .ok report ∧
        report.classification = .incomplete ∧
        report.warnings = Warnings.empty.insert .nondeterministic := by
  have hw : (switchContents ["off>go>on", "on>go>off"]).WrittenIn
      (switchLines "off>go>on,on>go>off") := by
    decide +kernel
  have hw' : (switchContents ["off>go>off", "off>go>on", "on>go>off", "off>go>on"]).WrittenIn
      (switchLines "off>go>off,off>go>on,,on>go>off,off>go>on") := by
    decide +kernel
  have hadds : (switchContents ["off>go>on", "on>go>off"]).AddsTransitions
      (switchContents ["off>go>off", "off>go>on", "on>go>off", "off>go>on"]) := by
    constructor
    case same =>
      intro s hs
      cases s with
      | transitions => exact absurd rfl hs
      | _ => rfl
    case kept => decide
    case added =>
      intro entry hentry hnew
      simp only [switchContents, Contents.of, List.mem_cons, List.not_mem_nil, or_false]
        at hentry hnew
      obtain rfl : entry = "off>go>off" := by tauto
      exact ⟨"off", by decide, "go", by decide, "off", by decide, by simp, by decide, by decide⟩
  have hok : (check (switchLines "off>go>on,on>go>off")).result = .ok ⟨.complete, .empty⟩ := by
    decide +kernel
  obtain ⟨automaton, hread⟩ := exists_readAutomaton_of_check hok
  have h : (parse (switchLines "off>go>on,on>go>off") .empty).result = .ok automaton :=
    parse_eq_ok_iff.2 hread
  obtain ⟨-, -, hreports⟩ := check_of_more_transitions h hw hw' hadds
  obtain ⟨report, hok', -, hunreachable, hfinal, hconflict⟩ := hreports _ hok
  have hm : (switchContents ["off>go>off", "off>go>on", "on>go>off", "off>go>on"]).Moves
      "off" "go" "off" := by
    show _ ∈ ["off>go>off", "off>go>on", "on>go>off", "off>go>on"]
    decide
  have hnew : ¬ (switchContents ["off>go>on", "on>go>off"]).Moves "off" "go" "off" := by
    show _ ∉ ["off>go>on", "on>go>off"]
    decide
  obtain ⟨hclass, hraised⟩ := hconflict rfl "off" "go" "off" hm hnew
  refine ⟨hok, report, hok', hclass, ?_⟩
  apply Warnings.ext_contains
  intro w
  cases w with
  | noAcceptingState => exact hfinal
  | unreachableStates => exact Bool.eq_false_iff.2 fun hu => by simpa using hunreachable hu
  | nondeterministic => exact hraised

end AutomatonCheck
