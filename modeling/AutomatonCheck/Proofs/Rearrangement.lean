import AutomatonCheck.Proofs.CheckOutcome
import AutomatonCheck.Proofs.FirstViolation

/-!
# Rearranged descriptions

Entries can be listed in another order or twice, and empty entries can be added. States
and symbols then have other positions, but the moves between names stay, and with them
the outcome of a check. A rejected description reports its leftmost undeclared name, so
there the order of the last three lines counts and that of the declarations does not.
-/
namespace AutomatonCheck

variable {lines lines' : List String} {contents others : Contents} {initial : String}
  {rejection : Rejection}

namespace Contents

section SameEntries

variable (h : contents.SameEntries others)

include h

theorem SameEntries.moves_eq : contents.Moves = others.Moves := by
  funext source symbol target
  exact propext (h .transitions _)

theorem SameEntries.leads_eq : contents.Leads = others.Leads := by
  funext source target
  simp only [Leads, h.moves_eq]

theorem SameEntries.disjoint_iff : contents.Disjoint initial ↔ others.Disjoint initial := by
  simp only [Contents.Disjoint, h.leads_eq, h .states _]

theorem SameEntries.total_iff : contents.Total ↔ others.Total := by
  simp only [Contents.Total, h.moves_eq, h .states _, h .alphabet _]

theorem SameEntries.exhibits_iff (w : Warning) :
    contents.Exhibits initial w ↔ others.Exhibits initial w := by
  cases w with
  | noAcceptingState =>
    simp only [Contents.Exhibits, List.eq_nil_iff_forall_not_mem, h .final _]
  | unreachableStates => simp only [Contents.Exhibits, h.leads_eq, h .states _]
  | nondeterministic => simp only [Contents.Exhibits, h.moves_eq]

theorem Decides.of_same_entries {result : Except Stop Report}
    (hd : contents.Decides initial result) : others.Decides initial result where
  disjoint := by
    rw [← h.disjoint_iff]
    exact hd.disjoint
  connected := by
    intro hconn
    rw [← h.disjoint_iff] at hconn
    obtain ⟨report, hok, hcomplete, hwarnings⟩ := hd.connected hconn
    refine ⟨report, hok, ?_, ?_⟩
    · rw [hcomplete, h.total_iff]
    · intro w
      rw [hwarnings, h.exhibits_iff]

end SameEntries

/-- The names decide one result. -/
theorem Decides.unique {result result' : Except Stop Report}
    (hd : contents.Decides initial result) (hd' : contents.Decides initial result') :
    result = result' := by
  by_cases hdis : contents.Disjoint initial
  · rw [hd.disjoint.2 hdis, hd'.disjoint.2 hdis]
  · obtain ⟨report, hok, hcomplete, hwarnings⟩ := hd.connected hdis
    obtain ⟨report', hok', hcomplete', hwarnings'⟩ := hd'.connected hdis
    have hclass : report.classification = report'.classification := by
      have hiff := hcomplete.trans hcomplete'.symm
      cases hc : report.classification <;> cases hc' : report'.classification <;> simp_all
    have hraised : report.warnings = report'.warnings := by
      refine Warnings.ext_contains fun w => ?_
      rw [Bool.eq_iff_iff, hwarnings, hwarnings']
    rw [hok, hok']
    cases report
    cases report'
    simp_all

end Contents

section Declarations

variable (hw : contents.WrittenIn lines) (hw' : others.WrittenIn lines')
  (h : contents.SameEntries others) (hlast : lines.drop 2 = lines'.drop 2)

/-- The last three lines are read from what the first two leave. -/
theorem Section.Lists.of_drop {s : Section} {found : List String} (hfound : s.Lists lines found)
    (hlast : lines.drop 2 = lines'.drop 2) (hs : 2 ≤ s.place) : s.Lists lines' found := by
  obtain ⟨line, hline, hspells⟩ := hfound
  obtain ⟨k, hk⟩ := Nat.exists_eq_add_of_le hs
  refine ⟨line, ?_, hspells⟩
  rw [hk, ← List.getElem?_drop] at hline ⊢
  rw [← hlast, hline]

include hw hw' h hlast

/-- Each line keeps its faults if the declared names are the same. -/
theorem Fault.of_same_declarations {s : Section} (hf : Fault lines s rejection) :
    Fault lines' s rejection := by
  cases hf with
  | shape hm => exact absurd hm (Section.exists_lists_iff.1 ⟨_, hw.2 s⟩)
  | stateName hl hn hword =>
    rw [hl.unique (hw.2 .states)] at hn
    exact .stateName (hw'.2 .states) ((h .states _).1 hn) hword
  | symbolName hl hn hword =>
    rw [hl.unique (hw.2 .alphabet)] at hn
    exact .symbolName (hw'.2 .alphabet) ((h .alphabet _).1 hn) hword
  | undeclaredInitial hs hl hleft =>
    rw [hs.unique (hw.2 .states)] at hleft
    exact .undeclaredInitial (hw'.2 .states) (hl.of_drop hlast (by decide))
      ((Leftmost.congr fun name _ => not_congr (h .states name)).1 hleft)
  | noInitial hl => exact .noInitial (hl.of_drop hlast (by decide))
  | severalInitial hs hl hdecl hn ho hne =>
    rw [hs.unique (hw.2 .states)] at hdecl
    exact .severalInitial (hw'.2 .states) (hl.of_drop hlast (by decide))
      (fun name hname => (h .states name).1 (hdecl name hname)) hn ho hne
  | undeclaredFinal hs hl hleft =>
    rw [hs.unique (hw.2 .states)] at hleft
    exact .undeclaredFinal (hw'.2 .states) (hl.of_drop hlast (by decide))
      ((Leftmost.congr fun name _ => not_congr (h .states name)).1 hleft)
  | transition hs ha hl hleft hr =>
    rw [hs.unique (hw.2 .states), ha.unique (hw.2 .alphabet)] at hleft hr
    have hfault (entry : String) (r : Rejection) :
        TransitionFault (contents .states) (contents .alphabet) entry r ↔
          TransitionFault (others .states) (others .alphabet) entry r :=
      transitionFault_congr (h .states) (h .alphabet)
    exact .transition (hw'.2 .states) (hw'.2 .alphabet) (hl.of_drop hlast (by decide))
      ((Leftmost.congr fun entry _ => exists_congr (hfault entry)).1 hleft) ((hfault _ _).1 hr)

theorem firstViolation_iff_of_same_declarations :
    FirstViolation lines rejection ↔ FirstViolation lines' rejection := by
  have hfault (s : Section) (r : Rejection) : Fault lines s r ↔ Fault lines' s r := by
    constructor
    · intro hf
      exact hf.of_same_declarations hw hw' h hlast
    · intro hf
      exact hf.of_same_declarations hw' hw h.symm hlast.symm
  simp only [FirstViolation, hfault, hw.1, hw'.1]

end Declarations

theorem check_result_of_rejects (hr : Rejects (readAutomaton lines) rejection) :
    (check lines).result = .error (.rejected rejection) := by
  have hparse : (parse lines .empty).result = .error (.rejected rejection) := by
    rw [parse_result, resultOf_eq_error_iff]
    exact ⟨rejection, rfl, hr⟩
  exact Stage.result_bind_of_error hparse _

section Outcome

variable (hw : contents.WrittenIn lines) (hw' : others.WrittenIn lines')
  (h : contents.SameEntries others)

include hw hw' h

theorem exists_readAutomaton_iff_of_same_entries :
    (∃ automaton, readAutomaton lines = .ok automaton) ↔
      ∃ automaton, readAutomaton lines' = .ok automaton := by
  rw [exists_readAutomaton_iff hw, exists_readAutomaton_iff hw']
  constructor
  · intro hg
    exact hg.of_same_entries h
  · intro hg
    exact hg.of_same_entries h.symm

/-- Two parsed descriptions with the same entries have their outcome decided by the same names. -/
theorem check_result_eq_of_read (hok : ∃ automaton, readAutomaton lines = .ok automaton) :
    (check lines).result = (check lines').result := by
  obtain ⟨automaton', hok'⟩ := (exists_readAutomaton_iff_of_same_entries hw hw' h).1 hok
  obtain ⟨initial, -, hi, -⟩ := ((exists_readAutomaton_iff hw).1 hok).initial
  obtain ⟨automaton, hok⟩ := hok
  have hdecided := check_decides hw hi hok
  have hdecided' := check_decides hw' ((h .initial initial).1 hi) hok'
  exact (hdecided.of_same_entries h).unique hdecided'

/-- Two rejected descriptions that differ in the order of their declarations have the same first
violation. -/
theorem check_result_eq_of_rejects (hlast : lines.drop 2 = lines'.drop 2)
    (hr : Rejects (readAutomaton lines) rejection) :
    (check lines).result = (check lines').result := by
  have hr' : Rejects (readAutomaton lines') rejection := by
    rw [rejects_readAutomaton, ← firstViolation_iff_of_same_declarations hw hw' h hlast,
      ← rejects_readAutomaton]
    exact hr
  rw [check_result_of_rejects hr, check_result_of_rejects hr']

end Outcome

/-- The sets of entries decide whether a description is parsed and what the outcome then is. If
only the declarations are rearranged, the outcome is also the same for a description that is not
parsed. -/
theorem check_of_same_entries (hw : contents.WrittenIn lines) (hw' : others.WrittenIn lines')
    (h : contents.SameEntries others) :
    ((∃ automaton, (parse lines .empty).result = .ok automaton) ↔
      ∃ automaton, (parse lines' .empty).result = .ok automaton) ∧
    ((∃ automaton, (parse lines .empty).result = .ok automaton) →
      (check lines).result = (check lines').result) ∧
    (lines.drop 2 = lines'.drop 2 → (check lines).result = (check lines').result) := by
  simp only [parse_eq_ok_iff]
  refine ⟨exists_readAutomaton_iff_of_same_entries hw hw' h, check_result_eq_of_read hw hw' h, ?_⟩
  intro hlast
  by_cases hok : ∃ automaton, readAutomaton lines = .ok automaton
  · exact check_result_eq_of_read hw hw' h hok
  · rw [exists_ok_iff] at hok
    push Not at hok
    obtain ⟨rejection, hr⟩ := hok
    exact check_result_eq_of_rejects hw hw' h hlast hr

/-- The lamp with its states in the other order, a repeated symbol and an empty entry. -/
def rearrangedLampLines : List String :=
  ["states=[off,,on,off]", "alpha=[go,go]", "init.st=[off]", "fin.st=[on]", "trans=[off>go>on]"]

def rearrangedLampContents : Contents :=
  .of ["off", "on", "off"] ["go", "go"] ["off"] ["on"] ["off>go>on"]

theorem rearrangedLampContents_writtenIn :
    rearrangedLampContents.WrittenIn rearrangedLampLines := by
  decide +kernel

theorem lampContents_sameEntries : lampContents.SameEntries rearrangedLampContents := by
  intro s entry
  cases s with
  | states =>
    simp only [lampContents, rearrangedLampContents, Contents.of, List.mem_cons, List.not_mem_nil]
    tauto
  | alphabet =>
    simp only [lampContents, rearrangedLampContents, Contents.of, List.mem_cons, List.not_mem_nil]
    tauto
  | initial => rfl
  | final => rfl
  | transitions => rfl

/-- The other contents with these transitions. -/
def Contents.withTransitions (contents : Contents) (entries : List String) : Contents :=
  fun s => if s = .transitions then entries else contents s

theorem Contents.SameEntries.withTransitions (h : contents.SameEntries others)
    (entries : List String) :
    (contents.withTransitions entries).SameEntries (others.withTransitions entries) := by
  intro s entry
  by_cases hs : s = .transitions
  · simp only [Contents.withTransitions, if_pos hs]
  · simp only [Contents.withTransitions, if_neg hs]
    exact h s entry

/-- A lamp with a second transition, from a state that is not declared. -/
def dimmed (lines : List String) : List String :=
  lines.dropLast ++ ["trans=[off>go>on,dim>go>off]"]

/-- The lamp keeps its outcome when it is rearranged, and the dimmed lamp the name that it is
rejected for. -/
theorem lamp_of_same_entries :
    lampLines.drop 2 = rearrangedLampLines.drop 2 ∧
      (∃ automaton, (parse rearrangedLampLines .empty).result = .ok automaton) ∧
      (check lampLines).result = (check rearrangedLampLines).result ∧
      (check (dimmed lampLines)).result = .error (.rejected (.undefinedState "dim")) ∧
      (check (dimmed rearrangedLampLines)).result = .error (.rejected (.undefinedState "dim")) := by
  obtain ⟨hparsed, hsuccess, hlast⟩ := check_of_same_entries lampContents_writtenIn
    rearrangedLampContents_writtenIn lampContents_sameEntries
  have hw : (lampContents.withTransitions ["off>go>on", "dim>go>off"]).WrittenIn
      (dimmed lampLines) := by
    decide +kernel
  have hw' : (rearrangedLampContents.withTransitions ["off>go>on", "dim>go>off"]).WrittenIn
      (dimmed rearrangedLampLines) := by
    decide +kernel
  have hdim : (check (dimmed lampLines)).result = .error (.rejected (.undefinedState "dim")) := by
    decide +kernel
  obtain ⟨-, -, hrejected⟩ :=
    check_of_same_entries hw hw' (lampContents_sameEntries.withTransitions _)
  exact ⟨rfl, hparsed.1 exists_parse_lampLines, hlast rfl, hdim, by rw [← hrejected rfl, hdim]⟩

end AutomatonCheck
