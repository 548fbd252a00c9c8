import AutomatonCheck.Proofs.AddedTransitions

/-!
# Unused names

A name that is declared in addition to others and used nowhere moves the positions of
the names after it, but no move between names. As a state it is related to no other, so
the states are then disjoint whatever they were before. As a symbol it leaves all states
as they were, except that none of them has a target on it.
-/
namespace AutomatonCheck

variable {lines lines' : List String} {contents others : Contents}
  {initial name source symbol target : String}

/-- The section that declares the names of a kind. -/
def NameKind.declaredIn : NameKind → Section
  | .state => .states
  | .symbol => .alphabet

namespace Contents

/-- The other contents declare more names of a kind, and are the same in all other sections. -/
structure DeclaresMore (contents : Contents) (kind : NameKind) (others : Contents) : Prop where
  kept : contents kind.declaredIn ⊆ others kind.declaredIn
  added : ∀ name ∈ others kind.declaredIn, name ∈ contents kind.declaredIn ∨ kind.IsWord name
  same : ∀ s, s ≠ kind.declaredIn → others s = contents s

namespace DeclaresMore

variable {kind : NameKind} (h : contents.DeclaresMore kind others)

include h

theorem subset (s : Section) : contents s ⊆ others s := by
  by_cases hs : s = kind.declaredIn
  · rw [hs]
    exact h.kept
  · rw [h.same s hs]
    exact List.Subset.refl _

theorem extension : contents.Extends others where
  states := h.subset .states
  alphabet := h.subset .alphabet
  initial := h.same .initial (by cases kind <;> decide)
  final := h.same .final (by cases kind <;> decide)

theorem transitions_eq : others .transitions = contents .transitions :=
  h.same .transitions (by cases kind <;> decide)

theorem isWord_of_mem (hg : contents.Grammatical) (other : NameKind) :
    ∀ entry ∈ others other.declaredIn, other.IsWord entry := by
  have hold : ∀ entry ∈ contents other.declaredIn, other.IsWord entry := by
    cases other with
    | state => exact hg.states
    | symbol => exact hg.alphabet
  intro entry hentry
  by_cases hkind : other = kind
  · subst hkind
    rcases h.added entry hentry with hmem | hword
    · exact hold entry hmem
    · exact hword
  · have hs : other.declaredIn ≠ kind.declaredIn := by
      intro heq
      apply hkind
      revert heq
      cases other <;> cases kind <;> decide
    rw [h.same _ hs] at hentry
    exact hold entry hentry

theorem grammatical (hg : contents.Grammatical) : others.Grammatical := by
  apply h.extension.grammatical hg
  · exact h.isWord_of_mem hg .state
  · exact h.isWord_of_mem hg .symbol
  · intro entry hentry
    rw [h.transitions_eq] at hentry
    exact IsMove.extend (hg.transitions entry hentry) h.extension

end DeclaresMore

/-- The other contents declare one more name of a kind, in any place among the declared ones, and
are the same in all other sections. -/
structure DeclaresUnused (contents : Contents) (kind : NameKind) (name : String)
    (others : Contents) : Prop where
  isWord : kind.IsWord name
  unused : name ∉ contents kind.declaredIn
  inserted : ∃ before after, contents kind.declaredIn = before ++ after ∧
    others kind.declaredIn = before ++ name :: after
  same : ∀ s, s ≠ kind.declaredIn → others s = contents s

namespace DeclaresUnused

variable {kind : NameKind} (h : contents.DeclaresUnused kind name others)

include h

theorem mem_iff {entry : String} :
    entry ∈ others kind.declaredIn ↔ entry = name ∨ entry ∈ contents kind.declaredIn := by
  obtain ⟨before, after, hold, hnew⟩ := h.inserted
  rw [hold, hnew]
  simp only [List.mem_append, List.mem_cons]
  tauto

theorem declaresMore : contents.DeclaresMore kind others where
  kept := fun _ hentry => h.mem_iff.2 (.inr hentry)
  added := by
    intro entry hentry
    rcases h.mem_iff.1 hentry with rfl | hmem
    · exact .inr h.isWord
    · exact .inl hmem
  same := h.same

theorem extension : contents.Extends others := h.declaresMore.extension

theorem grammatical (hg : contents.Grammatical) : others.Grammatical :=
  h.declaresMore.grammatical hg

theorem moves_eq : others.Moves = contents.Moves := by
  funext source symbol target
  rw [Moves, Moves, h.declaresMore.transitions_eq]

theorem leads_eq : others.Leads = contents.Leads := by
  funext source target
  rw [Leads, Leads, h.moves_eq]

end DeclaresUnused

/-- Whatever is related to a declared state is declared. -/
theorem Grammatical.mem_states_iff_of_eqvGen (hg : contents.Grammatical)
    (h : Relation.EqvGen contents.Leads source target) :
    source ∈ contents .states ↔ target ∈ contents .states := by
  induction h with
  | rel source target hlead =>
    obtain ⟨symbol, hm⟩ := hlead
    obtain ⟨hsource, -, htarget, -⟩ := hg.declared hm
    exact iff_of_true hsource htarget
  | refl _ => rfl
  | symm _ _ _ ih => exact ih.symm
  | trans _ _ _ _ _ ih ih' => exact ih.trans ih'

namespace DeclaresUnused

/-- The new state is apart from the initial one. -/
theorem disjoint (h : contents.DeclaresUnused .state name others) (hg : contents.Grammatical)
    (hi : initial ∈ contents .states) : others.Disjoint initial := by
  refine ⟨name, h.mem_iff.2 (.inl rfl), ?_⟩
  rw [h.leads_eq]
  intro hrelated
  exact h.unused ((hg.mem_states_iff_of_eqvGen hrelated).1 hi)

section Symbol

variable (h : contents.DeclaresUnused .symbol name others)

include h

theorem states_eq : others .states = contents .states := h.same .states (by decide)

theorem disjoint_iff : others.Disjoint initial ↔ contents.Disjoint initial := by
  simp only [Contents.Disjoint, h.states_eq, h.leads_eq]

theorem exhibits_iff (w : Warning) : others.Exhibits initial w ↔ contents.Exhibits initial w := by
  cases w with
  | noAcceptingState => simp only [Exhibits, h.same .final (by decide)]
  | unreachableStates => simp only [Exhibits, h.states_eq, h.leads_eq]
  | nondeterministic => simp only [Exhibits, h.moves_eq]

/-- There is a state, and it has no target on the new symbol. -/
theorem not_total (hg : contents.Grammatical) : ¬ others.Total := by
  intro htotal
  obtain ⟨start, hstart, -⟩ := hg.initial
  rw [← h.states_eq] at hstart
  obtain ⟨target, hm⟩ := (htotal start hstart name (h.mem_iff.2 (.inl rfl))).exists
  rw [h.moves_eq] at hm
  obtain ⟨-, hsymbol, -, -⟩ := hg.declared hm
  exact h.unused hsymbol

/-- The names that decide a report decide the same warnings with a symbol more, and no complete
report. -/
theorem decides_report (hg : contents.Grammatical) {report : Report} {result : Except Stop Report}
    (hd : contents.Decides initial (.ok report)) (hd' : others.Decides initial result) :
    result = .ok ⟨.incomplete, report.warnings⟩ := by
  obtain ⟨hconn, -, hwarnings⟩ := hd.of_ok
  rw [← h.disjoint_iff] at hconn
  obtain ⟨⟨classification, warnings⟩, hok, hcomplete, hwarnings'⟩ := hd'.connected hconn
  have hclass : classification = .incomplete := by
    cases classification with
    | incomplete => rfl
    | complete => exact absurd (hcomplete.1 rfl) (h.not_total hg)
  have hsame : warnings = report.warnings := by
    apply Warnings.ext_contains
    intro w
    rw [Bool.eq_iff_iff, hwarnings', hwarnings, h.exhibits_iff]
  rw [hok, hclass, hsame]

end Symbol

end DeclaresUnused

end Contents

/-- A description with a new state is parsed and its states are disjoint. With a new symbol it is
parsed, its states are disjoint if and only if they were, and a report keeps its warnings and is
never complete. -/
theorem check_of_unused_name {automaton : Automaton} {before : Warnings}
    (h : (parse lines before).result = .ok automaton) (hw : contents.WrittenIn lines)
    (hw' : others.WrittenIn lines') :
    (∀ name, contents.DeclaresUnused .state name others →
      (∃ automaton', ∀ warnings, (parse lines' warnings).result = .ok automaton') ∧
      (check lines').result = .error (.rejected .disjointStates)) ∧
    ∀ name, contents.DeclaresUnused .symbol name others →
      (∃ automaton', ∀ warnings, (parse lines' warnings).result = .ok automaton') ∧
      ((check lines').result = .error (.rejected .disjointStates) ↔
        (check lines).result = .error (.rejected .disjointStates)) ∧
      ((check lines).result ≠ .error (.rejected .disjointStates) →
        ∃ report, (check lines).result = .ok report ∧
          (check lines').result = .ok ⟨.incomplete, report.warnings⟩) := by
  have hg : contents.Grammatical := hw.grammatical_of_parse h
  constructor
  case left =>
    intro name hstate
    have hg' : others.Grammatical := hstate.grammatical hg
    obtain ⟨initial, hi, -, hd'⟩ := hstate.extension.exists_decides hw hw' hg hg'
    exact ⟨hg'.exists_parse hw', hd'.disjoint.2 (hstate.disjoint hg hi)⟩
  case right =>
    intro name hsymbol
    have hg' : others.Grammatical := hsymbol.grammatical hg
    obtain ⟨initial, -, hd, hd'⟩ := hsymbol.extension.exists_decides hw hw' hg hg'
    refine ⟨hg'.exists_parse hw', ?_, ?_⟩
    · rw [hd.disjoint, hd'.disjoint]
      exact hsymbol.disjoint_iff
    · intro hconn
      rw [ne_eq, hd.disjoint] at hconn
      obtain ⟨report, hok, -⟩ := hd.connected hconn
      rw [hok] at hd
      exact ⟨report, hok, hsymbol.decides_report hg hd hd'⟩

/-- A lamp that is switched on and off, with the declared names in question. -/
def lampWith (states symbols : String) : List String :=
  ["states=[" ++ states ++ "]", "alpha=[" ++ symbols ++ "]", "init.st=[off]", "fin.st=[on]",
    "trans=[off>go>on,on>go>off]"]

def lampDeclaring (states symbols : List String) : Contents :=
  .of states symbols ["off"] ["on"] ["off>go>on", "on>go>off"]

theorem lampDeclaring_of_ne (states others symbols : List String) :
    ∀ s, s ≠ .states → lampDeclaring others symbols s = lampDeclaring states symbols s := by
  intro s hs
  cases s with
  | states => exact absurd rfl hs
  | _ => rfl

theorem check_lampWith :
    (check (lampWith "on,off" "go")).result = .ok ⟨.complete, .empty⟩ := by
  decide +kernel

theorem exists_parse_lampWith :
    ∃ automaton, (parse (lampWith "on,off" "go") .empty).result = .ok automaton := by
  obtain ⟨automaton, hread⟩ := exists_readAutomaton_of_check check_lampWith
  exact ⟨automaton, parse_eq_ok_iff.2 hread⟩

/-- A complete lamp, the lamp with a state declared before the ones it uses, and with a symbol
declared before the one it uses. -/
theorem lamp_of_unused_name :
    (check (lampWith "on,off" "go")).result = .ok ⟨.complete, .empty⟩ ∧
      (check (lampWith "dim,on,off" "go")).result = .error (.rejected .disjointStates) ∧
      (check (lampWith "on,off" "dim,,go")).result = .ok ⟨.incomplete, .empty⟩ := by
  have hw : (lampDeclaring ["on", "off"] ["go"]).WrittenIn (lampWith "on,off" "go") := by
    decide +kernel
  obtain ⟨automaton, h⟩ := exists_parse_lampWith
  refine ⟨check_lampWith, ?_, ?_⟩
  · have hw' : (lampDeclaring ["dim", "on", "off"] ["go"]).WrittenIn
        (lampWith "dim,on,off" "go") := by
      decide +kernel
    have hdim : (lampDeclaring ["on", "off"] ["go"]).DeclaresUnused .state "dim"
        (lampDeclaring ["dim", "on", "off"] ["go"]) := by
      constructor
      case isWord => decide
      case unused => decide
      case inserted => exact ⟨[], ["on", "off"], rfl, rfl⟩
      case same => exact lampDeclaring_of_ne _ _ _
    exact ((check_of_unused_name h hw hw').1 "dim" hdim).2
  · have hw' : (lampDeclaring ["on", "off"] ["dim", "go"]).WrittenIn
        (lampWith "on,off" "dim,,go") := by
      decide +kernel
    have hdim : (lampDeclaring ["on", "off"] ["go"]).DeclaresUnused .symbol "dim"
        (lampDeclaring ["on", "off"] ["dim", "go"]) := by
      constructor
      case isWord => decide
      case unused => decide
      case inserted => exact ⟨[], ["go"], rfl, rfl⟩
      case same =>
        intro s hs
        cases s with
        | alphabet => exact absurd rfl hs
        | _ => rfl
    obtain ⟨-, -, hreport⟩ := (check_of_unused_name h hw hw').2 "dim" hdim
    obtain ⟨report, hreport, hok'⟩ := hreport (by rw [check_lampWith]; simp)
    rw [check_lampWith] at hreport
    cases hreport
    exact hok'

end AutomatonCheck
