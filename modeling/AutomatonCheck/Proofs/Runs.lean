import AutomatonCheck.Proofs.CheckOutcome

/-!
# Runs of words

A run of a word follows its symbols, one move for each, and passes a declared state more
than the word has symbols. A check looks at single moves and at the states that a walk
counts; what it reports is about all words. If each state has at most one target on each
symbol, then no word can be run in two ways, and if it has exactly one, every word can be
run. The last states of the runs from the initial state are those that can be reached.
-/
namespace AutomatonCheck

namespace Contents

variable {contents : Contents} {automaton : Automaton} {initial source symbol target : String}
  {word path : List String}

/-- A run of a word from a declared state, with the states that it passes from first to last. -/
inductive Run (contents : Contents) : String → List String → List String → Prop
  | stay {state : String} (h : state ∈ contents .states) : Run contents state [] [state]
  | move {source symbol target : String} {word path : List String}
    (h : source ∈ contents .states) (hm : contents.Moves source symbol target)
    (hr : Run contents target word path) : Run contents source (symbol :: word) (source :: path)

/-- No word of declared symbols has two runs from one declared state. -/
def AtMostOneRun (contents : Contents) : Prop :=
  ∀ source ∈ contents .states, ∀ word ⊆ contents .alphabet, ∀ path path',
    contents.Run source word path → contents.Run source word path' → path = path'

/-- Every word of declared symbols has one run from each declared state and no other. -/
def ExactlyOneRun (contents : Contents) : Prop :=
  ∀ source ∈ contents .states, ∀ word ⊆ contents .alphabet, ∃! path, contents.Run source word path

/-- Every declared state is the last one of some run from the initial state. -/
def RunsEndEverywhere (contents : Contents) (initial : String) : Prop :=
  ∀ name ∈ contents .states, ∃ word path, word ⊆ contents .alphabet ∧
    contents.Run initial word path ∧ path.getLast? = some name

theorem Run.ne_nil (h : contents.Run source word path) : path ≠ [] := by
  cases h with
  | stay _ => simp
  | move _ _ _ => simp

/-- The run of a word of one symbol is a move. -/
theorem Run.single (hg : contents.Grammatical) (hm : contents.Moves source symbol target) :
    contents.Run source [symbol] [source, target] := by
  obtain ⟨hsource, -, htarget, -⟩ := hg.declared hm
  exact .move hsource hm (.stay htarget)

theorem Run.exists_of_single (h : contents.Run source [symbol] path) :
    ∃ target, contents.Moves source symbol target ∧ path = [source, target] := by
  cases h with
  | move _ hm hr =>
    cases hr
    exact ⟨_, hm, rfl⟩

/-- Where two moves from one state on one symbol have the same target, two runs of one word pass
the same states. -/
theorem Run.unique (hmoves : ∀ source symbol target target', contents.Moves source symbol target →
      contents.Moves source symbol target' → target = target') {path' : List String}
    (h : contents.Run source word path) (h' : contents.Run source word path') : path = path' := by
  induction h generalizing path' with
  | stay _ =>
    cases h'
    rfl
  | move _ hm _ ih =>
    cases h' with
    | move _ hm' hr' =>
      rw [← hmoves _ _ _ _ hm hm'] at hr'
      rw [ih hr']

/-- Where every state has a target on every symbol, every word has a run. -/
theorem exists_run (hg : contents.Grammatical)
    (hmoves : ∀ source ∈ contents .states, ∀ symbol ∈ contents .alphabet,
      ∃ target, contents.Moves source symbol target)
    (hsource : source ∈ contents .states) (hword : word ⊆ contents .alphabet) :
    ∃ path, contents.Run source word path := by
  induction word generalizing source with
  | nil => exact ⟨[source], .stay hsource⟩
  | cons symbol word ih =>
    rw [List.cons_subset] at hword
    obtain ⟨target, hm⟩ := hmoves source hsource symbol hword.1
    obtain ⟨-, -, htarget, -⟩ := hg.declared hm
    obtain ⟨path, hr⟩ := ih htarget hword.2
    exact ⟨source :: path, .move hsource hm hr⟩

theorem not_nondeterministic_iff :
    ¬ contents.Exhibits initial .nondeterministic ↔
      ∀ source symbol target target', contents.Moves source symbol target →
        contents.Moves source symbol target' → target = target' := by
  simp only [Exhibits]
  push Not
  constructor
  · intro h source symbol target target' hm hm'
    by_contra hne
    exact h source symbol target target' hne hm hm'
  · intro h source symbol target target' hne hm hm'
    exact hne (h source symbol target target' hm hm')

/-- Two targets on one symbol are two runs of a word of one symbol. -/
theorem Grammatical.not_nondeterministic_iff_runs (hg : contents.Grammatical) :
    ¬ contents.Exhibits initial .nondeterministic ↔ contents.AtMostOneRun := by
  rw [not_nondeterministic_iff]
  constructor
  · intro hmoves source _ word _ path path' h h'
    exact h.unique hmoves h'
  · intro hruns source symbol target target' hm hm'
    obtain ⟨hsource, hsymbol, -, -⟩ := hg.declared hm
    have hpath : [source, target] = [source, target'] :=
      hruns source hsource [symbol] (by simpa using hsymbol) _ _ (.single hg hm) (.single hg hm')
    simpa using hpath

theorem Grammatical.total_iff_runs (hg : contents.Grammatical) :
    contents.Total ↔ contents.ExactlyOneRun := by
  constructor
  · intro htotal source hsource word hword
    have hunique : ∀ source symbol target target', contents.Moves source symbol target →
        contents.Moves source symbol target' → target = target' := by
      intro source symbol target target' hm hm'
      obtain ⟨hsource, hsymbol, -, -⟩ := hg.declared hm
      exact (htotal source hsource symbol hsymbol).unique hm hm'
    have hsome : ∀ source ∈ contents .states, ∀ symbol ∈ contents .alphabet,
        ∃ target, contents.Moves source symbol target := by
      intro source hsource symbol hsymbol
      exact (htotal source hsource symbol hsymbol).exists
    obtain ⟨path, hr⟩ := exists_run hg hsome hsource hword
    exact ⟨path, hr, fun path' hr' => hr'.unique hunique hr⟩
  · intro hruns source hsource symbol hsymbol
    obtain ⟨path, hr, hsole⟩ := hruns source hsource [symbol] (by simpa using hsymbol)
    obtain ⟨target, hm, rfl⟩ := hr.exists_of_single
    refine ⟨target, hm, ?_⟩
    intro target' hm'
    have hpath : [source, target'] = [source, target] := hsole _ (.single hg hm')
    simpa using hpath

theorem Run.word_subset (hg : contents.Grammatical) (h : contents.Run source word path) :
    word ⊆ contents .alphabet := by
  induction h with
  | stay _ => simp
  | move _ hm _ ih =>
    obtain ⟨-, hsymbol, -, -⟩ := hg.declared hm
    rw [List.cons_subset]
    exact ⟨hsymbol, ih⟩

/-- The last state of a run is reached from its first. -/
theorem Run.reaches {last : String} (h : contents.Run source word path)
    (hlast : path.getLast? = some last) : Relation.ReflTransGen contents.Leads source last := by
  induction h with
  | stay _ =>
    rw [List.getLast?_singleton, Option.some_inj] at hlast
    rw [hlast]
  | move _ hm hr ih =>
    rw [List.getLast?_cons_of_ne_nil hr.ne_nil] at hlast
    exact .head ⟨_, hm⟩ (ih hlast)

/-- Whatever is reached ends a run. -/
theorem Grammatical.exists_run_of_reaches (hg : contents.Grammatical) {last : String}
    (h : Relation.ReflTransGen contents.Leads source last) (hlast : last ∈ contents .states) :
    ∃ word path, contents.Run source word path ∧ path.getLast? = some last := by
  induction h using Relation.ReflTransGen.head_induction_on with
  | refl => exact ⟨[], [last], .stay hlast, rfl⟩
  | head hlead _ ih =>
    obtain ⟨symbol, hm⟩ := hlead
    obtain ⟨word, path, hr, hend⟩ := ih
    obtain ⟨hsource, -, -, -⟩ := hg.declared hm
    refine ⟨symbol :: word, _ :: path, .move hsource hm hr, ?_⟩
    rw [List.getLast?_cons_of_ne_nil hr.ne_nil, hend]

theorem Grammatical.not_unreachable_iff_runs (hg : contents.Grammatical) :
    ¬ contents.Exhibits initial .unreachableStates ↔ contents.RunsEndEverywhere initial := by
  simp only [Exhibits]
  push Not
  constructor
  · intro hall name hname
    obtain ⟨word, path, hr, hlast⟩ := hg.exists_run_of_reaches (hall name hname) hname
    exact ⟨word, path, hr.word_subset hg, hr, hlast⟩
  · intro hruns name hname
    obtain ⟨word, path, -, hr, hlast⟩ := hruns name hname
    exact hr.reaches hlast

end Contents

/-- A report without conflicts says that runs are unique, a complete one that every word has one
run, and one without unreachable states that the runs from the initial state end everywhere. -/
theorem report_decided_by_runs {lines : List String} {report : Report}
    (h : (check lines).result = .ok report) :
    (∃ contents : Contents, ∃ initial, contents.WrittenIn lines ∧ initial ∈ contents .initial) ∧
      ∀ (contents : Contents) (initial : String), contents.WrittenIn lines →
        initial ∈ contents .initial →
        (report.warnings.contains .nondeterministic = false ↔ contents.AtMostOneRun) ∧
        (report.classification = .complete ↔ contents.ExactlyOneRun) ∧
        (report.warnings.contains .unreachableStates = false ↔
          contents.RunsEndEverywhere initial) := by
  obtain ⟨automaton, hread⟩ := exists_readAutomaton_of_check h
  refine ⟨?_, ?_⟩
  · obtain ⟨contents, hw⟩ := exists_writtenIn hread
    have hg := (exists_readAutomaton_iff hw).1 ⟨automaton, hread⟩
    obtain ⟨initial, -, hi, -⟩ := hg.initial
    exact ⟨contents, initial, hw, hi⟩
  · intro contents initial hw hi
    have hg := (exists_readAutomaton_iff hw).1 ⟨automaton, hread⟩
    have hdecides := check_decides hw hi hread
    rw [h] at hdecides
    obtain ⟨-, hcomplete, hwarnings⟩ := hdecides.of_ok
    have hnot (w : Warning) : report.warnings.contains w = false ↔
        ¬ contents.Exhibits initial w := by
      rw [← hwarnings, Bool.not_eq_true]
    rw [hnot, hnot, hcomplete]
    exact ⟨hg.not_nondeterministic_iff_runs, hg.total_iff_runs, hg.not_unreachable_iff_runs⟩

/-- The lamp can be turned on once, so from `off` a word of one symbol has a run and a longer one
has none. -/
theorem lamp_decided_by_runs :
    (check lampLines).result = .ok ⟨.incomplete, .empty⟩ ∧
      lampContents.WrittenIn lampLines ∧ "off" ∈ lampContents .initial ∧
      lampContents.AtMostOneRun ∧ ¬ lampContents.ExactlyOneRun ∧
      lampContents.RunsEndEverywhere "off" := by
  have h : (check lampLines).result = .ok ⟨.incomplete, .empty⟩ := by decide +kernel
  have hi : "off" ∈ lampContents .initial := List.mem_singleton.2 rfl
  obtain ⟨honce, hcomplete, hends⟩ :=
    (report_decided_by_runs h).2 lampContents "off" lampContents_writtenIn hi
  refine ⟨h, lampContents_writtenIn, hi, honce.1 rfl, ?_, hends.1 rfl⟩
  rw [← hcomplete]
  decide

end AutomatonCheck
