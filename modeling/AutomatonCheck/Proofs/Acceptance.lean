import AutomatonCheck.Automaton.Listing
import AutomatonCheck.Proofs.Readers

/-!
# The parser accepts exactly the grammar

`readAutomaton` is the parser without its log and its warnings: the readers one after
another. A description is parsed if and only if it is written in the grammar, and the
automaton is the one that its contents describe: names in the order of their first
declaration, indices that name what the entries name, and transitions that show as
their entries.
-/
namespace AutomatonCheck

variable {lines : List String} {automaton : Automaton} {contents : Contents}

/-- The automaton that the lines describe, or their first violation. -/
def readAutomaton (lines : List String) : Except Violation Automaton := do
  let states ← readStates lines
  let alphabet ← readAlphabet lines
  let initial ← readInitial states lines
  let finals ← readFinals states lines
  let transitions ← readTransitions states alphabet lines
  readEnd lines
  return ⟨states, alphabet, initial, finals, transitions⟩

/-- The result of a stage that only reads: of a violation its rejection is left. -/
def resultOf {α : Type} (reading : Except Violation α) : Except Stop α :=
  reading.mapError fun violation => .rejected violation.rejection

theorem resultOf_eq_ok_iff {α : Type} {reading : Except Violation α} {a : α} :
    resultOf reading = .ok a ↔ reading = .ok a := by
  cases reading <;> simp [resultOf, Except.mapError]

theorem resultOf_eq_error_iff {α : Type} {reading : Except Violation α} {stop : Stop} :
    resultOf reading = .error stop ↔
      ∃ rejection, stop = .rejected rejection ∧ Rejects reading rejection := by
  cases reading <;> simp [resultOf, Except.mapError, eq_comm]

namespace Stage

variable {α β : Type}

/-- Stages that go on with what was read give the result of the readings in sequence. -/
theorem result_accept_bind {reading : Except Violation α} {next : α → Stage β}
    {later : α → Except Violation β} (h : ∀ a warnings, (next a warnings).result = resultOf (later a))
    (warnings : Warnings) :
    ((accept reading >>= next) warnings).result = resultOf (reading >>= later) := by
  cases reading with
  | ok a => exact h a warnings
  | error violation =>
    rw [accept_error_bind, accept_error_apply]
    rfl

end Stage

/-- The parser's result is that of the readers; the warnings so far play no part in it. -/
theorem parse_result (lines : List String) (warnings : Warnings) :
    (parse lines warnings).result = resultOf (readAutomaton lines) := by
  unfold parse readAutomaton
  refine Stage.result_accept_bind (fun states warnings => ?_) warnings
  rw [Stage.result_record_bind]
  refine Stage.result_accept_bind (fun alphabet warnings => ?_) warnings
  rw [Stage.result_record_bind]
  refine Stage.result_accept_bind (fun initial warnings => ?_) warnings
  refine Stage.result_accept_bind (fun finals warnings => ?_) warnings
  rw [Stage.result_raiseIf_bind, Stage.result_record_bind]
  refine Stage.result_accept_bind (fun transitions warnings => ?_) _
  rw [Stage.result_record_bind]
  exact Stage.result_accept_bind (fun _ _ => rfl) _

theorem parse_eq_ok_iff {warnings : Warnings} :
    (parse lines warnings).result = .ok automaton ↔ readAutomaton lines = .ok automaton := by
  rw [parse_result, resultOf_eq_ok_iff]

theorem readAutomaton_eq_ok_iff :
    readAutomaton lines = .ok automaton ↔
      readStates lines = .ok automaton.states ∧ readAlphabet lines = .ok automaton.alphabet ∧
        readInitial automaton.states lines = .ok automaton.initial ∧
        readFinals automaton.states lines = .ok automaton.finals ∧
        readTransitions automaton.states automaton.alphabet lines = .ok automaton.transitions ∧
        readEnd lines = .ok () := by
  simp only [readAutomaton, bind_eq_ok_iff]
  constructor
  · intro h
    obtain ⟨states, hs, alphabet, ha, initial, hi, finals, hf, transitions, ht, _, he, h⟩ := h
    cases h
    exact ⟨hs, ha, hi, hf, ht, he⟩
  · intro h
    obtain ⟨hs, ha, hi, hf, ht, he⟩ := h
    exact ⟨_, hs, _, ha, _, hi, _, hf, _, ht, (), he, rfl⟩

/-- What the parser does for an automaton besides reading it: it logs what was read and warns if no
state is final. -/
def Automaton.announce (automaton : Automaton) : Stage Automaton := do
  Stage.record [.parsedStates automaton.states.size]
  Stage.record [.parsedAlphabet automaton.alphabet.size]
  Stage.raiseIf automaton.finals.isEmpty .noAcceptingState
  Stage.record [.parsedFinals automaton.finals.length]
  Stage.record [.parsedTransitions automaton.transitions.length]
  return automaton

/-- The automaton that is read decides all that the parser leaves behind. -/
theorem parse_eq_announce (h : readAutomaton lines = .ok automaton) :
    parse lines = automaton.announce := by
  obtain ⟨hs, ha, hi, hf, ht, he⟩ := readAutomaton_eq_ok_iff.1 h
  simp only [parse, Automaton.announce, hs, ha, hi, hf, ht, he, Stage.accept_ok, pure_bind]

/-- The automaton that contents describe. -/
structure Contents.Describes (contents : Contents) (automaton : Automaton) : Prop where
  states : automaton.states.texts = (contents .states).eraseDups
  alphabet : automaton.alphabet.texts = (contents .alphabet).eraseDups
  initial : ∀ name ∈ contents .initial, automaton.states.Names automaton.initial name
  increasing : automaton.finals.Pairwise (· < ·)
  finals : ∀ q, q ∈ automaton.finals ↔
    ∃ name ∈ contents .final, automaton.states.Names q name
  transitions : automaton.transitions.map automaton.showTransition = contents .transitions

theorem NameKind.not_isWord_question (kind : NameKind) : ¬ kind.IsWord "?" := by
  intro h
  have hchar := h.2 '?' (by simp)
  revert hchar
  cases kind <;> decide

theorem Name.not_mem_text {kind : NameKind} {c : Char} (name : Name kind)
    (hc : kind.admits c = false) : c ∉ name.text.toList := by
  intro hmem
  rw [name.allowed.2 c hmem] at hc
  cases hc

namespace Roster

variable {kind : NameKind} {roster : Roster kind} {i : Nat} {text : String}

/-- The question mark of a position without a name is no word. -/
theorem textAt_eq_iff (h : kind.IsWord text) : roster.textAt i = text ↔ roster.Names i text := by
  constructor
  · intro htext
    by_cases hi : i < roster.size
    · obtain ⟨other, hother⟩ := exists_names_iff_lt.2 hi
      rw [hother.textAt] at htext
      rw [← htext]
      exact hother
    · have hnone : roster.get? i = none := List.getElem?_eq_none (Nat.le_of_not_lt hi)
      have hquestion : roster.textAt i = "?" := by simp [textAt, hnone]
      rw [← htext, hquestion] at h
      exact absurd h kind.not_isWord_question
  · exact Names.textAt

/-- What cannot stand in a name is not shown at any position, the question mark apart. -/
theorem not_mem_textAt (roster : Roster kind) (i : Nat) {c : Char} (hc : kind.admits c = false)
    (hq : c ≠ '?') : c ∉ (roster.textAt i).toList := by
  cases hget : roster.get? i with
  | none => simpa [textAt, hget] using hq
  | some name => simpa [textAt, hget] using name.not_mem_text hc

end Roster

theorem joinedBy_showTransition (automaton : Automaton) (t : Transition) :
    JoinedBy '>' (automaton.showTransition t)
      [automaton.states.textAt t.source, automaton.alphabet.textAt t.symbol,
        automaton.states.textAt t.target] where
  nonempty := by simp
  separate := by
    intro piece hp
    simp only [List.mem_cons, List.not_mem_nil, or_false] at hp
    rcases hp with rfl | rfl | rfl
    · exact automaton.states.not_mem_textAt _ (by decide) (by decide)
    · exact automaton.alphabet.not_mem_textAt _ (by decide) (by decide)
    · exact automaton.states.not_mem_textAt _ (by decide) (by decide)
  joined := by
    rw [← String.toList_inj]
    simp [Automaton.showTransition]

theorem Transition.WrittenAs.show_eq {entry : String} {t : Transition}
    (h : t.WrittenAs automaton.states automaton.alphabet entry) :
    automaton.showTransition t = entry := by
  obtain ⟨source, symbol, target, hj, hs, ha, ht⟩ := h
  have hshow := (joinedBy_showTransition automaton t).joined
  rw [hs.textAt, ha.textAt, ht.textAt] at hshow
  rw [hshow, hj.joined]

/-- Only a transition between declared names shows as three words. -/
theorem writtenAs_show {t : Transition} {source symbol target : String}
    (hj : JoinedBy '>' (automaton.showTransition t) [source, symbol, target])
    (hs : NameKind.state.IsWord source) (ha : NameKind.symbol.IsWord symbol)
    (ht : NameKind.state.IsWord target) :
    t.WrittenAs automaton.states automaton.alphabet (automaton.showTransition t) := by
  have hfields := (joinedBy_showTransition automaton t).unique hj
  simp only [List.cons.injEq, and_true] at hfields
  obtain ⟨hsource, hsymbol, htarget⟩ := hfields
  exact ⟨source, symbol, target, hj, (Roster.textAt_eq_iff hs).1 hsource,
    (Roster.textAt_eq_iff ha).1 hsymbol, (Roster.textAt_eq_iff ht).1 htarget⟩

theorem Section.Lists.exists_iff {s : Section} {found : List String} {p : List String → Prop}
    (h : s.Lists lines found) : (∃ other, s.Lists lines other ∧ p other) ↔ p found := by
  constructor
  · intro hex
    obtain ⟨other, hother, hp⟩ := hex
    rw [h.unique hother]
    exact hp
  · intro hp
    exact ⟨found, h, hp⟩

theorem readAutomaton_iff_readings (hw : contents.WrittenIn lines) :
    readAutomaton lines = .ok automaton ↔
      ((∀ name ∈ contents .states, NameKind.state.IsWord name) ∧
        automaton.states.texts = (contents .states).eraseDups) ∧
      ((∀ name ∈ contents .alphabet, NameKind.symbol.IsWord name) ∧
        automaton.alphabet.texts = (contents .alphabet).eraseDups) ∧
      (contents .initial ≠ [] ∧
        ∀ name ∈ contents .initial, automaton.states.Names automaton.initial name) ∧
      ((∀ name ∈ contents .final, name ∈ automaton.states.texts) ∧
        automaton.finals.Pairwise (· < ·) ∧
        ∀ q, q ∈ automaton.finals ↔ ∃ name ∈ contents .final, automaton.states.Names q name) ∧
      List.Forall₂ (fun entry t => t.WrittenAs automaton.states automaton.alphabet entry)
        (contents .transitions) automaton.transitions := by
  have hend : lines.length ≤ 5 := Nat.le_of_eq hw.1
  simp only [readAutomaton_eq_ok_iff, readStates, readAlphabet, readRoster_eq_ok_iff,
    readInitial_eq_ok_iff, readFinals_eq_ok_iff, readTransitions_eq_ok_iff, readEnd_eq_ok_iff,
    (hw.2 _).exists_iff, hend, and_true]

/-- A written description is read as the automaton that its contents describe. -/
theorem readAutomaton_iff_describes (hw : contents.WrittenIn lines) :
    readAutomaton lines = .ok automaton ↔
      contents.Grammatical ∧ contents.Describes automaton := by
  rw [readAutomaton_iff_readings hw]
  constructor
  · intro h
    obtain ⟨⟨hswords, hs⟩, ⟨hawords, ha⟩, ⟨hne, hi⟩, ⟨hfdecl, hincr, hf⟩, ht⟩ := h
    have hstate {name : String} {q : Nat} (h : automaton.states.Names q name) :
        name ∈ contents .states :=
      (Roster.mem_texts_iff_of_eq hs).1 (Roster.exists_names_iff_mem.1 ⟨q, h⟩)
    have hsymbol {name : String} {a : Nat} (h : automaton.alphabet.Names a name) :
        name ∈ contents .alphabet :=
      (Roster.mem_texts_iff_of_eq ha).1 (Roster.exists_names_iff_mem.1 ⟨a, h⟩)
    refine ⟨⟨hswords, hawords, ?_, ?_, ?_⟩, ⟨hs, ha, hi, hincr, hf, ?_⟩⟩
    · obtain ⟨name, hname⟩ := List.exists_mem_of_ne_nil _ hne
      exact ⟨name, hstate (hi name hname), hname,
        fun other ho => (hi other ho).unique_text (hi name hname)⟩
    · intro name hname
      exact (Roster.mem_texts_iff_of_eq hs).1 (hfdecl name hname)
    · intro entry he
      obtain ⟨t, -, source, symbol, target, hj, hsource, hsym, htarget⟩ :=
        exists_right_of_forall₂ ht he
      exact ⟨source, hstate hsource, symbol, hsymbol hsym, target, hstate htarget, hj⟩
    · have hshow := ht.imp (fun _ _ h => h.show_eq)
      rw [← List.forall₂_eq_eq_eq, List.forall₂_map_left_iff]
      exact hshow.flip
  · intro h
    obtain ⟨hg, hd⟩ := h
    refine ⟨⟨hg.states, hd.states⟩, ⟨hg.alphabet, hd.alphabet⟩, ⟨?_, hd.initial⟩,
      ⟨?_, hd.increasing, hd.finals⟩, ?_⟩
    · obtain ⟨name, -, hname, -⟩ := hg.initial
      exact List.ne_nil_of_mem hname
    · intro name hname
      exact (Roster.mem_texts_iff_of_eq hd.states).2 (hg.final name hname)
    · rw [← hd.transitions, List.forall₂_map_left_iff, List.forall₂_same]
      intro t ht
      have hentry : automaton.showTransition t ∈ contents .transitions := by
        rw [← hd.transitions]
        exact List.mem_map_of_mem ht
      obtain ⟨source, hsource, symbol, hsymbol, target, htarget, hj⟩ := hg.transitions _ hentry
      exact writtenAs_show hj (hg.states _ hsource) (hg.alphabet _ hsymbol) (hg.states _ htarget)

theorem exists_writtenIn (h : readAutomaton lines = .ok automaton) :
    ∃ contents : Contents, contents.WrittenIn lines := by
  rw [readAutomaton_eq_ok_iff] at h
  obtain ⟨hs, ha, hi, hf, ht, he⟩ := h
  obtain ⟨states, hs, -⟩ := readRoster_eq_ok_iff.1 hs
  obtain ⟨alphabet, ha, -⟩ := readRoster_eq_ok_iff.1 ha
  obtain ⟨initial, hi, -⟩ := readInitial_eq_ok_iff.1 hi
  obtain ⟨final, hf, -⟩ := readFinals_eq_ok_iff.1 hf
  obtain ⟨transitions, ht, -⟩ := readTransitions_eq_ok_iff.1 ht
  refine ⟨.of states alphabet initial final transitions, ?_, ?_⟩
  · have hle : lines.length ≤ 5 := readEnd_eq_ok_iff.1 he
    obtain ⟨line, hline, -⟩ := ht
    have hlt : 4 < lines.length := (List.getElem?_eq_some_iff.1 hline).1
    omega
  · intro s
    cases s
    · exact hs
    · exact ha
    · exact hi
    · exact hf
    · exact ht

theorem length_of_readAutomaton (h : readAutomaton lines = .ok automaton) : lines.length = 5 := by
  obtain ⟨contents, hw⟩ := exists_writtenIn h
  exact hw.1

theorem exists_roster {kind : NameKind} {found : List String}
    (h : ∀ name ∈ found, kind.IsWord name) :
    ∃ roster : Roster kind, roster.texts = found.eraseDups := by
  obtain ⟨names, hnames⟩ := exists_forall₂ (r := fun text (name : Name kind) => text = name.text)
    fun text ht => ⟨⟨text, NameKind.allows_iff_isWord.2 (h text ht)⟩, rfl⟩
  rw [← List.forall₂_map_right_iff, List.forall₂_eq_eq_eq] at hnames
  exact ⟨.ofList names, by rw [hnames, Roster.texts_ofList]⟩

/-- Every grammatical description is read. -/
theorem exists_readAutomaton (hw : contents.WrittenIn lines) (hg : contents.Grammatical) :
    ∃ automaton, readAutomaton lines = .ok automaton := by
  obtain ⟨states, hs⟩ := exists_roster hg.states
  obtain ⟨alphabet, ha⟩ := exists_roster hg.alphabet
  have hstate {name : String} (hn : name ∈ contents .states) : ∃ q, states.Names q name :=
    Roster.exists_names_iff_mem.2 ((Roster.mem_texts_iff_of_eq hs).2 hn)
  have hsymbol {name : String} (hn : name ∈ contents .alphabet) : ∃ a, alphabet.Names a name :=
    Roster.exists_names_iff_mem.2 ((Roster.mem_texts_iff_of_eq ha).2 hn)
  obtain ⟨name, hdecl, hname, hsole⟩ := hg.initial
  obtain ⟨initial, hi⟩ := hstate hdecl
  obtain ⟨finals, hf⟩ : ∃ finals, readFinals states lines = .ok finals := by
    rw [exists_ok_iff]
    intro rejection hr
    rcases rejects_readFinals.1 hr with ⟨hm, -⟩ | ⟨found, other, hfound, hleft, -⟩
    · exact Section.exists_lists_iff.1 ⟨_, hw.2 .final⟩ hm
    · rw [hfound.unique (hw.2 .final)] at hleft
      exact hleft.holds (Roster.exists_names_iff_mem.1 (hstate (hg.final _ hleft.mem)))
  obtain ⟨transitions, ht⟩ := exists_forall₂
    (r := fun entry t => Transition.WrittenAs states alphabet t entry) fun entry he => by
      obtain ⟨source, hsource, symbol, hsym, target, htarget, hj⟩ := hg.transitions entry he
      obtain ⟨q, hq⟩ := hstate hsource
      obtain ⟨a, ha⟩ := hsymbol hsym
      obtain ⟨p, hp⟩ := hstate htarget
      exact ⟨⟨q, a, p⟩, source, symbol, target, hj, hq, ha, hp⟩
  rw [readFinals_eq_ok_iff, (hw.2 .final).exists_iff] at hf
  refine ⟨⟨states, alphabet, initial, finals, transitions⟩, (readAutomaton_iff_readings hw).2
    ⟨⟨hg.states, hs⟩, ⟨hg.alphabet, ha⟩, ⟨List.ne_nil_of_mem hname, ?_⟩, hf, ht⟩⟩
  intro other ho
  rw [hsole other ho]
  exact hi

/-- A written description is read if and only if it is grammatical. -/
theorem exists_readAutomaton_iff (hw : contents.WrittenIn lines) :
    (∃ automaton, readAutomaton lines = .ok automaton) ↔ contents.Grammatical := by
  constructor
  · intro h
    obtain ⟨automaton, h⟩ := h
    exact ((readAutomaton_iff_describes hw).1 h).1
  · exact exists_readAutomaton hw

/-- Whatever is read, its indices refer to declared names. -/
theorem inRange_of_readAutomaton (h : readAutomaton lines = .ok automaton) : automaton.InRange := by
  obtain ⟨contents, hw⟩ := exists_writtenIn h
  obtain ⟨-, -, ⟨hne, hi⟩, ⟨-, -, hf⟩, ht⟩ := (readAutomaton_iff_readings hw).1 h
  have htransition (t : Transition) (hmem : t ∈ automaton.transitions) :
      t.source < automaton.size ∧ t.symbol < automaton.alphabet.size ∧
        t.target < automaton.size := by
    obtain ⟨entry, -, source, symbol, target, -, hs, ha, htarget⟩ := exists_left_of_forall₂ ht hmem
    exact ⟨hs.lt, ha.lt, htarget.lt⟩
  refine ⟨?_, ?_, ?_, ?_, ?_⟩
  · obtain ⟨name, hname⟩ := List.exists_mem_of_ne_nil _ hne
    exact (hi name hname).lt
  · intro q hq
    obtain ⟨name, -, hname⟩ := (hf q).1 hq
    exact hname.lt
  · exact fun t hmem => (htransition t hmem).1
  · exact fun t hmem => (htransition t hmem).2.1
  · exact fun t hmem => (htransition t hmem).2.2

/-- A description is parsed if and only if it is written in the grammar, and then the automaton is
the one that its contents describe. -/
theorem parse_accepts_grammar (lines : List String) (warnings : Warnings) :
    ((∃ automaton, (parse lines warnings).result = .ok automaton) ↔
      ∃ contents : Contents, contents.WrittenIn lines ∧ contents.Grammatical) ∧
    ∀ automaton, (parse lines warnings).result = .ok automaton ↔
      ∃ contents : Contents, contents.WrittenIn lines ∧ contents.Grammatical ∧
        contents.Describes automaton := by
  simp only [parse_eq_ok_iff]
  have hread (automaton : Automaton) : readAutomaton lines = .ok automaton ↔
      ∃ contents : Contents, contents.WrittenIn lines ∧ contents.Grammatical ∧
        contents.Describes automaton := by
    constructor
    · intro h
      obtain ⟨contents, hw⟩ := exists_writtenIn h
      exact ⟨contents, hw, (readAutomaton_iff_describes hw).1 h⟩
    · intro h
      obtain ⟨contents, hw, hd⟩ := h
      exact (readAutomaton_iff_describes hw).2 hd
  refine ⟨⟨?_, ?_⟩, hread⟩
  · intro h
    obtain ⟨automaton, hok⟩ := h
    obtain ⟨contents, hw⟩ := exists_writtenIn hok
    exact ⟨contents, hw, (exists_readAutomaton_iff hw).1 ⟨automaton, hok⟩⟩
  · intro h
    obtain ⟨contents, hw, hg⟩ := h
    exact (exists_readAutomaton_iff hw).2 hg

end AutomatonCheck
