import AutomatonCheck.Inspection
import AutomatonCheck.Proofs.NamedMoves

/-!
# The outcome of a check

A check of a parsed description ends as the entries decide, with no regard to the
positions that the parser gave them: disjoint states reject it, and any other description
is reported as complete or incomplete with just the warnings that it exhibits.
-/
namespace AutomatonCheck

variable {lines : List String} {automaton : Automaton} {contents : Contents} {initial : String}

namespace Contents

/-- The result that the names and the moves between them decide. -/
structure Decides (contents : Contents) (initial : String) (result : Except Stop Report) :
    Prop where
  disjoint : result = .error (.rejected .disjointStates) ↔ contents.Disjoint initial
  connected : ¬ contents.Disjoint initial → ∃ report, result = .ok report ∧
    (report.classification = .complete ↔ contents.Total) ∧
    ∀ w, report.warnings.contains w = true ↔ contents.Exhibits initial w

/-- What the names say of a description that ends in a report. -/
theorem Decides.of_ok {report : Report} (hd : contents.Decides initial (.ok report)) :
    ¬ contents.Disjoint initial ∧ (report.classification = .complete ↔ contents.Total) ∧
      ∀ w, report.warnings.contains w = true ↔ contents.Exhibits initial w := by
  have hconn : ¬ contents.Disjoint initial := by
    rw [← hd.disjoint]
    simp
  obtain ⟨decided, hok, hdecided⟩ := hd.connected hconn
  cases hok
  exact ⟨hconn, hdecided⟩

theorem Exhibits.iff_of_describes (hd : contents.Describes automaton)
    (hg : contents.Grammatical) (hr : automaton.InRange) (hi : initial ∈ contents .initial)
    (w : Warning) : contents.Exhibits initial w ↔
      (w = .noAcceptingState ∧ automaton.finals.isEmpty = true) ∨ automaton.Exhibits w := by
  cases w with
  | noAcceptingState =>
    rw [hd.finals_isEmpty_iff hg]
    simp [Contents.Exhibits, Automaton.Exhibits]
  | unreachableStates =>
    rw [hd.unreachable_iff hg hr hi]
    simp
  | nondeterministic =>
    rw [hd.nondeterministic_iff hg hr initial]
    simp

end Contents

/-- A parsed description without final states raises the one warning of the parser. -/
theorem parse_warnings (h : readAutomaton lines = .ok automaton) (warnings : Warnings) :
    (parse lines warnings).warnings =
      if automaton.finals.isEmpty then warnings.insert .noAcceptingState else warnings := by
  simp only [parse_eq_announce h, Automaton.announce, Stage.record_bind_apply,
    Stage.raiseIf_bind_apply]
  split
  · rfl
  · rfl

/-- A parsed description is validated with the warnings of the parser. -/
theorem check_result (h : readAutomaton lines = .ok automaton) :
    (check lines).result = (validate automaton
      (if automaton.finals.isEmpty then .insert .empty .noAcceptingState else .empty)).result := by
  have hparse : (parse lines .empty).result = .ok automaton := parse_eq_ok_iff.2 h
  rw [check, checking, Stage.result_bind_of_ok hparse, parse_warnings h]

theorem exists_readAutomaton_of_check {report : Report} (h : (check lines).result = .ok report) :
    ∃ automaton, readAutomaton lines = .ok automaton := by
  cases hparse : (parse lines .empty).result with
  | ok automaton => exact ⟨automaton, parse_eq_ok_iff.1 hparse⟩
  | error stop =>
    rw [check, checking, Stage.result_bind_of_error hparse] at h
    cases h

theorem check_decides (hw : contents.WrittenIn lines) (hi : initial ∈ contents .initial)
    (h : readAutomaton lines = .ok automaton) : contents.Decides initial (check lines).result := by
  obtain ⟨hg, hd⟩ := (readAutomaton_iff_describes hw).1 h
  have hr := inRange_of_readAutomaton h
  have hdisjoint := hd.disjoint_iff hg hr hi
  rw [check_result h]
  by_cases hdis : automaton.Disjoint
  · rw [validate_result_error hr hdis]
    exact ⟨iff_of_true rfl (hdisjoint.1 hdis), fun hnot => absurd (hdisjoint.1 hdis) hnot⟩
  · obtain ⟨report, hok, hcomplete, hwarnings⟩ := validate_result_ok hr hdis _
    rw [hok]
    refine ⟨?_, fun _ => ⟨report, rfl, ?_, ?_⟩⟩
    · rw [← hdisjoint]
      exact iff_of_false (fun he => by cases he) hdis
    · rw [hcomplete, hd.total_iff hg hr]
    · intro w
      rw [hwarnings, Warnings.contains_insert_if, Contents.Exhibits.iff_of_describes hd hg hr hi]
      simp

/-- Every parsed description has the entries of five sections and an initial name, and its check
ends as these decide. -/
theorem check_decided_by_names (h : (parse lines .empty).result = .ok automaton) :
    (∃ contents : Contents, ∃ initial, contents.WrittenIn lines ∧ initial ∈ contents .initial) ∧
      ∀ (contents : Contents) (initial : String), contents.WrittenIn lines →
        initial ∈ contents .initial → contents.Decides initial (check lines).result := by
  rw [parse_eq_ok_iff] at h
  obtain ⟨contents, hw⟩ := exists_writtenIn h
  obtain ⟨hg, -⟩ := (readAutomaton_iff_describes hw).1 h
  obtain ⟨initial, -, hi, -⟩ := hg.initial
  exact ⟨⟨contents, initial, hw, hi⟩, fun others name ho hn => check_decides ho hn h⟩

/-- A lamp that can be turned on, but not off again. -/
def lampLines : List String :=
  ["states=[on,off]", "alpha=[go]", "init.st=[off]", "fin.st=[on]", "trans=[off>go>on]"]

def lampContents : Contents :=
  .of ["on", "off"] ["go"] ["off"] ["on"] ["off>go>on"]

theorem lampContents_writtenIn : lampContents.WrittenIn lampLines := by
  decide +kernel

theorem lampContents_grammatical : lampContents.Grammatical where
  states := by decide
  alphabet := by decide
  initial := ⟨"off", by decide, by decide, fun other hother => List.mem_singleton.1 hother⟩
  final := by decide
  transitions := by
    intro entry hentry
    rw [List.mem_singleton.1 hentry]
    exact ⟨"off", by decide, "go", by decide, "on", by decide, by simp, by decide, by decide⟩

theorem exists_parse_lampLines : ∃ automaton, (parse lampLines .empty).result = .ok automaton := by
  obtain ⟨automaton, h⟩ := exists_readAutomaton lampContents_writtenIn lampContents_grammatical
  exact ⟨automaton, parse_eq_ok_iff.2 h⟩

theorem lamp_decided_by_names :
    (∃ automaton, (parse lampLines .empty).result = .ok automaton) ∧
      lampContents.WrittenIn lampLines ∧ "off" ∈ lampContents .initial ∧
      lampContents.Decides "off" (check lampLines).result := by
  have hi : "off" ∈ lampContents .initial := List.mem_singleton.2 rfl
  obtain ⟨automaton, h⟩ := exists_parse_lampLines
  exact ⟨⟨automaton, h⟩, lampContents_writtenIn, hi,
    (check_decided_by_names h).2 lampContents "off" lampContents_writtenIn hi⟩

end AutomatonCheck
