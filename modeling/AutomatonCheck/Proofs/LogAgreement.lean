import AutomatonCheck.Proofs.AccessRange
import AutomatonCheck.Proofs.InspectionTrail

/-!
# The log and the outcome

What is logged while a description is parsed reports progress, up to the violation that
ends the parsing if there is one. The log of an inspection follows its parts: the states
that were reached, the states that are connected, conflicts, gaps and the classification,
each with the warning that it gives rise to. So the outcome of a check can be told from
its log, and from the last event alone which kind of outcome it is.
-/
namespace AutomatonCheck

variable {lines : List String} {automaton : Automaton}

namespace Event

/-- The events that report progress of the parser. -/
def isProgress : Event → Bool
  | .parsedStates _ | .parsedAlphabet _ | .parsedFinals _ | .parsedTransitions _ | .raised _ => true
  | _ => false

/-- The events that report what is wrong with the shape of a description. -/
def isFault : Event → Bool
  | .malformed _ _ | .surplusLine => true
  | _ => false

theorem isProgress_of_isRaised {e : Event} (h : e.isRaised = true) : e.isProgress = true := by
  cases e <;> simp_all [isRaised, isProgress]

theorem not_isFault_of_isProgress {e : Event} (h : e.isProgress = true) : e.isFault = false := by
  cases e <;> simp_all [isFault, isProgress]

end Event

/-- The events that a reading adds when it fails. -/
def violationEvents {α : Type} : Except Violation α → List Event
  | .ok _ => []
  | .error violation => violation.events

namespace Stage

variable {α β : Type}

/-- A stage that logs progress and after it nothing but the violation of a reading. -/
def LogsReading (stage : Stage α) (reading : Except Violation α) : Prop :=
  ∀ warnings, ∃ progress : List Event, (∀ e ∈ progress, e.isProgress = true) ∧
    (stage warnings).events = progress ++ violationEvents reading

theorem logsReading_pure (a : α) : (pure a : Stage α).LogsReading (.ok a) := fun _ =>
  ⟨[], by simp, rfl⟩

theorem LogsReading.accept_bind {reading : Except Violation α} {next : α → Stage β}
    {later : α → Except Violation β} (h : ∀ a, (next a).LogsReading (later a)) :
    (accept reading >>= next).LogsReading (reading >>= later) := by
  intro warnings
  cases reading with
  | ok a => exact h a warnings
  | error violation => exact ⟨[], by simp, by rw [accept_error_bind, accept_error_apply]; rfl⟩

theorem LogsReading.record_bind {e : Event} {next : Unit → Stage β}
    {later : Except Violation β} (h : (next ()).LogsReading later) (he : e.isProgress = true) :
    (record [e] >>= next).LogsReading later := by
  intro warnings
  obtain ⟨progress, hprogress, hevents⟩ := h warnings
  refine ⟨e :: progress, ?_, ?_⟩
  · simpa [he] using hprogress
  · rw [record_bind_apply, hevents, List.singleton_append, List.cons_append]

theorem LogsReading.raiseIf_bind {condition : Bool} {w : Warning} {next : Unit → Stage β}
    {later : Except Violation β} (h : (next ()).LogsReading later) :
    (raiseIf condition w >>= next).LogsReading later := by
  intro warnings
  obtain ⟨progress, hprogress, hevents⟩ :=
    h (if condition then warnings.insert w else warnings)
  refine ⟨raisedEvents condition w warnings ++ progress, ?_, ?_⟩
  · intro e he
    rcases List.mem_append.1 he with he | he
    · exact Event.isProgress_of_isRaised (isRaised_of_mem_raisedEvents he)
    · exact hprogress e he
  · rw [raiseIf_bind_eq]
    simp only [hevents, List.append_assoc]

end Stage

/-- The parser logs its progress, and then at most the violation that ends it. -/
theorem logsReading_parse (lines : List String) : (parse lines).LogsReading (readAutomaton lines) := by
  unfold parse readAutomaton
  refine Stage.LogsReading.accept_bind fun states => ?_
  refine Stage.LogsReading.record_bind ?_ rfl
  refine Stage.LogsReading.accept_bind fun alphabet => ?_
  refine Stage.LogsReading.record_bind ?_ rfl
  refine Stage.LogsReading.accept_bind fun initial => ?_
  refine Stage.LogsReading.accept_bind fun finals => ?_
  refine Stage.LogsReading.raiseIf_bind ?_
  refine Stage.LogsReading.record_bind ?_ rfl
  refine Stage.LogsReading.accept_bind fun transitions => ?_
  refine Stage.LogsReading.record_bind ?_ rfl
  exact Stage.LogsReading.accept_bind fun _ => Stage.logsReading_pure _

/-- The events of a log that a report stands in. -/
structure Report.LoggedBy (report : Report) (events : List Event) : Prop where
  raised_iff : ∀ w, .raised w ∈ events ↔ report.warnings.contains w = true
  raised_count : events.countP Event.isRaised = report.warnings.size
  last : events.getLast? = some (.classified report.classification report.warnings.size)
  reached : ∃ count size, (∀ c n, .reached c n ∈ events ↔ c = count ∧ n = size) ∧
    (report.warnings.contains .unreachableStates = true ↔ count < size)
  nondeterministic_iff : report.warnings.contains .nondeterministic = true ↔
    ∃ q a k, .conflict q a k ∈ events
  incomplete_iff : report.classification = .incomplete ↔
    (∃ q a k, .conflict q a k ∈ events) ∨ ∃ q a, .gap q a ∈ events

/-- The log tells the outcome. -/
structure Outcome.LoggedBy (outcome : Outcome) (events : List Event) : Prop where
  raised_once : ∀ w, events.count (.raised w) ≤ 1
  classified_iff : ∀ classification n, .classified classification n ∈ events ↔
    ∃ report, outcome = .accepted report ∧ report.classification = classification ∧
      report.warnings.size = n
  report : ∀ report, outcome = .accepted report → report.LoggedBy events
  fault_count : events.countP Event.isFault =
    if outcome = .rejected .malformedInput then 1 else 0
  fault_last : outcome = .rejected .malformedInput →
    ∃ e, events.getLast? = some e ∧ e.isFault = true
  disjoint_iff : outcome = .rejected .disjointStates ↔
    ∃ count size, events.getLast? = some (.connected count size) ∧ count < size

/-- Each raised warning is one of three. -/
theorem countP_isRaised (events : List Event) : events.countP Event.isRaised =
    events.count (.raised .noAcceptingState) + events.count (.raised .unreachableStates) +
      events.count (.raised .nondeterministic) := by
  induction events with
  | nil => rfl
  | cons e events ih =>
    simp only [List.countP_cons, List.count_cons, ih]
    cases e with
    | raised w => cases w <;> simp [Event.isRaised] <;> omega
    | _ => simp [Event.isRaised]

theorem Warnings.size_eq (warnings : Warnings) : warnings.size =
    (warnings.contains .noAcceptingState).toNat + (warnings.contains .unreachableStates).toNat +
      (warnings.contains .nondeterministic).toNat := by
  simp only [size, toList, Warning.all, List.filter_cons, List.filter_nil]
  cases warnings.contains .noAcceptingState <;> cases warnings.contains .unreachableStates <;>
    cases warnings.contains .nondeterministic <;> rfl

namespace Inspection

variable {inspection : Inspection} {reached connected : Nat} {warnings : Warnings}

theorem countP_isFault_walkEvents :
    (inspection.walkEvents reached connected warnings).countP Event.isFault = 0 := by
  rw [List.countP_eq_zero]
  intro e he hfault
  have hraised : e.isRaised = false := by cases e <;> simp_all [Event.isFault, Event.isRaised]
  rcases (mem_walkEvents_iff hraised).1 he with rfl | rfl
  · simp [Event.isFault] at hfault
  · simp [Event.isFault] at hfault

theorem countP_isFault_reportEvents :
    (inspection.reportEvents reached connected warnings).countP Event.isFault = 0 := by
  rw [List.countP_eq_zero]
  intro e he hfault
  have hraised : e.isRaised = false := by cases e <;> simp_all [Event.isFault, Event.isRaised]
  rw [mem_reportEvents_iff hraised] at he
  cases e <;> simp_all [Event.isFault, conflictEvents, gapEvents]

end Inspection

section

variable {progress : List Event} (hprogress : ∀ e ∈ progress, e.isProgress = true)

include hprogress

theorem not_mem_progress {e : Event} (he : e.isProgress = false) : e ∉ progress := by
  intro hmem
  rw [hprogress e hmem] at he
  cases he

theorem countP_isFault_progress : progress.countP Event.isFault = 0 := by
  rw [List.countP_eq_zero]
  intro e he
  simp [Event.not_isFault_of_isProgress (hprogress e he)]

/-- A violation is logged last if it makes the description malformed, and not at all otherwise. -/
theorem Outcome.loggedBy_violation (violation : Violation)
    (honce : ∀ w, (progress ++ violation.events).count (.raised w) ≤ 1) :
    (Outcome.rejected violation.rejection).LoggedBy (progress ++ violation.events) where
  raised_once := honce
  classified_iff := by
    intro classification n
    have hnot : .classified classification n ∉ progress := not_mem_progress hprogress rfl
    have hviolation : .classified classification n ∉ violation.events := by
      cases violation <;> simp [Violation.events]
    simp [hnot, hviolation]
  report := by
    intro report h
    cases h
  fault_count := by
    rw [List.countP_append, countP_isFault_progress hprogress]
    cases violation <;> simp [Violation.events, Violation.rejection, Event.isFault]
  fault_last := by
    intro h
    cases violation with
    | malformed s flaw => exact ⟨.malformed s flaw, by simp [Violation.events], rfl⟩
    | surplusLine => exact ⟨.surplusLine, by simp [Violation.events], rfl⟩
    | _ => simp [Violation.rejection] at h
  disjoint_iff := by
    have hne : violation.rejection ≠ .disjointStates := by
      cases violation <;> simp [Violation.rejection]
    simp only [Outcome.rejected.injEq, hne, false_iff]
    intro hlast
    obtain ⟨count, size, hlast, -⟩ := hlast
    have hnot : .connected count size ∉ progress := not_mem_progress hprogress rfl
    have hviolation : .connected count size ∉ violation.events := by
      cases violation <;> simp [Violation.events]
    have hmem := List.mem_of_getLast? hlast
    simp [hnot, hviolation] at hmem

namespace Inspection

variable {inspection : Inspection} {reached connected : Nat} {warnings : Warnings}

/-- The number of connected states is logged last if it is too small. -/
theorem loggedBy_disjoint (hd : connected < inspection.size)
    (honce : ∀ w, (progress ++ inspection.walkEvents reached connected warnings).count
      (.raised w) ≤ 1) :
    (Outcome.rejected .disjointStates).LoggedBy
      (progress ++ inspection.walkEvents reached connected warnings) where
  raised_once := honce
  classified_iff := by
    intro classification n
    have hnot : .classified classification n ∉ progress := not_mem_progress hprogress rfl
    simp [hnot, mem_walkEvents_iff (e := .classified classification n) rfl]
  report := by
    intro report h
    cases h
  fault_count := by
    rw [List.countP_append, countP_isFault_progress hprogress, countP_isFault_walkEvents]
    simp
  fault_last := by
    intro h
    cases h
  disjoint_iff := by
    have hlast : (progress ++ inspection.walkEvents reached connected warnings).getLast? =
        some (.connected connected inspection.size) := by
      rw [walkEvents, ← List.append_assoc, List.getLast?_concat]
    simp [hlast, hd]

theorem conflict_mem_iff {q a k : Nat} :
    .conflict q a k ∈ progress ++ inspection.reportEvents reached connected warnings ↔
      .conflict q a k ∈ inspection.conflictEvents := by
  have hnot : .conflict q a k ∉ progress := not_mem_progress hprogress rfl
  simp [hnot, mem_reportEvents_iff (e := .conflict q a k) rfl, gapEvents]

theorem gap_mem_iff {q a : Nat} :
    .gap q a ∈ progress ++ inspection.reportEvents reached connected warnings ↔
      .gap q a ∈ inspection.gapEvents := by
  have hnot : .gap q a ∉ progress := not_mem_progress hprogress rfl
  simp [hnot, mem_reportEvents_iff (e := .gap q a) rfl, conflictEvents]

/-- The report that an inspection ends in, as the log tells it. -/
theorem report_loggedBy (hfresh : ∀ w, w ≠ .noAcceptingState → warnings.contains w = false)
    (htells : ∀ w, (progress ++ inspection.reportEvents reached connected warnings).count
      (.raised w) = ((inspection.finalWarnings reached warnings).contains w).toNat) :
    Report.LoggedBy ⟨inspection.classification, inspection.finalWarnings reached warnings⟩
      (progress ++ inspection.reportEvents reached connected warnings) where
  raised_iff := by
    intro w
    rw [← List.count_pos_iff, htells]
    cases (inspection.finalWarnings reached warnings).contains w <;> simp
  raised_count := by
    rw [countP_isRaised, htells, htells, htells, Warnings.size_eq]
  last := by
    rw [reportEvents, ← List.append_assoc, List.getLast?_concat]
  reached := by
    refine ⟨reached, inspection.size, ?_, ?_⟩
    · intro c n
      have hnot : .reached c n ∉ progress := not_mem_progress hprogress rfl
      simp [hnot, mem_reportEvents_iff (e := .reached c n) rfl, conflictEvents, gapEvents]
    · simp only [finalWarnings, scanWarnings, walkWarnings, Warnings.contains_insert_if,
        hfresh .unreachableStates (by decide)]
      simp
  nondeterministic_iff := by
    simp only [conflict_mem_iff hprogress, exists_conflict_iff]
    simp only [finalWarnings, scanWarnings, walkWarnings, Warnings.contains_insert_if,
      hfresh .nondeterministic (by decide)]
    simp
  incomplete_iff := by
    simp only [conflict_mem_iff hprogress, gap_mem_iff hprogress, exists_conflict_iff,
      exists_gap_iff, classification_eq_incomplete_iff]

theorem loggedBy_report (hfresh : ∀ w, w ≠ .noAcceptingState → warnings.contains w = false)
    (htells : ∀ w, (progress ++ inspection.reportEvents reached connected warnings).count
      (.raised w) = ((inspection.finalWarnings reached warnings).contains w).toNat) :
    (Outcome.accepted ⟨inspection.classification, inspection.finalWarnings reached warnings⟩).LoggedBy
      (progress ++ inspection.reportEvents reached connected warnings) where
  raised_once := by
    intro w
    rw [htells]
    exact Bool.toNat_le _
  classified_iff := by
    intro classification n
    have hnot : .classified classification n ∉ progress := not_mem_progress hprogress rfl
    simp [hnot, mem_reportEvents_iff (e := .classified classification n) rfl, conflictEvents,
      gapEvents, eq_comm]
  report := by
    intro report h
    cases h
    exact report_loggedBy hprogress hfresh htells
  fault_count := by
    rw [List.countP_append, countP_isFault_progress hprogress, countP_isFault_reportEvents]
    simp
  fault_last := by
    intro h
    cases h
  disjoint_iff := by
    have hlast : (progress ++ inspection.reportEvents reached connected warnings).getLast? =
        some (.classified inspection.classification
          (inspection.finalWarnings reached warnings).size) := by
      rw [reportEvents, ← List.append_assoc, List.getLast?_concat]
    simp [hlast]

end Inspection

end

section

variable {violation : Violation} {inspection : Inspection}

/-- After a violation a check leaves behind what the parser does. -/
theorem check_of_violation (h : readAutomaton lines = .error violation) :
    (check lines).result = .error (.rejected violation.rejection) ∧
      (check lines).events = (parse lines .empty).events := by
  have hparse : (parse lines .empty).result = .error (.rejected violation.rejection) := by
    rw [parse_result, h]
    rfl
  rw [check, checking, Stage.bind_apply, hparse]
  exact ⟨rfl, rfl⟩

/-- What a check leaves behind is what the parser does, and then the inspection. -/
theorem check_of_readAutomaton (h : readAutomaton lines = .ok automaton)
    (hof : Inspection.ofAutomaton? automaton = some inspection) :
    check lines =
      let later := inspection.run (parse lines .empty).warnings
      { later with events := (parse lines .empty).events ++ later.events } := by
  have hparse : (parse lines .empty).result = .ok automaton := parse_eq_ok_iff.2 h
  rw [check, checking, Stage.bind_apply, hparse]
  simp only [validate_eq_run hof]

theorem contains_parse_warnings (h : readAutomaton lines = .ok automaton) {w : Warning}
    (hw : w ≠ .noAcceptingState) : (parse lines .empty).warnings.contains w = false := by
  rw [parse_warnings h]
  split
  · simp [hw]
  · simp

end

/-- Every check ends with an outcome that its log tells. -/
theorem check_logged (lines : List String) :
    ∃ outcome, Outcome.ofResult? (check lines).result = some outcome ∧
      outcome.LoggedBy (check lines).events := by
  have htells (w : Warning) : (check lines).events.count (.raised w) =
      ((check lines).warnings.contains w).toNat := (tellsRaised_checking lines).count_raised w
  have honce (w : Warning) : (check lines).events.count (.raised w) ≤ 1 := by
    rw [htells]
    exact Bool.toNat_le _
  obtain ⟨progress, hprogress, hevents⟩ := logsReading_parse lines .empty
  cases hread : readAutomaton lines with
  | error violation =>
    obtain ⟨hresult, hsame⟩ := check_of_violation hread
    rw [hread] at hevents
    rw [hsame, hevents] at honce ⊢
    exact ⟨.rejected violation.rejection, by rw [hresult]; rfl,
      Outcome.loggedBy_violation hprogress violation honce⟩
  | ok automaton =>
    rw [hread, violationEvents, List.append_nil] at hevents
    have hr : automaton.InRange := inRange_of_readAutomaton hread
    obtain ⟨inspection, hof, hrep⟩ := Inspection.exists_ofAutomaton? hr
    obtain ⟨reached, hreached, -⟩ := hrep.exists_reached hr
    obtain ⟨connected, hconnected, -⟩ := hrep.exists_connected hr
    have hcheck := check_of_readAutomaton hread hof
    rw [hevents] at hcheck
    by_cases hd : connected < inspection.size
    · rw [Inspection.run_of_disjoint hreached hconnected hd] at hcheck
      rw [hcheck] at honce ⊢
      exact ⟨_, rfl, Inspection.loggedBy_disjoint hprogress hd honce⟩
    · rw [Inspection.run_of_connected hreached hconnected hd] at hcheck
      rw [hcheck] at htells ⊢
      have hfresh : ∀ w, w ≠ .noAcceptingState →
          (parse lines .empty).warnings.contains w = false :=
        fun _ hw => contains_parse_warnings hread hw
      exact ⟨_, rfl, Inspection.loggedBy_report hprogress hfresh htells⟩

end AutomatonCheck
