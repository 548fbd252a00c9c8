import AutomatonCheck.Proofs.CheckOutcome
import AutomatonCheck.Proofs.FirstViolation

/-!
# Warnings carried through a check

The warnings so far are handed from stage to stage. The parser adds at most one to them,
as soon as it has read a line of final states that names none, and it keeps this warning
when it rejects a later line. An inspection adds what it finds. Neither of them looks at
the warnings that it starts from: they are there in the end, and they change nothing else.
-/
namespace AutomatonCheck

variable {lines : List String} {automaton : Automaton}

namespace Warnings

/-- The warnings of both sets. -/
def union (warnings others : Warnings) : Warnings where
  noAcceptingState := warnings.noAcceptingState || others.noAcceptingState
  unreachableStates := warnings.unreachableStates || others.unreachableStates
  nondeterministic := warnings.nondeterministic || others.nondeterministic

@[simp] theorem contains_union (warnings others : Warnings) (w : Warning) :
    (warnings.union others).contains w = (warnings.contains w || others.contains w) := by
  cases w <;> rfl

end Warnings

/-- The report with the warnings from before it besides its own. -/
def Report.carrying (kept : Warnings) (report : Report) : Report :=
  ⟨report.classification, kept.union report.warnings⟩

namespace Stage

variable {α β : Type}

/-- A stage after which the warnings are as before. -/
def Keeps (stage : Stage α) : Prop := ∀ before, (stage before).warnings = before

theorem keeps_pure (a : α) : (pure a : Stage α).Keeps := fun _ => rfl

theorem Keeps.accept_bind {reading : Except Violation α} {next : α → Stage β}
    (hn : ∀ a, (next a).Keeps) : (accept reading >>= next).Keeps := by
  intro before
  cases reading with
  | ok a => exact hn a before
  | error violation => rw [accept_error_bind, accept_error_apply]

theorem Keeps.record_bind {events : List Event} {next : Unit → Stage β} (h : (next ()).Keeps) :
    (record events >>= next).Keeps := by
  intro before
  rw [record_bind_apply]
  exact h before

/-- A stage that adds these warnings to the ones from before, whatever they are. -/
def Adds (stage : Stage α) (added : Warning → Prop) : Prop :=
  ∀ before w, (stage before).warnings.contains w = true ↔ before.contains w = true ∨ added w

variable {added : Warning → Prop}

theorem Adds.congr {stage : Stage α} {others : Warning → Prop} (h : stage.Adds added)
    (hsame : ∀ w, added w ↔ others w) : stage.Adds others := by
  intro before w
  rw [h before w, hsame]

theorem Adds.record_bind {events : List Event} {next : Unit → Stage β}
    (h : (next ()).Adds added) : (record events >>= next).Adds added := by
  intro before w
  rw [record_bind_apply]
  exact h before w

theorem Keeps.adds_raiseIf_bind {condition : Bool} {v : Warning} {next : Unit → Stage β}
    (h : (next ()).Keeps) :
    (raiseIf condition v >>= next).Adds fun w => w = v ∧ condition = true := by
  intro before w
  rw [raiseIf_bind_eq]
  dsimp only
  rw [h, Warnings.contains_insert_if]

/-- After a reading that is rejected nothing is added any more. -/
theorem Adds.accept_bind {reading : Except Violation α} {next : α → Stage β}
    {fault : Rejection → Prop} (hf : ∀ r, Rejects reading r ↔ fault r)
    (hn : ∀ a, reading = .ok a → (next a).Adds added) :
    (accept reading >>= next).Adds fun w => (∀ r, ¬ fault r) ∧ added w := by
  intro before w
  simp only [← hf]
  cases reading with
  | ok a =>
    rw [accept_ok, pure_bind, hn a rfl before w]
    simp
  | error violation =>
    rw [accept_error_bind, accept_error_apply]
    simp

end Stage

/-- The first four lines are there and without a fault, and the fourth has no entries. -/
def LacksFinals (lines : List String) : Prop :=
  (∀ s : Section, s.place ≤ Section.final.place → ∀ r, ¬ Fault lines s r) ∧
    Section.final.Lists lines []

theorem lacksFinals_iff : LacksFinals lines ↔
    (∀ r, ¬ Fault lines .states r) ∧ (∀ r, ¬ Fault lines .alphabet r) ∧
      (∀ r, ¬ Fault lines .initial r) ∧ (∀ r, ¬ Fault lines .final r) ∧
      Section.final.Lists lines [] := by
  constructor
  · intro h
    obtain ⟨hno, hempty⟩ := h
    exact ⟨hno .states (by decide), hno .alphabet (by decide), hno .initial (by decide),
      hno .final (by decide), hempty⟩
  · intro h
    obtain ⟨hs, ha, hi, hf, hempty⟩ := h
    refine ⟨?_, hempty⟩
    intro s hle
    cases s with
    | states => exact hs
    | alphabet => exact ha
    | initial => exact hi
    | final => exact hf
    | transitions => exact absurd hle (by decide)

theorem isEmpty_of_readFinals {states : Roster .state} {finals : List Nat}
    (h : readFinals states lines = .ok finals) :
    finals.isEmpty = true ↔ Section.final.Lists lines [] := by
  obtain ⟨found, hfound, hdecl, -, hmem⟩ := readFinals_eq_ok_iff.1 h
  rw [List.isEmpty_iff, Roster.eq_nil_iff_of_mem_iff hdecl hmem]
  constructor
  · intro hnone
    rw [← hnone]
    exact hfound
  · intro hempty
    exact hfound.unique hempty

/-- The parser warns of final states once their line is read, and of nothing else. -/
theorem adds_parse (lines : List String) :
    (parse lines).Adds fun w => w = .noAcceptingState ∧ LacksFinals lines := by
  have hparse : (parse lines).Adds fun w =>
      (∀ r, ¬ Fault lines .states r) ∧ (∀ r, ¬ Fault lines .alphabet r) ∧
        (∀ r, ¬ Fault lines .initial r) ∧ (∀ r, ¬ Fault lines .final r) ∧
        w = .noAcceptingState ∧ Section.final.Lists lines [] := by
    unfold parse
    apply Stage.Adds.accept_bind fun _ => rejects_readStates
    intro states hs
    apply Stage.Adds.record_bind
    apply Stage.Adds.accept_bind fun _ => rejects_readAlphabet
    intro alphabet ha
    apply Stage.Adds.record_bind
    apply Stage.Adds.accept_bind fun _ => rejects_readInitial_iff_fault hs
    intro initial hi
    apply Stage.Adds.accept_bind fun _ => rejects_readFinals_iff_fault hs
    intro finals hf
    rw [← isEmpty_of_readFinals hf]
    apply Stage.Keeps.adds_raiseIf_bind
    apply Stage.Keeps.record_bind
    apply Stage.Keeps.accept_bind
    intro transitions
    apply Stage.Keeps.record_bind
    apply Stage.Keeps.accept_bind
    intro _
    exact Stage.keeps_pure _
  apply hparse.congr
  intro w
  rw [lacksFinals_iff]
  tauto

namespace Inspection

variable {inspection : Inspection} {reached : Nat}

theorem finalWarnings_eq_union (kept : Warnings) :
    inspection.finalWarnings reached kept =
      kept.union (inspection.finalWarnings reached .empty) := by
  apply Warnings.ext_contains
  intro w
  rw [Bool.eq_iff_iff, Warnings.contains_union, Bool.or_eq_true]
  simp only [finalWarnings, scanWarnings, walkWarnings, Warnings.contains_insert_if,
    Warnings.contains_empty]
  tauto

/-- The warnings from before a run are in its report, and they have no other effect. -/
theorem Represents.run_carrying (h : inspection.Represents automaton) (hr : automaton.InRange)
    (kept : Warnings) : (inspection.run kept).result =
      (inspection.run .empty).result.map (Report.carrying kept) := by
  obtain ⟨reached, hreached, -⟩ := h.exists_reached hr
  obtain ⟨connected, hconnected, -⟩ := h.exists_connected hr
  by_cases hd : connected < inspection.size
  · rw [run_of_disjoint hreached hconnected hd, run_of_disjoint hreached hconnected hd]
    rfl
  · rw [run_of_connected hreached hconnected hd, run_of_connected hreached hconnected hd,
      finalWarnings_eq_union kept]
    rfl

end Inspection

/-- An automaton in range is validated in the same way from all warnings, but for these. -/
theorem validate_carrying (hr : automaton.InRange) (kept : Warnings) :
    (validate automaton kept).result =
      (validate automaton .empty).result.map (Report.carrying kept) := by
  obtain ⟨inspection, hof, h⟩ := Inspection.exists_ofAutomaton? hr
  rw [validate_eq_run hof, h.run_carrying hr]

/-- The two stages of a check, each from no warnings, decide its result. -/
theorem check_result_eq_bind (lines : List String) :
    (check lines).result = do
      let automaton ← (parse lines .empty).result
      let found ← (validate automaton .empty).result
      return found.carrying (parse lines .empty).warnings := by
  cases hparse : (parse lines .empty).result with
  | error stop =>
    rw [check, checking, Stage.result_bind_of_error hparse]
    rfl
  | ok automaton =>
    have hr : automaton.InRange := inRange_of_readAutomaton (parse_eq_ok_iff.1 hparse)
    rw [check, checking, Stage.result_bind_of_ok hparse, validate_carrying hr]
    rfl

/-- What is raised before parsing or before a run has no effect on the result, and it is raised
afterwards. The parser raises the warning of final states if the first four lines say so, even if it
rejects what comes later. A check ends in a report if both stages do, with the warnings of both. -/
theorem warnings_carried (lines : List String) :
    (∀ before, (parse lines before).result = (parse lines .empty).result ∧
      ∀ w, (parse lines before).warnings.contains w = true ↔
        before.contains w = true ∨ w = .noAcceptingState ∧ LacksFinals lines) ∧
    (∀ automaton before, (parse lines before).result = .ok automaton →
      ∃ inspection, Inspection.ofAutomaton? automaton = some inspection ∧
        ∀ kept, (validate automaton kept).result = (inspection.run kept).result ∧
          (inspection.run kept).result =
            (inspection.run .empty).result.map (Report.carrying kept)) ∧
    ∀ report, (check lines).result = .ok report ↔
      ∃ automaton found, (parse lines .empty).result = .ok automaton ∧
        (validate automaton .empty).result = .ok found ∧
        report = found.carrying (parse lines .empty).warnings := by
  refine ⟨?_, ?_, ?_⟩
  · intro before
    refine ⟨?_, adds_parse lines before⟩
    rw [parse_result, parse_result]
  · intro automaton before hok
    have hr : automaton.InRange := inRange_of_readAutomaton (parse_eq_ok_iff.1 hok)
    obtain ⟨inspection, hof, h⟩ := Inspection.exists_ofAutomaton? hr
    refine ⟨inspection, hof, fun kept => ⟨?_, h.run_carrying hr kept⟩⟩
    rw [validate_eq_run hof]
  · intro report
    rw [check_result_eq_bind]
    cases (parse lines .empty).result with
    | error stop => simp [bind, Except.bind]
    | ok automaton =>
      cases hfound : (validate automaton .empty).result with
      | error stop => simp [bind, Except.bind, hfound]
      | ok found => simp [bind, Except.bind, hfound, pure, Except.pure, eq_comm]

/-- A fork in a way that ends nowhere, with the moves in question. -/
def deadEndLines (moves : String) : List String :=
  ["states=[fork,left,right]", "alpha=[go]", "init.st=[fork]", "fin.st=[]",
    "trans=[" ++ moves ++ "]"]

/-- The warning of final states is raised for all moves, even for one that is rejected, and a report
has it besides the warning of conflicts. -/
theorem deadEnd_warnings_carried :
    (parse (deadEndLines "fork>left") .empty).result = .error (.rejected .malformedInput) ∧
      (∀ before, (parse (deadEndLines "fork>left") before).result =
          .error (.rejected .malformedInput) ∧
        (parse (deadEndLines "fork>left") before).warnings.contains .noAcceptingState = true) ∧
      (check (deadEndLines "fork>go>left,fork>go>right")).result = .ok
        ⟨.incomplete, .union (.insert .empty .noAcceptingState)
          (.insert .empty .nondeterministic)⟩ := by
  have hrejected : (parse (deadEndLines "fork>left") .empty).result =
      .error (.rejected .malformedInput) := rfl
  refine ⟨hrejected, ?_, ?_⟩
  · intro before
    obtain ⟨hparse, -, -⟩ := warnings_carried (deadEndLines "fork>left")
    have hraised : (parse (deadEndLines "fork>left") .empty).warnings.contains
        .noAcceptingState = true := by decide +kernel
    have hlacks : LacksFinals (deadEndLines "fork>left") := by
      rw [(hparse .empty).2, Warnings.contains_empty] at hraised
      simpa using hraised
    refine ⟨?_, ((hparse before).2 _).2 (.inr ⟨rfl, hlacks⟩)⟩
    rw [(hparse before).1, hrejected]
  · obtain ⟨-, -, hcheck⟩ := warnings_carried (deadEndLines "fork>go>left,fork>go>right")
    have hstages : (parse (deadEndLines "fork>go>left,fork>go>right") .empty).result.toOption.map
        (fun automaton => (validate automaton .empty).result) =
          some (.ok ⟨.incomplete, .insert .empty .nondeterministic⟩) := by decide +kernel
    obtain ⟨automaton, hok, hfound⟩ := Option.map_eq_some_iff.1 hstages
    have hwarnings : (parse (deadEndLines "fork>go>left,fork>go>right") .empty).warnings =
        .insert .empty .noAcceptingState := by decide +kernel
    refine (hcheck _).2 ⟨automaton, _, toOption_eq_some_iff.1 hok, hfound, ?_⟩
    rw [hwarnings]
    rfl

end AutomatonCheck
