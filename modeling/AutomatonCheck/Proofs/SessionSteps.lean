import AutomatonCheck.Session
import AutomatonCheck.Proofs.EnumerationOrder
import AutomatonCheck.Proofs.InspectionTrail
import Mathlib.Data.List.DropRight

/-!
# The steps of a session

The parts of an inspection can be run one at a time, in any order and as often as one
likes, with warnings raised and reset in between. What is kept then depends only on what
was asked for since the last reset, and what a part finds does not depend on the steps
before it. Once the two parts that warn have run, a whole run finds what the parts find
and reports what is kept.
-/
namespace AutomatonCheck

/-- A step of a session about an automaton raises a warning, new or not. -/
def Step.Raises (automaton : Automaton) (w : Warning) : Step → Prop
  | .warn v => w = v
  | .reachability => w = .unreachableStates ∧ automaton.Exhibits .unreachableStates
  | .determinism => w = .nondeterministic ∧ automaton.Exhibits .nondeterministic
  | .reset | .disjointness | .completeness _ | .ask _ => False

/-- The steps after the last reset, or all steps if there is none. -/
def Step.sinceReset (steps : List Step) : List Step := steps.rtakeWhile (· ≠ .reset)

@[simp] theorem Step.sinceReset_concat_reset (steps : List Step) :
    sinceReset (steps ++ [.reset]) = [] :=
  List.rtakeWhile_concat_neg _ _ _ (by simp)

theorem Step.sinceReset_concat_of_ne {s : Step} (hs : s ≠ .reset) (steps : List Step) :
    sinceReset (steps ++ [s]) = sinceReset steps ++ [s] :=
  List.rtakeWhile_concat_pos _ _ _ (by simpa using hs)

/-- Raising a warning again that is kept changes nothing. -/
theorem Warnings.insert_if_of_contains {condition : Prop} [Decidable condition]
    {warnings : Warnings} {w : Warning} (h : condition → warnings.contains w = true) :
    (if condition then warnings.insert w else warnings) = warnings := by
  split
  · next hc => exact insert_of_contains (h hc)
  · rfl

namespace Session

/-- The session that some steps lead to. -/
def after (session : Session) (steps : List Step) : Session :=
  steps.foldl (fun session s => (session.step s).2) session

theorem after_concat (session : Session) (steps : List Step) (s : Step) :
    session.after (steps ++ [s]) = ((session.after steps).step s).2 := by
  simp [after]

/-- The answers and the kept warnings are those of the sessions on the way. -/
theorem steps_concat (session : Session) (steps : List Step) (s : Step) :
    session.steps (steps ++ [s]) = session.steps steps ++
      [(((session.after steps).step s).1, (session.after (steps ++ [s])).kept)] := by
  induction steps generalizing session with
  | nil => rfl
  | cons first rest ih => exact congrArg _ (ih (session.step first).2)

variable {session : Session} {reached connected : Nat}

@[simp] theorem step_warn (w : Warning) :
    session.step (.warn w) = (.done, { session with kept := session.kept.insert w }) := by
  simp only [step, advance, Stage.raiseIf_apply, if_true]
  rfl

theorem step_determinism :
    session.step .determinism = (.flag session.inspection.table.conflicts.isEmpty,
      { session with kept := session.inspection.scanWarnings session.kept }) := by
  simp only [step, advance, Inspection.determinism_apply]
  rfl

theorem step_completeness (deterministic : Bool) :
    session.step (.completeness deterministic) =
      (.classified (if deterministic && session.inspection.table.gaps.isEmpty then .complete
        else .incomplete), session) := by
  simp only [step, advance, Inspection.completeness_apply]
  rfl

theorem step_reachability
    (hr : session.inspection.table.adjacency.reachCount? session.inspection.initial = some reached) :
    session.step .reachability =
      (.done, { session with kept := session.inspection.walkWarnings reached session.kept }) := by
  simp only [step, advance, Inspection.reachability_apply hr]
  rfl

theorem step_disjointness
    (hc : session.inspection.links.reachCount? session.inspection.initial = some connected) :
    session.step .disjointness = (if connected < session.inspection.size then
      .rejected .disjointStates else .done, session) := by
  simp only [step, advance, Inspection.disjointness_apply hc]
  split
  · rfl
  · rfl

/-- No step changes the automaton or its inspection. -/
theorem step_snd (session : Session) (s : Step) :
    (session.step s).2 = { session with kept := (session.step s).2.kept } := by
  cases s <;> rfl

theorem after_eq (session : Session) (steps : List Step) :
    session.after steps = { session with kept := (session.after steps).kept } := by
  induction steps using List.reverseRecOn with
  | nil => rfl
  | append_singleton steps s ih => rw [after_concat, step_snd, ih]

@[simp] theorem automaton_after (session : Session) (steps : List Step) :
    (session.after steps).automaton = session.automaton := by
  rw [after_eq]

@[simp] theorem inspection_after (session : Session) (steps : List Step) :
    (session.after steps).inspection = session.inspection := by
  rw [after_eq]

/-- A session whose inspection has been built from its automaton. -/
structure Sound (session : Session) : Prop where
  inRange : session.automaton.InRange
  built : Inspection.ofAutomaton? session.automaton = some session.inspection

theorem Sound.represents (h : session.Sound) :
    session.inspection.Represents session.automaton := by
  obtain ⟨inspection, hof, hrep⟩ := Inspection.exists_ofAutomaton? h.inRange
  rw [h.built] at hof
  cases hof
  exact hrep

theorem Sound.after (h : session.Sound) (steps : List Step) : (session.after steps).Sound where
  inRange := by
    rw [automaton_after]
    exact h.inRange
  built := by
    rw [automaton_after, inspection_after]
    exact h.built

/-- A step keeps what was kept unless it is a reset, and adds the warnings it raises. -/
theorem Sound.contains_step (h : session.Sound) (s : Step) (w : Warning) :
    (session.step s).2.kept.contains w = true ↔
      (s ≠ .reset ∧ session.kept.contains w = true) ∨ s.Raises session.automaton w := by
  cases s with
  | warn v => simp [Step.Raises, or_comm]
  | reset => simp [step, Step.Raises]
  | reachability =>
    obtain ⟨reached, hreached, hunreached⟩ := h.represents.exists_reached h.inRange
    rw [step_reachability hreached]
    simp [Inspection.walkWarnings, Warnings.contains_insert_if, Step.Raises, hunreached]
  | disjointness =>
    obtain ⟨connected, hconnected, -⟩ := h.represents.exists_connected h.inRange
    simp [step_disjointness hconnected, Step.Raises]
  | determinism =>
    rw [step_determinism]
    simp only [Inspection.scanWarnings, Warnings.contains_insert_if, Step.Raises,
      h.represents.hasConflict_iff]
    simp
  | completeness deterministic => simp [step_completeness, Step.Raises]
  | ask question => simp [step, Step.Raises]

/-- What is kept after some steps, by what was kept at first and the steps since the last reset. -/
theorem Sound.contains_after (h : session.Sound) (steps : List Step) (w : Warning) :
    (session.after steps).kept.contains w = true ↔
      (.reset ∉ steps ∧ session.kept.contains w = true) ∨
        ∃ s ∈ Step.sinceReset steps, s.Raises session.automaton w := by
  induction steps using List.reverseRecOn with
  | nil => simp [Session.after, Step.sinceReset]
  | append_singleton steps s ih =>
    rw [after_concat, (h.after steps).contains_step, automaton_after, ih]
    by_cases hs : s = .reset
    · subst hs
      simp [Step.Raises]
    · have hne : Step.reset ≠ s := fun heq => hs heq.symm
      rw [Step.sinceReset_concat_of_ne hs]
      simp only [List.mem_append, List.mem_singleton, hs, hne, ne_eq, not_false_eq_true, true_and,
        or_false, or_and_right, exists_or, exists_eq_left, or_assoc]

/-- A whole run finds what the parts find one at a time, and reports what is kept. -/
def RunsAsParts (session : Session) : Prop :=
  ((session.step .disjointness).1 = .rejected .disjointStates ∧
      session.ask .run = .outcome (.rejected .disjointStates)) ∨
    ((session.step .disjointness).1 = .done ∧
      ∃ deterministic classification,
        (session.step .determinism).1 = .flag deterministic ∧
        (session.step (.completeness deterministic)).1 = .classified classification ∧
        session.ask .run = .outcome (.accepted ⟨classification, session.kept⟩))

/-- Where the warnings that a run would raise are kept already, it adds none. -/
theorem Sound.runsAsParts (h : session.Sound)
    (hkept : ∀ w, session.automaton.Exhibits w → session.kept.contains w = true) :
    session.RunsAsParts := by
  obtain ⟨reached, hreached, hunreached⟩ := h.represents.exists_reached h.inRange
  obtain ⟨connected, hconnected, -⟩ := h.represents.exists_connected h.inRange
  by_cases hd : connected < session.inspection.size
  · left
    refine ⟨by rw [step_disjointness hconnected, if_pos hd], ?_⟩
    simp only [ask, Inspection.run_of_disjoint hreached hconnected hd]
    rfl
  · right
    have hwalk : session.inspection.walkWarnings reached session.kept = session.kept :=
      Warnings.insert_if_of_contains fun hlt => hkept _ (hunreached.1 hlt)
    have hscan : session.inspection.scanWarnings session.kept = session.kept :=
      Warnings.insert_if_of_contains fun hconflict =>
        hkept _ (h.represents.hasConflict_iff.1 hconflict)
    refine ⟨by rw [step_disjointness hconnected, if_neg hd],
      session.inspection.table.conflicts.isEmpty, session.inspection.classification,
      by rw [step_determinism], ?_, ?_⟩
    · rw [step_completeness, Inspection.classification]
    · simp only [ask, Inspection.run_of_connected hreached hconnected hd,
        Inspection.finalWarnings, hwalk, hscan]
      rfl

theorem Sound.ask_validate (h : session.Sound) : session.ask .validate = session.ask .run := by
  simp only [ask, validate_eq_run h.built]

/-- Only questions can be out of range, and they change nothing. -/
theorem Sound.step_of_outOfRange (h : session.Sound) {s : Step}
    (hout : (session.step s).1 = .outOfRange) : (session.step s).2 = session := by
  cases s with
  | warn w => simp at hout
  | reset => simp [step] at hout
  | reachability =>
    obtain ⟨reached, hreached, -⟩ := h.represents.exists_reached h.inRange
    simp [step_reachability hreached] at hout
  | disjointness =>
    obtain ⟨connected, hconnected, -⟩ := h.represents.exists_connected h.inRange
    rw [step_disjointness hconnected]
  | determinism => simp [step_determinism] at hout
  | completeness deterministic => rw [step_completeness]
  | ask question => rfl

/-- How a session stands after some steps, whatever they were and whatever it kept before. -/
structure StandsAfter (session : Session) (steps : List Step) : Prop where
  /-- The next step is answered by the session that the steps before lead to. -/
  answered : ∀ s, session.steps (steps ++ [s]) = session.steps steps ++
    [(((session.after steps).step s).1, ((session.after steps).step s).2.kept)]
  contains_kept : ∀ w, (session.after steps).kept.contains w = true ↔
    (.reset ∉ steps ∧ session.kept.contains w = true) ∨
      ∃ s ∈ Step.sinceReset steps, s.Raises session.automaton w
  ask : ∀ question, ((session.after steps).step (.ask question)).2 = session.after steps
  outOfRange : ∀ s, ((session.after steps).step s).1 = .outOfRange →
    ((session.after steps).step s).2 = session.after steps
  /-- Neither this part nor completeness changes what is kept. -/
  disjointness : (session.after steps).step .disjointness =
    ((session.step .disjointness).1, session.after steps)
  completeness : ∀ deterministic, (session.after steps).step (.completeness deterministic) =
    ((session.step (.completeness deterministic)).1, session.after steps)
  determinism : ((session.after steps).step .determinism).1 = (session.step .determinism).1
  validate : (session.after steps).ask .validate = (session.after steps).ask .run
  run : .reachability ∈ Step.sinceReset steps → .determinism ∈ Step.sinceReset steps →
    (session.after steps).RunsAsParts

/-- Once both parts that warn have run, what the automaton exhibits is kept. -/
theorem Sound.contains_of_exhibits (h : session.Sound) {steps : List Step}
    (hreach : .reachability ∈ Step.sinceReset steps)
    (hdet : .determinism ∈ Step.sinceReset steps) {w : Warning}
    (hw : session.automaton.Exhibits w) : (session.after steps).kept.contains w = true := by
  rw [h.contains_after]
  right
  cases w with
  | noAcceptingState => exact hw.elim
  | unreachableStates => exact ⟨.reachability, hreach, rfl, hw⟩
  | nondeterministic => exact ⟨.determinism, hdet, rfl, hw⟩

theorem Sound.standsAfter (h : session.Sound) (steps : List Step) :
    session.StandsAfter steps where
  answered := by
    intro s
    rw [steps_concat, after_concat]
  contains_kept := h.contains_after steps
  ask := fun _ => rfl
  outOfRange := fun _ hout => (h.after steps).step_of_outOfRange hout
  disjointness := by
    obtain ⟨connected, hconnected, -⟩ := h.represents.exists_connected h.inRange
    have hlater := hconnected
    rw [← inspection_after session steps] at hlater
    rw [step_disjointness hlater, step_disjointness hconnected, inspection_after]
  completeness := by
    intro deterministic
    rw [step_completeness, step_completeness, inspection_after]
  determinism := by rw [step_determinism, step_determinism, inspection_after]
  validate := (h.after steps).ask_validate
  run := by
    intro hreach hdet
    refine (h.after steps).runsAsParts fun w hw => ?_
    rw [automaton_after] at hw
    exact h.contains_of_exhibits hreach hdet hw

end Session

/-- The parts of an inspection can be run one at a time on a parsed automaton, among any other
steps, in any order and any number of times. -/
theorem session_stands_after {lines : List String} {automaton : Automaton} {before : Warnings}
    (h : (parse lines before).result = .ok automaton) :
    ∃ inspection, Inspection.ofAutomaton? automaton = some inspection ∧
      ∀ kept steps, Session.StandsAfter ⟨automaton, inspection, kept⟩ steps := by
  have hr : automaton.InRange := inRange_of_readAutomaton (parse_eq_ok_iff.1 h)
  obtain ⟨inspection, hof, -⟩ := Inspection.exists_ofAutomaton? hr
  refine ⟨inspection, hof, ?_⟩
  intro kept steps
  have hsound : Session.Sound ⟨automaton, inspection, kept⟩ := ⟨hr, hof⟩
  exact hsound.standsAfter steps

def forkSteps : List Step :=
  [.determinism, .warn .noAcceptingState, .reset, .determinism, .ask (.successors 7), .ask .run,
    .reachability, .determinism]

/-- A question out of range and a repeated part among the steps, and a warning from before the
reset. -/
theorem fork_stands_after :
    ∃ automaton, (parse forkLines .empty).result = .ok automaton ∧
      Inspection.ofAutomaton? automaton = some forkInspection ∧
      Session.StandsAfter ⟨automaton, forkInspection, .empty⟩ forkSteps ∧
      (Session.after ⟨automaton, forkInspection, .empty⟩ forkSteps).kept =
        Warnings.empty.insert .nondeterministic ∧
      (Session.after ⟨automaton, forkInspection, .empty⟩ forkSteps).RunsAsParts := by
  obtain ⟨automaton, h, hof⟩ := exists_parse_forkLines
  obtain ⟨inspection, hof', hall⟩ := session_stands_after h
  rw [hof] at hof'
  cases hof'
  have hstands := hall .empty forkSteps
  have hkept : (parse forkLines .empty).result.toOption.map (fun automaton =>
      (Session.after ⟨automaton, forkInspection, .empty⟩ forkSteps).kept) =
      some (Warnings.empty.insert .nondeterministic) := by
    decide +kernel
  rw [h] at hkept
  exact ⟨automaton, h, hof, hstands, Option.some.inj hkept, hstands.run (by decide) (by decide)⟩

end AutomatonCheck
