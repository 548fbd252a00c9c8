import AutomatonCheck.Proofs.Acceptance

/-!
# What a section can be rejected for

Each reader fails only with a violation that its own section's line can give rise to: a
malformed line is reported under its own section, no name is undefined where names are
declared, and only an initial state can be missing. What is left for a description as a
whole is a line too many.
-/
namespace AutomatonCheck

variable {α β : Type} {lines : List String}

/-- A violation that the line of a section can give rise to. -/
def Violation.Concerns (s : Section) : Violation → Prop
  | .malformed found _ => found = s
  | .undefinedState _ => s = .initial ∨ s = .final ∨ s = .transitions
  | .undefinedSymbol _ => s = .transitions
  | .noInitialState => s = .initial
  | .surplusLine => False

/-- A reading fails only with violations that are allowed. -/
def FailsOnly (allowed : Violation → Prop) (reading : Except Violation α) : Prop :=
  ∀ violation, reading = .error violation → allowed violation

namespace FailsOnly

variable {allowed : Violation → Prop}

theorem ok (a : α) : FailsOnly allowed (.ok a) := by
  intro violation h
  cases h

theorem error {violation : Violation} (h : allowed violation) :
    FailsOnly allowed (.error violation : Except Violation α) := by
  intro found heq
  cases heq
  exact h

theorem mono {more : Violation → Prop} {reading : Except Violation α}
    (h : FailsOnly allowed reading) (hmore : ∀ violation, allowed violation → more violation) :
    FailsOnly more reading :=
  fun violation herror => hmore violation (h violation herror)

theorem bind {reading : Except Violation α} {next : α → Except Violation β}
    (h : FailsOnly allowed reading) (hn : ∀ a, FailsOnly allowed (next a)) :
    FailsOnly allowed (reading >>= next) := by
  cases reading with
  | error violation => exact error (h violation rfl)
  | ok a => exact hn a

theorem mapM {read : α → Except Violation β} (h : ∀ x, FailsOnly allowed (read x))
    (xs : List α) : FailsOnly allowed (xs.mapM read) := by
  induction xs with
  | nil => exact ok []
  | cons x xs ih =>
    rw [List.mapM_cons]
    exact (h x).bind fun y => ih.bind fun ys => ok (y :: ys)

end FailsOnly

open Violation (Concerns)

section Readers

variable {s : Section}

theorem read_failsOnly (s : Section) (lines : List String) :
    FailsOnly (Concerns s) (s.read lines) := by
  unfold Section.read
  split
  · exact .error rfl
  split
  · exact .error rfl
  · exact .ok _

theorem readRoster_failsOnly (kind : NameKind) (s : Section) (lines : List String) :
    FailsOnly (Concerns s) (readRoster kind s lines) := by
  have hname : ∀ entry, FailsOnly (Concerns s) (readName kind s entry) := by
    intro entry
    unfold readName
    split
    · exact .ok _
    · exact .error rfl
  exact (read_failsOnly s lines).bind fun found =>
    (FailsOnly.mapM hname found).bind fun names => .ok _

theorem resolveState_failsOnly (hs : s = .initial ∨ s = .final ∨ s = .transitions)
    (states : Roster .state) (name : String) :
    FailsOnly (Concerns s) (resolveState states name) := by
  unfold resolveState
  split
  · exact .ok _
  · exact .error hs

theorem readStateList_failsOnly (hs : s = .initial ∨ s = .final ∨ s = .transitions)
    (states : Roster .state) (lines : List String) :
    FailsOnly (Concerns s) (readStateList s states lines) :=
  (read_failsOnly s lines).bind fun found => .mapM (resolveState_failsOnly hs states) found

theorem readInitial_failsOnly (states : Roster .state) (lines : List String) :
    FailsOnly (Concerns .initial) (readInitial states lines) := by
  refine (readStateList_failsOnly (.inl rfl) states lines).bind fun named => ?_
  unfold soleInitial
  split
  · exact .error rfl
  · exact .ok _
  · exact .error rfl

theorem readFinals_failsOnly (states : Roster .state) (lines : List String) :
    FailsOnly (Concerns .final) (readFinals states lines) :=
  (readStateList_failsOnly (.inr (.inl rfl)) states lines).bind fun _ => .ok _

theorem readTransition_failsOnly (states : Roster .state) (alphabet : Alphabet)
    (entry : String) : FailsOnly (Concerns .transitions) (readTransition states alphabet entry) := by
  have hstate : ∀ name, FailsOnly (Concerns .transitions) (resolveState states name) :=
    resolveState_failsOnly (.inr (.inr rfl)) states
  have hsymbol : ∀ name, FailsOnly (Concerns .transitions) (resolveSymbol alphabet name) := by
    intro name
    unfold resolveSymbol
    split
    · exact .ok _
    · exact .error rfl
  unfold readTransition
  split
  · next source symbol target _ =>
    exact (hstate source).bind fun q => (hsymbol symbol).bind fun a =>
      (hstate target).bind fun p => .ok _
  · exact .error rfl

theorem readTransitions_failsOnly (states : Roster .state) (alphabet : Alphabet)
    (lines : List String) :
    FailsOnly (Concerns .transitions) (readTransitions states alphabet lines) :=
  (read_failsOnly .transitions lines).bind fun found =>
    .mapM (readTransition_failsOnly states alphabet) found

end Readers

/-- A description is rejected for one of its sections or for a line too many. -/
theorem readAutomaton_failsOnly (lines : List String) :
    FailsOnly (fun violation => (∃ s, violation.Concerns s) ∨
      violation = .surplusLine ∧ lineCount < lines.length) (readAutomaton lines) := by
  unfold readAutomaton
  refine FailsOnly.bind ?_ fun states => ?_
  · exact (readRoster_failsOnly .state .states lines).mono fun _ h => .inl ⟨_, h⟩
  refine FailsOnly.bind ?_ fun alphabet => ?_
  · exact (readRoster_failsOnly .symbol .alphabet lines).mono fun _ h => .inl ⟨_, h⟩
  refine FailsOnly.bind ?_ fun initial => ?_
  · exact (readInitial_failsOnly states lines).mono fun _ h => .inl ⟨_, h⟩
  refine FailsOnly.bind ?_ fun finals => ?_
  · exact (readFinals_failsOnly states lines).mono fun _ h => .inl ⟨_, h⟩
  refine FailsOnly.bind ?_ fun transitions => ?_
  · exact (readTransitions_failsOnly states alphabet lines).mono fun _ h => .inl ⟨_, h⟩
  refine FailsOnly.bind ?_ fun _ => .ok _
  unfold readEnd
  split
  · next h => exact .error (.inr ⟨rfl, h⟩)
  · exact .ok ()

theorem lineCount_lt_of_surplusLine (h : readAutomaton lines = .error .surplusLine) :
    lineCount < lines.length := by
  rcases readAutomaton_failsOnly lines .surplusLine h with ⟨s, hs⟩ | ⟨-, hlength⟩
  · exact hs.elim
  · exact hlength

end AutomatonCheck
