import AutomatonCheck.Command.Run
import AutomatonCheck.Proofs.AccessRange

/-!
# Runs on any host

A run relies on little in its host: opening an input changes nothing, an output that cannot be
created is left alone, and notes are kept apart from all else. On such a host a run opens its
input and reads it to the end before it does anything else, and fails with nothing changed if it
cannot. What was read settles the outcome, only then is the output created, and the text of the
outcome is the one thing that is written. None of this depends on how arguments are read.
-/
namespace AutomatonCheck

variable {σ Sink : Type}

namespace Host

theorem bind_apply {α β : Type} (action : StateM σ α) (next : α → StateM σ β) (s : σ) :
    (action >>= next) s = next (action s).1 (action s).2 := rfl

/-- What a run relies on in a host, given how notes are added to its state. -/
structure Lawful (host : Host (StateM σ) Sink) (noting : σ → List String → σ) : Prop where
  openInput_keeps : ∀ input s, (host.openInput input s).2 = s
  createOutput_keeps : ∀ output s,
    (host.createOutput output s).1 = none → (host.createOutput output s).2 = s
  note_eq : ∀ text s, host.note text s = ((), noting s [text])
  noting_nil : ∀ s, noting s [] = s
  noting_append : ∀ s texts more, noting s (texts ++ more) = noting (noting s texts) more
  createOutput_noting : ∀ output s texts, host.createOutput output (noting s texts) =
    ((host.createOutput output s).1, noting (host.createOutput output s).2 texts)
  append_noting : ∀ sink text s texts, host.append sink text (noting s texts) =
    ((host.append sink text s).1, noting (host.append sink text s).2 texts)

/-- Write a text to a created output. -/
def write (host : Host (StateM σ) Sink) (sink : Sink) (text : String) (s : σ) : Exit × σ :=
  (if (host.append sink text s).1 then .success else .failure, (host.append sink text s).2)

variable {host : Host (StateM σ) Sink} {noting : σ → List String → σ} {output : Endpoint}
  {sink : Sink} {text : String} {s : σ}

theorem deliver_of_some (h : (host.createOutput output s).1 = some sink) :
    deliver host output text s = host.write sink text (host.createOutput output s).2 := by
  rw [deliver, bind_apply, h]
  dsimp only
  rw [bind_apply, write]
  cases (host.append sink text (host.createOutput output s).2).1 <;> rfl

namespace Lawful

variable (laws : host.Lawful noting)

include laws

theorem deliver_of_none (h : (host.createOutput output s).1 = none) :
    deliver host output text s = (.failure, s) := by
  rw [deliver, bind_apply, h, laws.createOutput_keeps output s h]
  rfl

theorem write_noting (texts : List String) : host.write sink text (noting s texts) =
    ((host.write sink text s).1, noting (host.write sink text s).2 texts) := by
  simp only [write, laws.append_noting]

/-- Notes taken before have no influence on what is delivered. -/
theorem deliver_noting (texts : List String) : deliver host output text (noting s texts) =
    ((deliver host output text s).1, noting (deliver host output text s).2 texts) := by
  have hnoting := laws.createOutput_noting output s texts
  cases hcreate : (host.createOutput output s).1 with
  | none =>
    rw [laws.deliver_of_none hcreate, laws.deliver_of_none (by rw [hnoting, hcreate])]
  | some sink =>
    rw [deliver_of_some hcreate, deliver_of_some (by rw [hnoting, hcreate]), hnoting,
      laws.write_noting]

theorem forM_note_apply (texts : List String) (s : σ) :
    texts.forM host.note s = ((), noting s texts) := by
  induction texts generalizing s with
  | nil =>
    rw [laws.noting_nil]
    rfl
  | cons text texts ih =>
    rw [List.forM_eq_forM, List.forM_cons, bind_apply, laws.note_eq, ← List.forM_eq_forM, ih,
      ← laws.noting_append, List.singleton_append]

variable {invocation : Invocation}

theorem run_of_unread (h : (host.openInput invocation.input s).1.bind readLines? = none) :
    invocation.run host s = (.failure, s) := by
  rw [Invocation.run, bind_apply, h, laws.openInput_keeps]
  rfl

/-- What was read is checked, and the text of the outcome is delivered. -/
theorem run_of_read {lines : List String} {outcome : Outcome}
    (h : (host.openInput invocation.input s).1.bind readLines? = some lines)
    (hout : Outcome.ofResult? (check lines).result = some outcome) :
    invocation.run host s =
      ((deliver host invocation.output outcome.render s).1,
        noting (deliver host invocation.output outcome.render s).2
          (notes invocation.verbosity (check lines).events)) := by
  rw [Invocation.run, bind_apply, h, laws.openInput_keeps]
  simp only [hout]
  rw [bind_apply, laws.forM_note_apply, laws.deliver_noting]

/-- A run of the command whose arguments are read in any way: without lines it fails and leaves the
host as it was, and with lines it writes the text of their outcome to the output that it then
creates, if it can. Arguments with the same input and output make no difference but to the notes. -/
theorem run_in_order {read : List String → Except UsageError Request} {arguments : List String}
    (h : read arguments = .ok (.check invocation)) (s : σ) :
    ((host.openInput invocation.input s).1.bind readLines? = none →
      runCommandWith read host arguments s = (.failure, s)) ∧
    (∀ lines, (host.openInput invocation.input s).1.bind readLines? = some lines →
      ∃ outcome, Outcome.ofResult? (check lines).result = some outcome ∧
        ((host.createOutput invocation.output s).1 = none →
          ∃ texts, runCommandWith read host arguments s = (.failure, noting s texts)) ∧
        ∀ sink, (host.createOutput invocation.output s).1 = some sink →
          ∃ texts, runCommandWith read host arguments s =
            ((host.write sink outcome.render (host.createOutput invocation.output s).2).1,
              noting (host.write sink outcome.render (host.createOutput invocation.output s).2).2
                texts)) ∧
    ∀ others other, read others = .ok (.check other) → other.input = invocation.input →
      other.output = invocation.output → ∃ exit after texts texts',
        runCommandWith read host arguments s = (exit, noting after texts) ∧
          runCommandWith read host others s = (exit, noting after texts') := by
  have hrun {words : List String} {request : Invocation}
      (hwords : read words = .ok (.check request)) :
      runCommandWith read host words = request.run host := by
    simp only [runCommandWith, hwords]
  rw [hrun h]
  refine ⟨laws.run_of_unread, ?_, ?_⟩
  · intro lines hlines
    obtain ⟨outcome, hout⟩ := exists_outcome_iff.2 (check_ne_outOfRange lines)
    rw [laws.run_of_read hlines hout]
    refine ⟨outcome, hout, ?_, ?_⟩
    · intro hcreate
      rw [laws.deliver_of_none hcreate]
      exact ⟨_, rfl⟩
    · intro sink hcreate
      rw [deliver_of_some hcreate]
      exact ⟨_, rfl⟩
  · intro others other hothers hinput houtput
    rw [hrun hothers]
    cases hlines : (host.openInput invocation.input s).1.bind readLines? with
    | none =>
      rw [laws.run_of_unread hlines, laws.run_of_unread (by rw [hinput, hlines])]
      refine ⟨.failure, s, [], [], ?_, ?_⟩
      · rw [laws.noting_nil]
      · rw [laws.noting_nil]
    | some lines =>
      obtain ⟨outcome, hout⟩ := exists_outcome_iff.2 (check_ne_outOfRange lines)
      rw [laws.run_of_read hlines hout, laws.run_of_read (by rw [hinput, hlines]) hout, houtput]
      exact ⟨_, _, _, _, rfl, rfl⟩

end Lawful

end Host

end AutomatonCheck
