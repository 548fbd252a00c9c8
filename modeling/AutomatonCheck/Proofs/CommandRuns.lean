import AutomatonCheck.Command.Volume
import AutomatonCheck.Proofs.HostRuns

/-!
# Runs of the command

A machine is a host on which runs go in order. If the input cannot be opened or reading it
fails, the run fails and leaves the machine as it was. All other runs come to an outcome,
and if the output can be created, its text is all that the output holds then and, notes
apart, all that has changed. The outcome was known before the output was emptied, so that
may even have been the input.
-/
namespace AutomatonCheck

namespace Volume

variable {volume : Volume} {place other : Place} {bytes : List UInt8}

theorem entryAt?_store_self (hplace : place ≠ []) :
    (volume.store place bytes).entryAt? place = some (.file bytes .finished true) := by
  rw [entryAt?, if_neg hplace]
  simp [store]

theorem lookup_filter_of_ne (entries : List (Place × Entry)) (hne : other ≠ place) :
    (entries.filter fun entry => entry.1 != place).lookup other = entries.lookup other := by
  have hskip : (other == place) = false := by simpa using hne
  induction entries with
  | nil => rfl
  | cons entry entries ih =>
    obtain ⟨spot, found⟩ := entry
    by_cases hspot : spot = place
    · simp [List.lookup_cons, hspot, hskip, ih]
    · simp [List.lookup_cons, hspot, ih]

theorem entryAt?_store_of_ne (hne : other ≠ place) :
    (volume.store place bytes).entryAt? other = volume.entryAt? other := by
  have hskip : (other == place) = false := by simpa using hne
  simp only [entryAt?, store, List.lookup_cons, hskip, lookup_filter_of_ne _ hne]

theorem bytesAt_store_self (hplace : place ≠ []) :
    (volume.store place bytes).bytesAt place = bytes := by
  rw [bytesAt, entryAt?_store_self hplace]

/-- The root is a folder, and no file takes its place. -/
theorem ne_nil_of_canCreate (h : volume.canCreate place = true) : place ≠ [] := by
  rintro rfl
  simp [canCreate, entryAt?] at h

end Volume

namespace Machine

variable {machine after : Machine} {output : Endpoint} {sink : Sink} {text : String}

/-- What an output holds after a text was written to it, and that nothing else has changed besides
the notes: the text follows on the standard output, or it is the whole content of a file. -/
inductive Receives (machine after : Machine) : Endpoint → String → Prop
  | standard {text : String} (houtput : after.output = machine.output ++ Utf8.encode text.toList)
    (hfiles : ∀ place, after.volume.entryAt? place = machine.volume.entryAt? place) :
    Receives machine after .standard text
  | file {path text : String} {place : Place}
    (hplace : machine.volume.placeOf? machine.home path = some place)
    (hfile : after.volume.entryAt? place = some (.file (Utf8.encode text.toList) .finished true))
    (hfiles : ∀ other, other ≠ place →
      after.volume.entryAt? other = machine.volume.entryAt? other)
    (houtput : after.output = machine.output) : Receives machine after (.file path) text

theorem creatable?_eq_some_iff {path : String} {place : Place} :
    machine.creatable? path = some place ↔
      machine.volume.placeOf? machine.home path = some place ∧
        machine.volume.canCreate place = true := by
  simp [creatable?, Option.filter_eq_some_iff]

theorem receives_of_createOutput (h : machine.createOutput output = (some sink, after)) :
    machine.Receives (after.append sink text) output text := by
  cases output with
  | standard =>
    obtain ⟨rfl, rfl⟩ : sink = .standard ∧ after = machine := by
      simpa [createOutput, eq_comm] using h
    exact .standard rfl fun _ => rfl
  | file path =>
    unfold createOutput at h
    cases hplace : machine.creatable? path with
    | none => simp [hplace] at h
    | some place =>
      simp only [hplace, Prod.mk.injEq, Option.some.injEq] at h
      obtain ⟨rfl, rfl⟩ := h
      obtain ⟨hplaceOf, hcreate⟩ := creatable?_eq_some_iff.1 hplace
      have hne : place ≠ [] := Volume.ne_nil_of_canCreate hcreate
      refine .file hplaceOf ?_ ?_ rfl
      · simp only [append, Volume.bytesAt_store_self hne, List.nil_append]
        exact Volume.entryAt?_store_self hne
      · intro other hother
        simp only [append, Volume.entryAt?_store_of_ne hother]

/-- The machine with more notes. -/
def noting (machine : Machine) (texts : List String) : Machine :=
  { machine with notes := machine.notes ++ texts }

theorem createOutput_keeps (h : (machine.createOutput output).1 = none) :
    (machine.createOutput output).2 = machine := by
  cases output with
  | standard => cases h
  | file path =>
    cases hplace : machine.creatable? path with
    | none => simp only [createOutput, hplace]
    | some place => simp [createOutput, hplace] at h

theorem createOutput_noting (machine : Machine) (output : Endpoint) (texts : List String) :
    (machine.noting texts).createOutput output =
      ((machine.createOutput output).1, (machine.createOutput output).2.noting texts) := by
  cases output with
  | standard => rfl
  | file path =>
    simp only [createOutput]
    rw [show (machine.noting texts).creatable? path = machine.creatable? path from rfl]
    cases machine.creatable? path with
    | none => rfl
    | some place => rfl

theorem host_lawful : host.Lawful noting where
  openInput_keeps := fun _ _ => rfl
  createOutput_keeps := fun _ _ h => createOutput_keeps h
  note_eq := fun _ _ => rfl
  noting_nil := by
    intro machine
    simp [noting]
  noting_append := by
    intro machine texts more
    simp [noting]
  createOutput_noting := fun output machine texts => machine.createOutput_noting output texts
  append_noting := by
    intro sink text machine texts
    cases sink <;> rfl

theorem Receives.noting (h : machine.Receives after output text) (texts : List String) :
    machine.Receives (after.noting texts) output text := by
  cases h with
  | standard houtput hfiles => exact .standard houtput hfiles
  | file hplace hfile hfiles houtput => exact .file hplace hfile hfiles houtput

end Machine

/-- A run whose input cannot be opened or read fails and leaves the machine as it was. Every other
run has an outcome. It succeeds if the output can be created, and the output receives the text of
the outcome; otherwise it fails and leaves all but the notes as they were. The verbosity makes no
difference but to the notes. -/
theorem run_delivers_outcome {arguments : List String} {invocation : Invocation}
    (h : Request.ofArguments arguments = .ok (.check invocation)) (machine : Machine) :
    (machine.openInput invocation.input = none ∨
        (∃ source, machine.openInput invocation.input = some source ∧ readLines? source = none) →
      machine.run arguments = (.failure, machine)) ∧
    (∀ source lines, machine.openInput invocation.input = some source →
      readLines? source = some lines →
        ∃ outcome, Outcome.ofResult? (check lines).result = some outcome ∧
          ((machine.createOutput invocation.output).1.isSome = true →
            (machine.run arguments).1 = .success ∧
              machine.Receives (machine.run arguments).2 invocation.output outcome.render) ∧
          ((machine.createOutput invocation.output).1 = none →
            ∃ texts, machine.run arguments = (.failure, machine.noting texts))) ∧
    ∀ others other, Request.ofArguments others = .ok (.check other) →
      other.input = invocation.input → other.output = invocation.output →
        ∃ texts, machine.run others =
          ((machine.run arguments).1, { (machine.run arguments).2 with notes := texts }) := by
  have hmachine (words : List String) :
      machine.run words = runCommandWith Request.ofArguments Machine.host words machine := rfl
  obtain ⟨hunread, hread, hsame⟩ := Machine.host_lawful.run_in_order h machine
  simp only [hmachine]
  refine ⟨?_, ?_, ?_⟩
  · intro hfails
    apply hunread
    show (machine.openInput invocation.input).bind readLines? = none
    rcases hfails with hopen | ⟨source, hopen, hlines⟩
    · rw [hopen, Option.bind_none]
    · rw [hopen, Option.bind_some, hlines]
  · intro source lines hopen hlines
    have hbind : (machine.openInput invocation.input).bind readLines? = some lines := by
      rw [hopen, Option.bind_some, hlines]
    obtain ⟨outcome, hout, hnone, hsome⟩ := hread lines hbind
    refine ⟨outcome, hout, ?_, hnone⟩
    intro hcreate
    obtain ⟨sink, hsink⟩ := Option.isSome_iff_exists.1 hcreate
    obtain ⟨texts, hrun⟩ := hsome sink hsink
    rw [hrun]
    exact ⟨rfl, (Machine.receives_of_createOutput (Prod.ext hsink rfl)).noting texts⟩
  · intro others other hothers hinput houtput
    obtain ⟨exit, after, texts, texts', hrun, hrun'⟩ := hsame others other hothers hinput houtput
    rw [hrun, hrun']
    exact ⟨_, rfl⟩

/-- A home folder with the lamp and an old result in it. -/
def lampMachine : Machine where
  volume := .furnished ["home"] [("fsa.txt", Utf8.encode ("\n".intercalate lampLines).toList),
    ("old.txt", [1, 2, 3])] []
  home := ["home"]
  input := .ofBytes []
  output := []
  notes := []

/-- The lamp is checked in place, and a lamp that is missing leaves the old result. -/
theorem lamp_delivers_outcome :
    (∃ outcome, Outcome.ofResult? (check lampLines).result = some outcome ∧
      (lampMachine.run ["fsa.txt", "-ofsa.txt", "-v=trace"]).1 = .success ∧
      lampMachine.Receives (lampMachine.run ["fsa.txt", "-ofsa.txt", "-v=trace"]).2
        (.file "fsa.txt") outcome.render) ∧
    lampMachine.run ["lamp.txt", "--output", "old.txt"] = (.failure, lampMachine) := by
  have hplace : Request.ofArguments ["fsa.txt", "-ofsa.txt", "-v=trace"] =
      .ok (.check ⟨.file "fsa.txt", .file "fsa.txt", .trace⟩) := by decide +kernel
  have hmissing : Request.ofArguments ["lamp.txt", "--output", "old.txt"] =
      .ok (.check ⟨.file "lamp.txt", .file "old.txt", .info⟩) := by decide +kernel
  have hopen : lampMachine.openInput (.file "fsa.txt") =
      some (.ofBytes (Utf8.encode ("\n".intercalate lampLines).toList)) := by decide +kernel
  have hread : readLines? (.ofBytes (Utf8.encode ("\n".intercalate lampLines).toList)) =
      some lampLines := by decide +kernel
  obtain ⟨outcome, hout, hcreate, -⟩ :=
    (run_delivers_outcome hplace lampMachine).2.1 _ _ hopen hread
  exact ⟨⟨outcome, hout, hcreate (by decide +kernel)⟩,
    (run_delivers_outcome hmissing lampMachine).1 (.inl (by decide +kernel))⟩

end AutomatonCheck
