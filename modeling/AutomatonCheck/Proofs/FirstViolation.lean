import AutomatonCheck.Proofs.Acceptance

/-!
# The first violation in document order

A line can break several rules, and which of them is reported depends on the entries of
that line and on the names that the first two lines declare. `Fault` says so line by
line, without regard to the other lines. The rejection of a description is the fault of
its first line that has one; a surplus line counts only where no line has a fault.
-/
namespace AutomatonCheck

variable {lines : List String} {rejection : Rejection}

/-- What is wrong with the line of a section, if one looks at the line from left to right. -/
inductive Fault (lines : List String) : Section → Rejection → Prop
  | shape {s : Section} (h : s.Misshapen lines) : Fault lines s .malformedInput
  | stateName {found : List String} {name : String} (h : Section.states.Lists lines found)
    (hn : name ∈ found) (hw : ¬ NameKind.state.IsWord name) :
    Fault lines .states .malformedInput
  | symbolName {found : List String} {name : String} (h : Section.alphabet.Lists lines found)
    (hn : name ∈ found) (hw : ¬ NameKind.symbol.IsWord name) :
    Fault lines .alphabet .malformedInput
  | undeclaredInitial {states found : List String} {name : String}
    (hs : Section.states.Lists lines states) (h : Section.initial.Lists lines found)
    (hl : Leftmost (· ∉ states) found name) : Fault lines .initial (.undefinedState name)
  | noInitial (h : Section.initial.Lists lines []) : Fault lines .initial .noInitialState
  | severalInitial {states found : List String} {name other : String}
    (hs : Section.states.Lists lines states) (h : Section.initial.Lists lines found)
    (hd : ∀ name ∈ found, name ∈ states) (hn : name ∈ found) (ho : other ∈ found)
    (hne : name ≠ other) : Fault lines .initial .malformedInput
  | undeclaredFinal {states found : List String} {name : String}
    (hs : Section.states.Lists lines states) (h : Section.final.Lists lines found)
    (hl : Leftmost (· ∉ states) found name) : Fault lines .final (.undefinedState name)
  | transition {states symbols found : List String} {entry : String} {rejection : Rejection}
    (hs : Section.states.Lists lines states) (ha : Section.alphabet.Lists lines symbols)
    (h : Section.transitions.Lists lines found)
    (hl : Leftmost (fun entry => ∃ r, TransitionFault states symbols entry r) found entry)
    (hr : TransitionFault states symbols entry rejection) : Fault lines .transitions rejection

/-- The rejection of the first line with a fault, or that of a surplus line if no line has any. -/
def FirstViolation (lines : List String) (rejection : Rejection) : Prop :=
  (∃ s, Fault lines s rejection ∧ ∀ earlier : Section, earlier.place < s.place →
    ∀ r, ¬ Fault lines earlier r) ∨
  ((∀ s r, ¬ Fault lines s r) ∧ 5 < lines.length ∧ rejection = .malformedInput)

theorem rejects_readStates : Rejects (readStates lines) rejection ↔ Fault lines .states rejection := by
  rw [readStates, rejects_readRoster]
  constructor
  · intro h
    obtain ⟨rfl, hm | ⟨found, h, name, hn, hw⟩⟩ := h
    · exact .shape hm
    · exact .stateName h hn hw
  · intro h
    cases h with
    | shape hm => exact ⟨rfl, .inl hm⟩
    | stateName h hn hw => exact ⟨rfl, .inr ⟨_, h, _, hn, hw⟩⟩

theorem rejects_readAlphabet :
    Rejects (readAlphabet lines) rejection ↔ Fault lines .alphabet rejection := by
  rw [readAlphabet, rejects_readRoster]
  constructor
  · intro h
    obtain ⟨rfl, hm | ⟨found, h, name, hn, hw⟩⟩ := h
    · exact .shape hm
    · exact .symbolName h hn hw
  · intro h
    cases h with
    | shape hm => exact ⟨rfl, .inl hm⟩
    | symbolName h hn hw => exact ⟨rfl, .inr ⟨_, h, _, hn, hw⟩⟩

/-- The declared names are the entries of the line that declares them. -/
theorem mem_texts_of_readRoster {kind : NameKind} {s : Section} {roster : Roster kind}
    {declared : List String} (hr : readRoster kind s lines = .ok roster)
    (hd : s.Lists lines declared) (name : String) : name ∈ roster.texts ↔ name ∈ declared := by
  obtain ⟨found, hfound, -, htexts⟩ := readRoster_eq_ok_iff.1 hr
  rw [Roster.mem_texts_iff_of_eq htexts, hfound.unique hd]

theorem exists_lists_of_readRoster {kind : NameKind} {s : Section} {roster : Roster kind}
    (hr : readRoster kind s lines = .ok roster) : ∃ declared, s.Lists lines declared := by
  obtain ⟨found, hfound, -⟩ := readRoster_eq_ok_iff.1 hr
  exact ⟨found, hfound⟩

section

variable {states : Roster .state} {alphabet : Alphabet}

theorem leftmost_undeclared {declared found : List String} {name : String}
    (hs : readStates lines = .ok states) (hd : Section.states.Lists lines declared) :
    Leftmost (· ∉ states.texts) found name ↔ Leftmost (· ∉ declared) found name :=
  Leftmost.congr fun other _ => not_congr (mem_texts_of_readRoster hs hd other)

theorem rejects_readInitial_iff_fault (hs : readStates lines = .ok states) :
    Rejects (readInitial states lines) rejection ↔ Fault lines .initial rejection := by
  obtain ⟨declared, hd⟩ := exists_lists_of_readRoster hs
  rw [rejects_readInitial]
  constructor
  · intro h
    rcases h with ⟨hm, rfl⟩ | ⟨found, h, hfault⟩
    · exact .shape hm
    · rcases hfault with ⟨name, hl, rfl⟩ | ⟨rfl, rfl⟩ | ⟨hall, ⟨name, hn, other, ho, hne⟩, rfl⟩
      · exact .undeclaredInitial hd h ((leftmost_undeclared hs hd).1 hl)
      · exact .noInitial h
      · exact .severalInitial hd h
          (fun name hn => (mem_texts_of_readRoster hs hd name).1 (hall name hn)) hn ho hne
  · intro h
    cases h with
    | shape hm => exact .inl ⟨hm, rfl⟩
    | undeclaredInitial hd h hl =>
      exact .inr ⟨_, h, .inl ⟨_, (leftmost_undeclared hs hd).2 hl, rfl⟩⟩
    | noInitial h => exact .inr ⟨[], h, .inr (.inl ⟨rfl, rfl⟩)⟩
    | severalInitial hd h hall hn ho hne =>
      exact .inr ⟨_, h, .inr (.inr ⟨fun name hn => (mem_texts_of_readRoster hs hd name).2
        (hall name hn), ⟨_, hn, _, ho, hne⟩, rfl⟩)⟩

theorem rejects_readFinals_iff_fault (hs : readStates lines = .ok states) :
    Rejects (readFinals states lines) rejection ↔ Fault lines .final rejection := by
  obtain ⟨declared, hd⟩ := exists_lists_of_readRoster hs
  rw [rejects_readFinals]
  constructor
  · intro h
    rcases h with ⟨hm, rfl⟩ | ⟨found, name, h, hl, rfl⟩
    · exact .shape hm
    · exact .undeclaredFinal hd h ((leftmost_undeclared hs hd).1 hl)
  · intro h
    cases h with
    | shape hm => exact .inl ⟨hm, rfl⟩
    | undeclaredFinal hd h hl =>
      exact .inr ⟨_, _, h, (leftmost_undeclared hs hd).2 hl, rfl⟩

theorem TransitionFault.of_same_names {states others symbols symbols' : List String}
    {entry : String} (h : TransitionFault states symbols entry rejection)
    (hs : ∀ name, name ∈ states ↔ name ∈ others)
    (ha : ∀ name, name ∈ symbols ↔ name ∈ symbols') :
    TransitionFault others symbols' entry rejection := by
  cases h with
  | fields hno => exact .fields hno
  | source hj hsource => exact .source hj (by rwa [← hs])
  | symbol hj hsource hsymbol => exact .symbol hj (by rwa [← hs]) (by rwa [← ha])
  | target hj hsource hsymbol htarget =>
    exact .target hj (by rwa [← hs]) (by rwa [← ha]) (by rwa [← hs])

/-- Only whether a name is declared matters to an entry. -/
theorem transitionFault_congr {states others symbols symbols' : List String} {entry : String}
    (hs : ∀ name, name ∈ states ↔ name ∈ others)
    (ha : ∀ name, name ∈ symbols ↔ name ∈ symbols') :
    TransitionFault states symbols entry rejection ↔
      TransitionFault others symbols' entry rejection := by
  constructor
  · intro h
    exact h.of_same_names hs ha
  · intro h
    exact h.of_same_names (fun name => (hs name).symm) fun name => (ha name).symm

theorem rejects_readTransitions_iff_fault (hs : readStates lines = .ok states)
    (ha : readAlphabet lines = .ok alphabet) :
    Rejects (readTransitions states alphabet lines) rejection ↔
      Fault lines .transitions rejection := by
  obtain ⟨declared, hd⟩ := exists_lists_of_readRoster hs
  obtain ⟨symbols, hsym⟩ := exists_lists_of_readRoster ha
  have hfault (entry : String) (r : Rejection) :
      TransitionFault states.texts alphabet.texts entry r ↔
        TransitionFault declared symbols entry r :=
    transitionFault_congr (mem_texts_of_readRoster hs hd) (mem_texts_of_readRoster ha hsym)
  rw [rejects_readTransitions]
  simp only [hfault]
  constructor
  · intro h
    rcases h with ⟨hm, rfl⟩ | ⟨found, entry, h, hl, hr⟩
    · exact .shape hm
    · exact .transition hd hsym h hl hr
  · intro h
    cases h with
    | shape hm => exact .inl ⟨hm, rfl⟩
    | transition hd' hsym' h hl hr =>
      rw [hd'.unique hd, hsym'.unique hsym] at hl hr
      exact .inr ⟨_, _, h, hl, hr⟩

end

/-- A reading followed by others rejects for its own fault, or else for what comes later. -/
theorem rejects_bind_iff_fault {α β : Type} {reading : Except Violation α}
    {next : α → Except Violation β} {fault : Rejection → Prop} {later : Prop}
    (hf : ∀ r, Rejects reading r ↔ fault r)
    (hl : ∀ a, reading = .ok a → (Rejects (next a) rejection ↔ later)) :
    Rejects (reading >>= next) rejection ↔ fault rejection ∨ ((∀ r, ¬ fault r) ∧ later) := by
  rw [rejects_bind, hf]
  simp only [← hf, ← exists_ok_iff]
  cases reading with
  | ok a => simp [hl a rfl]
  | error violation => simp

theorem firstViolation_iff :
    FirstViolation lines rejection ↔
      Fault lines .states rejection ∨ ((∀ r, ¬ Fault lines .states r) ∧
      (Fault lines .alphabet rejection ∨ ((∀ r, ¬ Fault lines .alphabet r) ∧
      (Fault lines .initial rejection ∨ ((∀ r, ¬ Fault lines .initial r) ∧
      (Fault lines .final rejection ∨ ((∀ r, ¬ Fault lines .final r) ∧
      (Fault lines .transitions rejection ∨ ((∀ r, ¬ Fault lines .transitions r) ∧
      (5 < lines.length ∧ rejection = .malformedInput)))))))))) := by
  constructor
  · intro h
    rcases h with ⟨s, hf, hb⟩ | ⟨hno, hend⟩
    · have hbefore (earlier : Section) (he : earlier.place < s.place) := hb earlier he
      cases s
      · exact .inl hf
      · exact .inr ⟨hbefore .states (by decide), .inl hf⟩
      · exact .inr ⟨hbefore .states (by decide), .inr ⟨hbefore .alphabet (by decide), .inl hf⟩⟩
      · exact .inr ⟨hbefore .states (by decide), .inr ⟨hbefore .alphabet (by decide),
          .inr ⟨hbefore .initial (by decide), .inl hf⟩⟩⟩
      · exact .inr ⟨hbefore .states (by decide), .inr ⟨hbefore .alphabet (by decide),
          .inr ⟨hbefore .initial (by decide), .inr ⟨hbefore .final (by decide), .inl hf⟩⟩⟩⟩
    · exact .inr ⟨hno _, .inr ⟨hno _, .inr ⟨hno _, .inr ⟨hno _, .inr ⟨hno _, hend⟩⟩⟩⟩⟩
  · intro h
    rcases h with h | ⟨hs, h | ⟨ha, h | ⟨hi, h | ⟨hf, h | ⟨ht, hend⟩⟩⟩⟩⟩
    · refine .inl ⟨.states, h, fun earlier he => ?_⟩
      cases earlier <;> simp [Section.place] at he
    · refine .inl ⟨.alphabet, h, fun earlier he => ?_⟩
      cases earlier <;> simp [Section.place] at he
      exact hs
    · refine .inl ⟨.initial, h, fun earlier he => ?_⟩
      cases earlier <;> simp [Section.place] at he
      · exact hs
      · exact ha
    · refine .inl ⟨.final, h, fun earlier he => ?_⟩
      cases earlier <;> simp [Section.place] at he
      · exact hs
      · exact ha
      · exact hi
    · refine .inl ⟨.transitions, h, fun earlier he => ?_⟩
      cases earlier <;> simp [Section.place] at he
      · exact hs
      · exact ha
      · exact hi
      · exact hf
    · refine .inr ⟨fun s => ?_, hend⟩
      cases s
      · exact hs
      · exact ha
      · exact hi
      · exact hf
      · exact ht

/-- The readers reject for the first violation and for nothing else. -/
theorem rejects_readAutomaton : Rejects (readAutomaton lines) rejection ↔
    FirstViolation lines rejection := by
  rw [firstViolation_iff]
  unfold readAutomaton
  refine rejects_bind_iff_fault (fun r => rejects_readStates) fun states hs => ?_
  refine rejects_bind_iff_fault (fun r => rejects_readAlphabet) fun alphabet ha => ?_
  refine rejects_bind_iff_fault (fun r => rejects_readInitial_iff_fault hs) fun initial _ => ?_
  refine rejects_bind_iff_fault (fun r => rejects_readFinals_iff_fault hs) fun finals _ => ?_
  refine rejects_bind_iff_fault (fun r => rejects_readTransitions_iff_fault hs ha)
    fun transitions _ => ?_
  rw [rejects_bind, rejects_readEnd]
  constructor
  · intro h
    rcases h with h | ⟨_, -, h⟩
    · exact h
    · exact absurd h (not_rejects_ok _ _)
  · exact .inl

/-- Parsing fails exactly with the first violation in document order, whatever else is violated. -/
theorem parse_reports_first_violation (lines : List String) (warnings : Warnings) (stop : Stop) :
    (parse lines warnings).result = .error stop ↔
      ∃ rejection, stop = .rejected rejection ∧ FirstViolation lines rejection := by
  rw [parse_result, resultOf_eq_error_iff]
  simp only [rejects_readAutomaton]

end AutomatonCheck
