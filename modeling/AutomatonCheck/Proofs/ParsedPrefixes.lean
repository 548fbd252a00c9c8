import AutomatonCheck.Proofs.CheckOutcome
import AutomatonCheck.Proofs.FirstViolation

/-!
# What follows a violation

The parser reads line after line and ends in the first line with a fault. What it leaves
behind is decided by the lines up to this one, whatever is in the others and however
many there are. A description that is parsed has five lines: with more of them the
parser goes as far as without, and with fewer it ends where a line is missing.
-/
namespace AutomatonCheck

variable {lines lines' : List String} {s : Section} {rejection : Rejection}
  {automaton : Automaton} {before : Warnings}

/-- The line of the section is there, and it is the first line with a fault. -/
structure FailsIn (lines : List String) (s : Section) (rejection : Rejection) : Prop where
  present : s.place < lines.length
  fault : Fault lines s rejection
  first : ∀ earlier : Section, earlier.place < s.place → ∀ r, ¬ Fault lines earlier r

theorem Section.place_lt (s : Section) : s.place < 5 := by
  cases s <;> decide

theorem Section.eq_of_place_eq {e : Section} (h : e.place = s.place) : e = s := by
  revert h
  cases e <;> cases s <;> decide

theorem parse_eq_rejected_iff : (parse lines before).result = .error (.rejected rejection) ↔
    FirstViolation lines rejection := by
  rw [parse_result, resultOf_eq_error_iff, ← rejects_readAutomaton]
  simp

namespace Fault

/-- A line that can be read is not one with a fault. -/
theorem place_lt {α : Type} {reading : Except Violation α} {a : α} {e : Section}
    (hf : Fault lines s rejection) (he : e.place ≤ s.place) (hok : reading = .ok a)
    (hr : ∀ r, Rejects reading r ↔ Fault lines e r) : e.place < s.place := by
  apply Nat.lt_of_le_of_ne he
  intro hplace
  rw [← Section.eq_of_place_eq hplace, ← hr, hok] at hf
  exact not_rejects_ok _ _ hf

/-- What is wrong with a missing line is that it is missing. -/
theorem of_missing (hf : Fault lines s rejection) (hmissing : lines.length ≤ s.place) :
    rejection = .malformedInput := by
  have hnone : ∀ found, ¬ s.Lists lines found := by
    intro found hfound
    obtain ⟨line, hline, -⟩ := hfound
    rw [List.getElem?_eq_none hmissing] at hline
    cases hline
  cases hf with
  | shape _ => rfl
  | stateName _ _ _ => rfl
  | symbolName _ _ _ => rfl
  | severalInitial _ _ _ _ _ _ => rfl
  | undeclaredInitial _ h _ => exact absurd h (hnone _)
  | noInitial h => exact absurd h (hnone _)
  | undeclaredFinal _ h _ => exact absurd h (hnone _)
  | transition _ _ h _ _ => exact absurd h (hnone _)

end Fault

namespace Stage

variable {α β : Type}

/-- Stages that accept the same reading go on in the same way if they do so with its value. -/
theorem accept_bind_congr {reading reading' : Except Violation α} {next next' : α → Stage β}
    (hr : reading' = reading) (hn : ∀ a, reading = .ok a → next' a = next a) :
    (accept reading' >>= next') = (accept reading >>= next) := by
  rw [hr]
  cases reading with
  | ok a => exact hn a rfl
  | error violation => rw [accept_error_bind, accept_error_bind]

end Stage

/-- The lines after one with a fault are not read: as long as the readers succeed, the line with the
fault is still to come. -/
theorem parse_of_same_lines (hf : Fault lines s rejection)
    (hsame : ∀ e : Section, e.place ≤ s.place → lines'[e.place]? = lines[e.place]?) :
    parse lines' = parse lines := by
  have hread : ∀ e : Section, e.place ≤ s.place → e.read lines' = e.read lines :=
    fun e he => Section.read_of_same_line (hsame e he)
  have hle : Section.states.place ≤ s.place := Nat.zero_le _
  unfold parse
  apply Stage.accept_bind_congr
  · rw [readStates, readStates, readRoster, readRoster, hread .states hle]
  intro states hs
  have hle : Section.alphabet.place ≤ s.place := hf.place_lt hle hs fun _ => rejects_readStates
  apply bind_congr
  intro _
  apply Stage.accept_bind_congr
  · rw [readAlphabet, readAlphabet, readRoster, readRoster, hread .alphabet hle]
  intro alphabet ha
  have hle : Section.initial.place ≤ s.place := hf.place_lt hle ha fun _ => rejects_readAlphabet
  apply bind_congr
  intro _
  apply Stage.accept_bind_congr
  · rw [readInitial, readInitial, readStateList, readStateList, hread .initial hle]
  intro initial hi
  have hle : Section.final.place ≤ s.place :=
    hf.place_lt hle hi fun _ => rejects_readInitial_iff_fault hs
  apply Stage.accept_bind_congr
  · rw [readFinals, readFinals, readStateList, readStateList, hread .final hle]
  intro finals hfinals
  have hle : Section.transitions.place ≤ s.place :=
    hf.place_lt hle hfinals fun _ => rejects_readFinals_iff_fault hs
  apply bind_congr
  intro _
  apply bind_congr
  intro _
  apply Stage.accept_bind_congr
  · rw [readTransitions, readTransitions, hread .transitions hle]
  intro transitions ht
  have hlt : Section.transitions.place < s.place :=
    hf.place_lt hle ht fun _ => rejects_readTransitions_iff_fault hs ha
  exact absurd s.place_lt (Nat.not_lt.2 hlt)

/-- Lines after the last section are noticed when all else has been read. -/
theorem parse_append (h : readAutomaton lines = .ok automaton) {more : List String}
    (hmore : more ≠ []) : parse (lines ++ more) =
      (automaton.announce >>= fun _ => Stage.accept (.error .surplusLine)) := by
  have hlength : lines.length = 5 := length_of_readAutomaton h
  have hread : ∀ s : Section, s.read (lines ++ more) = s.read lines := by
    intro s
    apply Section.read_of_same_line
    apply List.getElem?_append_left
    rw [hlength]
    exact s.place_lt
  have hend : readEnd (lines ++ more) = .error .surplusLine := by
    rw [readEnd, if_pos]
    rw [List.length_append, hlength]
    exact Nat.lt_add_of_pos_right (List.length_pos_of_ne_nil hmore)
  obtain ⟨hs, ha, hi, hf, ht, -⟩ := readAutomaton_eq_ok_iff.1 h
  have hs' : readStates (lines ++ more) = .ok automaton.states := by
    simpa only [readStates, readRoster, hread] using hs
  have ha' : readAlphabet (lines ++ more) = .ok automaton.alphabet := by
    simpa only [readAlphabet, readRoster, hread] using ha
  have hi' : readInitial automaton.states (lines ++ more) = .ok automaton.initial := by
    simpa only [readInitial, readStateList, hread] using hi
  have hf' : readFinals automaton.states (lines ++ more) = .ok automaton.finals := by
    simpa only [readFinals, readStateList, hread] using hf
  have ht' : readTransitions automaton.states automaton.alphabet (lines ++ more) =
      .ok automaton.transitions := by
    simpa only [readTransitions, hread] using ht
  simp only [parse, Automaton.announce, hs', ha', hi', hf', ht', hend, Stage.accept_ok, pure_bind,
    bind_assoc, Stage.accept_error_bind]

/-- Lines that are parsed together fail without the last of them, and only since it is missing. -/
theorem parse_prefix (h : readAutomaton lines = .ok automaton) {front : List String}
    (hfront : front <+: lines) (hne : front ≠ lines) (before : Warnings) :
    (parse front before).result = .error (.rejected .malformedInput) := by
  obtain ⟨rest, rfl⟩ := hfront
  have hrest : rest ≠ [] := by
    rintro rfl
    exact hne (List.append_nil front).symm
  have hlength : (front ++ rest).length = 5 := length_of_readAutomaton h
  have hpos : 0 < rest.length := List.length_pos_of_ne_nil hrest
  rw [List.length_append] at hlength
  cases hparse : (parse front before).result with
  | ok short =>
    have hshort : front.length = 5 := length_of_readAutomaton (parse_eq_ok_iff.1 hparse)
    omega
  | error stop =>
    rw [parse_result, resultOf_eq_error_iff] at hparse
    obtain ⟨rejection, rfl, hrejects⟩ := hparse
    rcases rejects_readAutomaton.1 hrejects with ⟨s, hf, hfirst⟩ | ⟨-, hlong, -⟩
    · by_cases hs : s.place < front.length
      · have hsame : parse (front ++ rest) = parse front :=
          parse_of_same_lines hf fun e he => List.getElem?_append_left (by omega)
        have hok : (parse front before).result = .ok automaton := by
          rw [← hsame]
          exact parse_eq_ok_iff.2 h
        rw [parse_eq_rejected_iff.2 (.inl ⟨s, hf, hfirst⟩)] at hok
        cases hok
      · rw [hf.of_missing (Nat.le_of_not_lt hs)]
    · omega

/-- Where parsing fails in a line, the lines up to this one decide all that it leaves behind, and of
five lines one is to blame. Where it succeeds, it fails with any line more or less, and a line more
is noticed after everything else. -/
theorem parse_decided_by_prefix (lines : List String) (before : Warnings) :
    (∀ s rejection, FailsIn lines s rejection →
      (parse lines before).result = .error (.rejected rejection) ∧
      ∀ more, parse (lines.take (s.place + 1) ++ more) before = parse lines before) ∧
    (∀ rejection, (parse lines before).result = .error (.rejected rejection) →
      lines.length = 5 → ∃ s, FailsIn lines s rejection) ∧
    ∀ automaton, (parse lines before).result = .ok automaton →
      (∀ more, more ≠ [] → parse (lines ++ more) before =
        ⟨.error (.rejected .malformedInput), (parse lines before).warnings,
          (parse lines before).events ++ [.surplusLine]⟩) ∧
      ∀ front, front <+: lines → front ≠ lines →
        (parse front before).result = .error (.rejected .malformedInput) := by
  refine ⟨?_, ?_, ?_⟩
  · intro s rejection hfails
    refine ⟨parse_eq_rejected_iff.2 (.inl ⟨s, hfails.fault, hfails.first⟩), ?_⟩
    intro more
    have hsame : parse (lines.take (s.place + 1) ++ more) = parse lines := by
      apply parse_of_same_lines hfails.fault
      intro e he
      have hlt : e.place < s.place + 1 := Nat.lt_succ_of_le he
      have hpresent := hfails.present
      rw [List.getElem?_append_left, List.getElem?_take_of_lt hlt]
      rw [List.length_take]
      omega
    rw [hsame]
  · intro rejection herror hlength
    rcases parse_eq_rejected_iff.1 herror with ⟨s, hf, hfirst⟩ | ⟨-, hlong, -⟩
    · refine ⟨s, ?_, hf, hfirst⟩
      rw [hlength]
      exact s.place_lt
    · omega
  · intro automaton hok
    have hread : readAutomaton lines = .ok automaton := parse_eq_ok_iff.1 hok
    refine ⟨?_, fun front hfront hne => parse_prefix hread hfront hne before⟩
    intro more hmore
    rw [parse_append hread hmore, ← parse_eq_announce hread, Stage.bind_apply, hok]
    simp only [Stage.accept_error_apply, Violation.rejection, Violation.events]

/-- A lamp with an initial state that is not declared, before a line that is no better. -/
def dimLines : List String :=
  ["states=[on,off]", "alpha=[go]", "init.st=[off,dim]", "fin.st=[dim", "trans=[off>go]"]

theorem dimLines_failsIn : FailsIn dimLines .initial (.undefinedState "dim") := by
  have hstates : ∃ states, readStates dimLines = .ok states := ⟨_, rfl⟩
  have halphabet : ∃ alphabet, readAlphabet dimLines = .ok alphabet := ⟨_, rfl⟩
  constructor
  case present => decide
  case fault =>
    have hs : Section.states.Lists dimLines ["on", "off"] := by decide +kernel
    have hi : Section.initial.Lists dimLines ["off", "dim"] := by decide +kernel
    exact .undeclaredInitial hs hi ⟨["off"], [], rfl, by decide, by decide⟩
  case first =>
    intro earlier hearlier r
    cases earlier with
    | states =>
      rw [← rejects_readStates]
      exact exists_ok_iff.1 hstates r
    | alphabet =>
      rw [← rejects_readAlphabet]
      exact exists_ok_iff.1 halphabet r
    | _ => exact absurd hearlier (by decide)

/-- Whatever follows the line of the initial state, this line is to blame. A lamp that is parsed is
not parsed with a line more, nor up to its alphabet. -/
theorem lamp_decided_by_prefix :
    (∀ more, (parse (dimLines.take (Section.initial.place + 1) ++ more) .empty).result =
      .error (.rejected (.undefinedState "dim"))) ∧
    (parse (lampLines ++ [""]) .empty).result = .error (.rejected .malformedInput) ∧
    (parse (lampLines.take 2) .empty).result = .error (.rejected .malformedInput) := by
  obtain ⟨automaton, hok⟩ := exists_parse_lampLines
  obtain ⟨hfails, -, -⟩ := parse_decided_by_prefix dimLines .empty
  obtain ⟨hresult, hsame⟩ := hfails .initial _ dimLines_failsIn
  obtain ⟨-, -, hparsed⟩ := parse_decided_by_prefix lampLines .empty
  obtain ⟨hlonger, hshorter⟩ := hparsed automaton hok
  refine ⟨?_, ?_, hshorter _ (List.take_prefix 2 lampLines) (by decide)⟩
  · intro more
    rw [hsame more, hresult]
  · rw [hlonger [""] (by decide)]

end AutomatonCheck
