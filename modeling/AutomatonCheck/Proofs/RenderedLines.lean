import AutomatonCheck.Proofs.AccessRange
import AutomatonCheck.Proofs.FirstViolation
import AutomatonCheck.Proofs.LogAgreement
import AutomatonCheck.Proofs.TextLines

/-!
# The lines of an outcome's text

An outcome can be told from its text. A report gives one line for each finding, and the messages
of two findings differ. A rejection may blame any text at all, but its message has fixed words
before and behind the name, so the name is what is left once they are taken off. Only a name
could bring a line feed into the text, and no name that is read from a source has one: it is
part of a line, which is cut off at its line feed before it is decoded.
-/
namespace AutomatonCheck

/-- A text that consists of these lines, each ended by a line feed: cut at its line feeds, it leaves
nothing behind the last of them. -/
def CompleteLines (text : String) (lines : List String) : Prop := JoinedBy '\n' text (lines ++ [""])

theorem CompleteLines.unique {text : String} {lines others : List String}
    (h : CompleteLines text lines) (h' : CompleteLines text others) : lines = others :=
  List.append_cancel_right (JoinedBy.unique h h')

theorem join_lines_eq_intercalate (lines : List String) :
    String.join (lines.map (· ++ "\n")) = (String.singleton '\n').intercalate (lines ++ [""]) := by
  induction lines with
  | nil => rfl
  | cons line lines ih =>
    rw [List.map_cons, String.join_cons, ih, List.cons_append,
      String.intercalate_cons_of_ne_nil (by simp)]
    rfl

theorem completeLines_join {lines : List String} (h : ∀ line ∈ lines, '\n' ∉ line.toList) :
    CompleteLines (String.join (lines.map (· ++ "\n"))) lines where
  nonempty := by simp
  separate := by simpa [or_imp, forall_and] using h
  joined := join_lines_eq_intercalate lines

theorem Classification.message_injective : Function.Injective message := by
  intro classification other h
  cases classification <;> cases other <;> first | rfl | simp [message] at h

theorem Classification.lineFeed_not_mem_message (classification : Classification) :
    '\n' ∉ classification.message.toList := by
  cases classification <;> simp [message]

theorem Warning.message_injective : Function.Injective message := by
  intro w other h
  cases w <;> cases other <;> first | rfl | simp [message] at h

theorem Warning.lineFeed_not_mem_message (w : Warning) : '\n' ∉ w.message.toList := by
  cases w <;> simp [message]

theorem Warnings.toList_injective : Function.Injective toList := by
  intro warnings others h
  refine ext_contains fun w => ?_
  rw [Bool.eq_iff_iff, ← mem_toList, ← mem_toList, h]

namespace Rejection

variable {rejection other : Rejection}

/-- The second character, a digit, stands in the words before the name. -/
theorem getElem?_message (rejection : Rejection) :
    rejection.message.toList[1]? = rejection.wording.1.toList[1]? := by
  have hlong : 1 < rejection.wording.1.toList.length := by
    cases rejection <;> simp [wording]
  rw [message, String.append_assoc, String.toList_append, List.getElem?_append_left hlong]

theorem wording_eq_of_digit_eq
    (h : rejection.wording.1.toList[1]? = other.wording.1.toList[1]?) :
    rejection.wording = other.wording := by
  cases rejection <;> cases other <;> first | rfl | simp [wording] at h

theorem ext_blamed (hwording : rejection.wording = other.wording)
    (hblamed : rejection.blamed = other.blamed) : rejection = other := by
  cases rejection <;> cases other <;> simp_all [wording, blamed]

/-- The digit settles the words, and between the same words only the same name gives the same
message. -/
theorem message_injective : Function.Injective message := by
  intro rejection other h
  have hwording : rejection.wording = other.wording := by
    apply wording_eq_of_digit_eq
    rw [← getElem?_message, h, getElem?_message]
  rw [message, message, hwording, String.append_left_inj, String.append_right_inj] at h
  exact ext_blamed hwording h

theorem lineFeed_not_mem_wording (rejection : Rejection) :
    '\n' ∉ rejection.wording.1.toList ∧ '\n' ∉ rejection.wording.2.toList := by
  cases rejection <;> simp [wording]

theorem lineFeed_mem_blamed (h : '\n' ∈ rejection.message.toList) :
    '\n' ∈ rejection.blamed.toList := by
  have hwords := rejection.lineFeed_not_mem_wording
  rw [message, String.toList_append, String.toList_append] at h
  simpa [hwords] using h

end Rejection

namespace Outcome

/-- No finding of a report has a line feed in its message. -/
theorem completeLines_accepted (report : Report) :
    CompleteLines (accepted report).render (accepted report).renderedLines := by
  have hfindings : ∀ line ∈ report.warnings.toList.map Warning.message, '\n' ∉ line.toList := by
    rw [List.forall_mem_map]
    exact fun w _ => w.lineFeed_not_mem_message
  refine completeLines_join ?_
  rw [renderedLines, List.forall_mem_cons]
  refine ⟨report.classification.lineFeed_not_mem_message, ?_⟩
  split
  · exact fun line h => absurd h List.not_mem_nil
  · rw [List.forall_mem_cons]
    exact ⟨by decide, hfindings⟩

theorem completeLines_rejected {rejection : Rejection} (h : '\n' ∉ rejection.blamed.toList) :
    CompleteLines (rejected rejection).render (rejected rejection).renderedLines := by
  refine completeLines_join ?_
  rw [renderedLines, List.forall_mem_cons, List.forall_mem_singleton]
  exact ⟨by decide, mt Rejection.lineFeed_mem_blamed h⟩

/-- The number of lines in the text of an outcome. -/
def height : Outcome → Nat
  | .rejected _ => 2
  | .accepted report => if report.warnings.size = 0 then 1 else 2 + report.warnings.size

theorem length_renderedLines (outcome : Outcome) :
    outcome.renderedLines.length = outcome.height := by
  cases outcome with
  | rejected rejection => rfl
  | accepted report =>
    by_cases hnone : report.warnings.toList = []
    · simp [renderedLines, height, Warnings.size, hnone]
    · simp [renderedLines, height, Warnings.size, hnone]
      omega

/-- The lines behind the first are left out only where there are no findings. -/
theorem eq_of_block_eq {findings others : List String}
    (h : (if findings.isEmpty then [] else "Warning:" :: findings) =
      if others.isEmpty then [] else "Warning:" :: others) : findings = others := by
  cases findings <;> cases others <;> simp_all

theorem accepted_of_renderedLines_eq {report others : Report}
    (h : (accepted report).renderedLines = (accepted others).renderedLines) :
    report = others := by
  obtain ⟨hclassification, hblock⟩ := List.cons.inj h
  have hwarnings : report.warnings = others.warnings :=
    Warnings.toList_injective (Warning.message_injective.list_map (eq_of_block_eq hblock))
  cases report
  cases others
  rw [Report.mk.injEq]
  exact ⟨Classification.message_injective hclassification, hwarnings⟩

theorem rejected_of_render_eq {rejection others : Rejection}
    (h : (rejected rejection).render = (rejected others).render) : rejection = others := by
  apply Rejection.message_injective
  simpa [render, renderedLines, String.join_cons] using h

theorem render_accepted_ne_rejected (report : Report) (rejection : Rejection) :
    (accepted report).render ≠ (rejected rejection).render := by
  intro h
  have hfirst : (accepted report).render.toList.head? = (rejected rejection).render.toList.head? := by
    rw [h]
  cases hclass : report.classification <;>
    simp [render, renderedLines, String.join_cons, hclass, Classification.message] at hfirst

theorem render_injective : Function.Injective render := by
  intro outcome other h
  cases outcome with
  | accepted report =>
    cases other with
    | accepted others =>
      have hlines := completeLines_accepted report
      rw [h] at hlines
      rw [accepted_of_renderedLines_eq (hlines.unique (completeLines_accepted others))]
    | rejected rejection => exact absurd h (render_accepted_ne_rejected report rejection)
  | rejected rejection =>
    cases other with
    | accepted others => exact absurd h.symm (render_accepted_ne_rejected others rejection)
    | rejected others => rw [rejected_of_render_eq h]

end Outcome

section Names

variable {lines : List String} {rejection : Rejection} {c : Char}

theorem mem_intercalate {separator piece : String} {pieces : List String} (hp : piece ∈ pieces)
    (hc : c ∈ piece.toList) : c ∈ (separator.intercalate pieces).toList := by
  induction pieces with
  | nil => exact absurd hp List.not_mem_nil
  | cons first rest ih =>
    by_cases hrest : rest = []
    · rw [hrest, List.mem_singleton] at hp
      rw [hrest, String.intercalate_singleton, ← hp]
      exact hc
    · rw [String.intercalate_cons_of_ne_nil hrest, String.toList_append, String.toList_append,
        List.mem_append, List.mem_append]
      rcases List.mem_cons.1 hp with rfl | hp
      · exact .inl (.inl hc)
      · exact .inr (ih hp)

theorem JoinedBy.mem_of_mem_piece {separator : Char} {text piece : String} {pieces : List String}
    (h : JoinedBy separator text pieces) (hp : piece ∈ pieces) (hc : c ∈ piece.toList) :
    c ∈ text.toList := by
  rw [h.joined]
  exact mem_intercalate hp hc

theorem Section.Lists.exists_line {s : Section} {found : List String} {entry : String}
    (h : s.Lists lines found) (he : entry ∈ found) (hc : c ∈ entry.toList) :
    ∃ line ∈ lines, c ∈ line.toList := by
  obtain ⟨line, hline, body, pieces, rfl, hjoined, rfl⟩ := h
  have hbody : c ∈ body.toList := hjoined.mem_of_mem_piece (List.mem_of_mem_filter he) hc
  exact ⟨_, List.mem_of_getElem? hline, by simp [hbody]⟩

theorem TransitionFault.mem_entry {states symbols : List String} {entry : String}
    (h : TransitionFault states symbols entry rejection) (hc : c ∈ rejection.blamed.toList) :
    c ∈ entry.toList := by
  cases h with
  | fields hno => exact absurd hc List.not_mem_nil
  | source hj hs => exact hj.mem_of_mem_piece (.head _) hc
  | symbol hj hs ha => exact hj.mem_of_mem_piece (.tail _ (.head _)) hc
  | target hj hs ha ht => exact hj.mem_of_mem_piece (.tail _ (.tail _ (.head _))) hc

theorem Fault.exists_line {s : Section} (h : Fault lines s rejection)
    (hc : c ∈ rejection.blamed.toList) : ∃ line ∈ lines, c ∈ line.toList := by
  cases h with
  | undeclaredInitial hs h hl => exact h.exists_line hl.mem hc
  | undeclaredFinal hs h hl => exact h.exists_line hl.mem hc
  | transition hs ha h hl hr => exact h.exists_line hl.mem (hr.mem_entry hc)
  | shape | stateName | symbolName | noInitial | severalInitial => exact absurd hc List.not_mem_nil

/-- Only a violation blames a name, and its characters stand in a line of the description. -/
theorem exists_line_of_check (h : (check lines).result = .error (.rejected rejection))
    (hc : c ∈ rejection.blamed.toList) : ∃ line ∈ lines, c ∈ line.toList := by
  cases hread : readAutomaton lines with
  | error violation =>
    rw [(check_of_violation hread).1] at h
    cases h
    have hfirst : FirstViolation lines violation.rejection :=
      rejects_readAutomaton.1 ⟨violation, hread, rfl⟩
    rcases hfirst with ⟨s, hf, -⟩ | ⟨-, -, hmalformed⟩
    · exact hf.exists_line hc
    · rw [hmalformed] at hc
      exact absurd hc List.not_mem_nil
  | ok automaton =>
    rw [check_result hread] at h
    by_cases hdis : automaton.Disjoint
    · rw [validate_result_error (inRange_of_readAutomaton hread) hdis] at h
      cases h
      exact absurd hc List.not_mem_nil
    · obtain ⟨report, hok, -⟩ := validate_result_ok (inRange_of_readAutomaton hread) hdis _
      rw [hok] at h
      cases h

end Names

theorem CutInto.lineFeed_not_mem {bytes rest line : List UInt8} {lines : List (List UInt8)}
    (h : CutInto bytes lines rest) (hline : line ∈ lines ++ [rest]) : lineFeed ∉ line := by
  rcases List.mem_append.1 hline with hline | hline
  · exact h.not_mem_lines line hline
  · rw [List.mem_singleton.1 hline]
    exact h.not_mem_rest

theorem lineFeed_not_mem_lineText {line : List UInt8} (h : lineFeed ∉ line) :
    '\n' ∉ (lineText line).toList := by
  have hascii : lineFeed.toNat < 0x80 := by decide
  rw [lineText, String.toList_ofList, ← dropEnd_decode]
  exact fun hmem => h (Utf8.mem_of_mem_decode hascii (dropEnd_subset _ _ hmem))

theorem exists_readLines? (chunks : List (List UInt8)) :
    ∃ lines, readLines? ⟨chunks, .finished⟩ = some lines ∧ ∀ line ∈ lines, '\n' ∉ line.toList := by
  obtain ⟨lines, rest, hcut⟩ := exists_cutInto chunks.flatten
  have hcutLines : cutLines? ⟨chunks, .finished⟩ =
      some ((dropEnd [] (lines ++ [rest])).take lineCount) := hcut.cutLines?_of_finished rfl
  refine ⟨_, by rw [readLines?, hcutLines, Option.map_some], ?_⟩
  rw [List.forall_mem_map]
  intro line hline
  have hmem : line ∈ lines ++ [rest] := dropEnd_subset _ _ (List.mem_of_mem_take hline)
  exact lineFeed_not_mem_lineText (hcut.lineFeed_not_mem hmem)

/-- A check of lines without a line feed ends in an outcome whose text has no other lines than the
outcome says. -/
theorem exists_completeLines_of_check {lines : List String}
    (hlines : ∀ line ∈ lines, '\n' ∉ line.toList) :
    ∃ outcome, Outcome.ofResult? (check lines).result = some outcome ∧
      CompleteLines outcome.render outcome.renderedLines := by
  cases hcheck : (check lines).result with
  | ok report =>
    exact ⟨.accepted report, rfl, Outcome.completeLines_accepted report⟩
  | error stop =>
    cases stop with
    | outOfRange => exact absurd hcheck (check_ne_outOfRange lines)
    | rejected rejection =>
      have hblamed : '\n' ∉ rejection.blamed.toList := by
        intro hmem
        obtain ⟨line, hline, hmem⟩ := exists_line_of_check hcheck hmem
        exact hlines line hline hmem
      exact ⟨.rejected rejection, rfl, Outcome.completeLines_rejected hblamed⟩

/-- The text of an outcome gives the outcome away, whatever name it blames. The outcome of lines that
are read from a source is written in complete lines: two for a rejection, one for a report without
warnings, and two more than it has warnings for any other. -/
theorem render_unambiguous :
    (∀ outcome other : Outcome, outcome.render = other.render ↔ outcome = other) ∧
    ∀ chunks, ∃ lines outcome, readLines? ⟨chunks, .finished⟩ = some lines ∧
      Outcome.ofResult? (check lines).result = some outcome ∧
      ∃ texts, CompleteLines outcome.render texts ∧ texts.length = outcome.height := by
  refine ⟨fun outcome other => Outcome.render_injective.eq_iff, ?_⟩
  intro chunks
  obtain ⟨lines, hread, hlines⟩ := exists_readLines? chunks
  obtain ⟨outcome, hcheck, hcomplete⟩ := exists_completeLines_of_check hlines
  exact ⟨lines, outcome, hread, hcheck, outcome.renderedLines, hcomplete,
    outcome.length_renderedLines⟩

end AutomatonCheck
