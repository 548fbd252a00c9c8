import AutomatonCheck.Proofs.LogAgreement
import AutomatonCheck.Proofs.SectionViolations
import AutomatonCheck.Proofs.Utf8RoundTrip
import AutomatonCheck.Text.Lines

/-!
# Reading back written lines

A line is written as the encoding of its text and a line feed, with or without a carriage
return between the two. Reading such lines gives their texts, in whatever chunks the bytes
arrive: the cutter comes to the end of each line with nothing pending, and what it has cut
off is the text and the carriage return if there is one. The last line needs no line feed
if it has a byte, and what follows the last line of a description is not read at all.
-/
namespace AutomatonCheck

namespace LineCutter

variable {cutter : LineCutter} {cut : List (List UInt8)} {line pending : List UInt8} {b : UInt8}

theorem isFull_iff : cutter.isFull = true ↔ lineCount ≤ cutter.lines.length := by
  simp [isFull]

theorem not_isFull_iff : ¬ cutter.isFull = true ↔ cutter.lines.length < lineCount := by
  rw [isFull_iff, Nat.not_le]

theorem push_of_isFull (h : cutter.isFull = true) (b : UInt8) : cutter.push b = cutter := if_pos h

theorem push_of_ne (hcut : cut.length < lineCount) (hb : b ≠ lineFeed) :
    push ⟨cut, pending⟩ b = ⟨cut, b :: pending⟩ := by
  have hfull : ¬ isFull ⟨cut, pending⟩ = true := not_isFull_iff.2 hcut
  rw [push, if_neg hfull, if_neg hb]

theorem push_lineFeed (hcut : cut.length < lineCount) :
    push ⟨cut, pending⟩ lineFeed = ⟨cut ++ [pending.reverse], []⟩ := by
  have hfull : ¬ isFull ⟨cut, pending⟩ = true := not_isFull_iff.2 hcut
  rw [push, if_neg hfull, if_pos rfl]

/-- A byte does not lead to more lines than a description has. -/
theorem length_lines_push (h : cutter.lines.length ≤ lineCount) (b : UInt8) :
    (cutter.push b).lines.length ≤ lineCount := by
  by_cases hfull : cutter.isFull = true
  · rw [push_of_isFull hfull]
    exact h
  · have hlt : cutter.lines.length < lineCount := not_isFull_iff.1 hfull
    by_cases hb : b = lineFeed
    · subst hb
      rw [push_lineFeed hlt, List.length_append, List.length_singleton]
      omega
    · rw [push_of_ne hlt hb]
      exact h

theorem feed_cons (cutter : LineCutter) (b : UInt8) (bytes : List UInt8) :
    cutter.feed (b :: bytes) = (cutter.push b).feed bytes := rfl

theorem feed_append (cutter : LineCutter) (bytes more : List UInt8) :
    cutter.feed (bytes ++ more) = (cutter.feed bytes).feed more := List.foldl_append

theorem foldl_feed (cutter : LineCutter) (chunks : List (List UInt8)) :
    chunks.foldl feed cutter = cutter.feed chunks.flatten := List.foldl_flatten.symm

theorem length_lines_feed (h : cutter.lines.length ≤ lineCount) (bytes : List UInt8) :
    (cutter.feed bytes).lines.length ≤ lineCount := by
  induction bytes generalizing cutter with
  | nil => exact h
  | cons b bytes ih =>
    rw [feed_cons]
    exact ih (length_lines_push h b)

/-- Whatever follows the last line is left alone. -/
theorem feed_of_isFull (h : cutter.isFull = true) (bytes : List UInt8) :
    cutter.feed bytes = cutter := by
  induction bytes with
  | nil => rfl
  | cons b bytes ih => rw [feed_cons, push_of_isFull h, ih]

/-- Bytes without a line feed become part of the pending line. -/
theorem feed_pending (hcut : cut.length < lineCount) (hline : lineFeed ∉ line) :
    feed ⟨cut, pending⟩ line = ⟨cut, line.reverse ++ pending⟩ := by
  induction line generalizing pending with
  | nil => rfl
  | cons b line ih =>
    simp only [List.mem_cons, not_or] at hline
    obtain ⟨hb, hrest⟩ := hline
    rw [feed_cons, push_of_ne hcut (Ne.symm hb), ih hrest]
    simp

/-- A line feed cuts off the line before it. -/
theorem feed_line (hcut : cut.length < lineCount) (hline : lineFeed ∉ line) :
    feed ⟨cut, []⟩ (line ++ [lineFeed]) = ⟨cut ++ [line], []⟩ := by
  rw [feed_append, feed_pending hcut hline, List.append_nil, feed_cons, push_lineFeed hcut,
    List.reverse_reverse]
  rfl

theorem feed_lines {lines : List (List UInt8)} (hcount : cut.length + lines.length ≤ lineCount)
    (hlines : ∀ line ∈ lines, lineFeed ∉ line) :
    feed ⟨cut, []⟩ (lines.flatMap (· ++ [lineFeed])) = ⟨cut ++ lines, []⟩ := by
  induction lines generalizing cut with
  | nil => simp [feed]
  | cons line lines ih =>
    simp only [List.length_cons] at hcount
    rw [List.flatMap_cons, feed_append, feed_line (by omega) (hlines line (by simp)), ih]
    · simp
    · simp only [List.length_append, List.length_singleton]
      omega
    · intro later hlater
      exact hlines later (by simp [hlater])

/-- The cutter starts with nothing, and after some lines it has these and nothing else. -/
theorem feed_start {lines : List (List UInt8)} (hcount : lines.length ≤ lineCount)
    (hlines : ∀ line ∈ lines, lineFeed ∉ line) :
    start.feed (lines.flatMap (· ++ [lineFeed])) = ⟨lines, []⟩ := by
  have hlength : ([] : List (List UInt8)).length + lines.length ≤ lineCount := by
    simpa using hcount
  exact feed_lines hlength hlines

theorem close?_of_isFull (h : cutter.isFull = true) (ending : Ending) :
    cutter.close? ending = some cutter.lines := if_pos h

theorem close?_finished : cutter.close? .finished =
    some (if cutter.isFull || cutter.pending.isEmpty then cutter.lines
      else cutter.lines ++ [cutter.pending.reverse]) := by
  unfold close?
  cases cutter.isFull with
  | true => rfl
  | false => rfl

theorem length_close? {ending : Ending} {lines : List (List UInt8)}
    (h : cutter.lines.length ≤ lineCount) (hclose : cutter.close? ending = some lines) :
    lines.length ≤ lineCount := by
  unfold close? at hclose
  split at hclose
  · cases hclose
    exact h
  · next hfull =>
    rw [not_isFull_iff] at hfull
    cases ending with
    | failed => cases hclose
    | finished =>
      cases hclose
      split
      · exact h
      · simp only [List.length_append, List.length_singleton]
        omega

end LineCutter

theorem cutLines?_eq (source : Source) : cutLines? source =
    (LineCutter.start.feed source.chunks.flatten).close? source.ending := by
  rw [cutLines?, LineCutter.foldl_feed]

theorem length_of_readLines? {source : Source} {lines : List String}
    (h : readLines? source = some lines) : lines.length ≤ lineCount := by
  obtain ⟨cut, hcut, rfl⟩ := Option.map_eq_some_iff.1 h
  rw [cutLines?_eq] at hcut
  rw [List.length_map]
  exact LineCutter.length_close? (LineCutter.length_lines_feed (Nat.zero_le _) _) hcut

theorem dropReturn_concat (bytes : List UInt8) :
    dropReturn (bytes ++ [carriageReturn]) = bytes := by
  rw [dropReturn, List.isSuffixOf?_eq_some_iff_append_eq.2 rfl]
  rfl

theorem dropReturn_of_getLast? {bytes : List UInt8} (h : bytes.getLast? ≠ some carriageReturn) :
    dropReturn bytes = bytes := by
  unfold dropReturn
  cases hsuffix : [carriageReturn].isSuffixOf? bytes with
  | none => rfl
  | some before =>
    rw [← List.isSuffixOf?_eq_some_iff_append_eq.1 hsuffix, List.getLast?_concat] at h
    exact absurd rfl h

/-- A line to be written. Its text has no line feed, and no carriage return at its end, which would
be taken for that of the line. -/
structure WrittenLine where
  text : String
  /-- A carriage return is written after the text. -/
  returned : Bool
  not_mem_text : '\n' ∉ text.toList
  getLast?_text : text.toList.getLast? ≠ some '\r'

namespace WrittenLine

/-- The bytes of a line before its line feed. -/
def bytes (line : WrittenLine) : List UInt8 :=
  Utf8.encode line.text.toList ++ if line.returned then [carriageReturn] else []

theorem lineFeed_not_mem_bytes (line : WrittenLine) : lineFeed ∉ line.bytes := by
  intro h
  rcases List.mem_append.1 h with h | h
  · exact line.not_mem_text (Utf8.mem_of_mem_encode h (by decide))
  · split at h
    · exact absurd (List.mem_singleton.1 h) (by decide)
    · exact absurd h List.not_mem_nil

@[simp] theorem lineText_bytes (line : WrittenLine) : lineText line.bytes = line.text := by
  have hdrop : dropReturn line.bytes = Utf8.encode line.text.toList := by
    unfold bytes
    split
    · exact dropReturn_concat _
    · rw [List.append_nil]
      refine dropReturn_of_getLast? fun hlast => line.getLast?_text ?_
      exact Utf8.getLast?_of_getLast?_encode hlast (by decide)
  rw [lineText, hdrop, Utf8.decode_encode, String.ofList_toList]

end WrittenLine

/-- The bytes of lines that are all terminated. -/
def writtenBytes (lines : List WrittenLine) : List UInt8 :=
  lines.flatMap fun line => line.bytes ++ [lineFeed]

/-- A source hands out written lines: each is terminated, or the last one has no line feed but some
byte, or a description's number of lines is terminated and anything may follow. -/
inductive Source.Presents : Source → List WrittenLine → Prop
  | terminated {chunks : List (List UInt8)} {lines : List WrittenLine}
      (hbytes : chunks.flatten = writtenBytes lines) : Presents ⟨chunks, .finished⟩ lines
  | unterminated {chunks : List (List UInt8)} {lines : List WrittenLine} {last : WrittenLine}
      (hlast : last.bytes ≠ []) (hbytes : chunks.flatten = writtenBytes lines ++ last.bytes) :
      Presents ⟨chunks, .finished⟩ (lines ++ [last])
  | followed {chunks : List (List UInt8)} {lines : List WrittenLine} {rest : List UInt8}
      {ending : Ending} (hcount : lines.length = lineCount)
      (hbytes : chunks.flatten = writtenBytes lines ++ rest) : Presents ⟨chunks, ending⟩ lines

section

variable {lines : List WrittenLine}

theorem feed_writtenBytes (hcount : lines.length ≤ lineCount) :
    LineCutter.start.feed (writtenBytes lines) = ⟨lines.map WrittenLine.bytes, []⟩ := by
  have hlength : (lines.map WrittenLine.bytes).length ≤ lineCount := by
    simpa using hcount
  have hlines : ∀ line ∈ lines.map WrittenLine.bytes, lineFeed ∉ line := by
    simpa using fun line _ => line.lineFeed_not_mem_bytes
  have hfeed := LineCutter.feed_start hlength hlines
  rw [List.flatMap_map] at hfeed
  exact hfeed

theorem Source.Presents.cutLines?_eq {source : Source} (h : source.Presents lines)
    (hcount : lines.length ≤ lineCount) :
    cutLines? source = some (lines.map WrittenLine.bytes) := by
  rw [AutomatonCheck.cutLines?_eq]
  cases h with
  | terminated hbytes =>
    rw [hbytes, feed_writtenBytes hcount, LineCutter.close?_finished]
    simp
  | @unterminated chunks before last hlast hbytes =>
    simp only [List.length_append, List.length_singleton] at hcount
    have hcut : (before.map WrittenLine.bytes).length < lineCount := by
      rw [List.length_map]
      omega
    have hpending : ¬ (LineCutter.isFull ⟨before.map WrittenLine.bytes, last.bytes.reverse⟩ ||
        last.bytes.reverse.isEmpty) = true := by
      simpa [LineCutter.isFull, hlast] using hcut
    rw [hbytes, LineCutter.feed_append, feed_writtenBytes (by omega),
      LineCutter.feed_pending hcut last.lineFeed_not_mem_bytes, List.append_nil,
      LineCutter.close?_finished, if_neg hpending, List.reverse_reverse]
    simp
  | followed hcount hbytes =>
    have hfull : LineCutter.isFull ⟨lines.map WrittenLine.bytes, []⟩ = true := by
      simp [LineCutter.isFull, hcount]
    rw [hbytes, LineCutter.feed_append, feed_writtenBytes (Nat.le_of_eq hcount),
      LineCutter.feed_of_isFull hfull, LineCutter.close?_of_isFull hfull]

theorem Source.Presents.readLines?_eq {source : Source} (h : source.Presents lines)
    (hcount : lines.length ≤ lineCount) :
    readLines? source = some (lines.map WrittenLine.text) := by
  rw [readLines?, h.cutLines?_eq hcount, Option.map_some, List.map_map]
  refine congrArg some (List.map_congr_left fun line _ => ?_)
  exact line.lineText_bytes

end

/-- A parser that has no line too many does not log one. -/
theorem surplusLine_not_mem_events {texts : List String}
    (h : readAutomaton texts ≠ .error .surplusLine) (before : Warnings) :
    .surplusLine ∉ (parse texts before).events := by
  obtain ⟨progress, hprogress, hevents⟩ := logsReading_parse texts before
  have hnot : .surplusLine ∉ progress := not_mem_progress hprogress rfl
  rw [hevents, List.mem_append, not_or]
  refine ⟨hnot, ?_⟩
  cases hread : readAutomaton texts with
  | ok automaton => exact List.not_mem_nil
  | error violation =>
    cases violation with
    | surplusLine => exact absurd hread h
    | _ => simp [violationEvents, Violation.events]

/-- Written lines are read back, whatever chunks their bytes come in, so a check of what was read is
a check of what was written. No source has more lines than a description. -/
theorem written_lines_read_back :
    (∀ (lines : List WrittenLine) (source : Source), lines.length ≤ lineCount →
      source.Presents lines →
        readLines? source = some (lines.map WrittenLine.text) ∧
        (readLines? source).map check = some (check (lines.map WrittenLine.text))) ∧
    ∀ source texts, readLines? source = some texts →
      readAutomaton texts ≠ .error .surplusLine ∧
      ∀ before, .surplusLine ∉ (parse texts before).events := by
  refine ⟨?_, ?_⟩
  · intro lines source hcount h
    have hread := h.readLines?_eq hcount
    exact ⟨hread, by rw [hread, Option.map_some]⟩
  · intro source texts hread
    have hlength : texts.length ≤ lineCount := length_of_readLines? hread
    have hne : readAutomaton texts ≠ .error .surplusLine := by
      intro hsurplus
      have hmore : lineCount < texts.length := lineCount_lt_of_surplusLine hsurplus
      omega
    exact ⟨hne, surplusLine_not_mem_events hne⟩

/-- Lines with nothing in them, with a carriage return inside and with characters of all lengths. -/
def oddLines : List WrittenLine :=
  [⟨"", true, by decide, by decide⟩, ⟨"aé€𐍈", false, by decide, by decide⟩,
    ⟨"x\ry", true, by decide, by decide⟩, ⟨"", false, by decide, by decide⟩,
    ⟨"z", true, by decide, by decide⟩]

/-- The odd lines, cut inside a terminator and inside a character, and a byte of no character. -/
def oddSource : Source :=
  ⟨[[13], [10, 97, 0xC3], [0xA9, 0xE2, 0x82], [], [0xAC, 0xF0, 0x90], [0x8D, 0x88, 10, 120, 13],
    [121, 13, 10, 10, 122, 13], [10, 0xFF]], .failed⟩

theorem odd_lines_read_back :
    oddLines.length ≤ lineCount ∧ oddSource.Presents oddLines ∧
      readLines? oddSource = some ["", "aé€𐍈", "x\ry", "", "z"] ∧
      Source.Presents ⟨[[122, 10, 13]], .finished⟩
        [⟨"z", false, by decide, by decide⟩, ⟨"", true, by decide, by decide⟩] ∧
      readLines? ⟨[[122, 10, 13]], .finished⟩ = some ["z", ""] := by
  have hcount : oddLines.length ≤ lineCount := by decide
  have hbytes : oddSource.chunks.flatten = writtenBytes oddLines ++ [0xFF] := by decide +kernel
  have hodd : oddSource.Presents oddLines := .followed rfl hbytes
  have hbytes' : [[122, 10, 13]].flatten =
      writtenBytes [⟨"z", false, by decide, by decide⟩] ++ [carriageReturn] := by
    decide +kernel
  have hreturn : Source.Presents ⟨[[122, 10, 13]], .finished⟩
      ([⟨"z", false, by decide, by decide⟩] ++ [⟨"", true, by decide, by decide⟩]) :=
    .unterminated (by decide) hbytes'
  exact ⟨hcount, hodd, (written_lines_read_back.1 _ _ hcount hodd).1, hreturn,
    (written_lines_read_back.1 _ _ (by decide) hreturn).1⟩

end AutomatonCheck
