import AutomatonCheck.Proofs.WrittenLines

/-!
# Where lines are cut

Bytes consist of lines, each with the line feed that ends it, and of a rest without one. The
cutter takes off as many of these lines as a description has and leaves the rest of the bytes
alone. So a source gives its lines away with its line feeds: once there are five of them, the
lines are the same whatever follows, even if reading fails then. If it fails earlier, a line
is still open, and there are no lines at all.
-/
namespace AutomatonCheck

/-- Bytes that consist of these lines, each ended by a line feed, and of a rest without one. -/
structure CutInto (bytes : List UInt8) (lines : List (List UInt8)) (rest : List UInt8) : Prop where
  bytes_eq : bytes = lines.flatMap (· ++ [lineFeed]) ++ rest
  not_mem_lines : ∀ line ∈ lines, lineFeed ∉ line
  not_mem_rest : lineFeed ∉ rest

theorem exists_cutInto (bytes : List UInt8) : ∃ lines rest, CutInto bytes lines rest := by
  induction bytes with
  | nil => exact ⟨[], [], rfl, by simp, by simp⟩
  | cons b bytes ih =>
    obtain ⟨lines, rest, rfl, hlines, hrest⟩ := ih
    by_cases hb : b = lineFeed
    · exact ⟨[] :: lines, rest, by simp [hb], by simpa using hlines, hrest⟩
    · cases lines with
      | nil => exact ⟨[], b :: rest, rfl, by simp, by simp [Ne.symm hb, hrest]⟩
      | cons line lines =>
        rw [List.forall_mem_cons] at hlines
        refine ⟨(b :: line) :: lines, rest, rfl, ?_, hrest⟩
        rw [List.forall_mem_cons]
        exact ⟨by simp [Ne.symm hb, hlines.1], hlines.2⟩

theorem LineCutter.isFull_take {lines : List (List UInt8)} (hle : lineCount ≤ lines.length) :
    isFull ⟨lines.take lineCount, []⟩ = true := by
  rw [isFull_iff, List.length_take_of_le hle]

namespace CutInto

variable {bytes rest : List UInt8} {lines : List (List UInt8)} {source : Source}

theorem count_eq (h : CutInto bytes lines rest) : bytes.count lineFeed = lines.length := by
  obtain ⟨rfl, hlines, hrest⟩ := h
  induction lines with
  | nil => exact List.count_eq_zero.2 hrest
  | cons line lines ih =>
    rw [List.forall_mem_cons] at hlines
    have hline : line.count lineFeed = 0 := List.count_eq_zero.2 hlines.1
    rw [List.flatMap_cons, List.append_assoc, List.count_append, List.count_append, hline,
      List.count_singleton_self, ih hlines.2, List.length_cons]
    omega

theorem splitOn_eq (h : CutInto bytes lines rest) : bytes.splitOn lineFeed = lines ++ [rest] := by
  obtain ⟨rfl, hlines, hrest⟩ := h
  induction lines with
  | nil => exact List.splitOn_eq_singleton hrest
  | cons line lines ih =>
    rw [List.forall_mem_cons] at hlines
    rw [List.flatMap_cons, List.append_assoc, List.append_assoc, List.singleton_append,
      List.splitOn_append_cons_self_of_not_mem hlines.1, ih hlines.2]
    rfl

/-- While lines are missing, the rest is pending. -/
theorem feed_of_lt (h : CutInto bytes lines rest) (hlt : lines.length < lineCount) :
    LineCutter.start.feed bytes = ⟨lines, rest.reverse⟩ := by
  rw [h.bytes_eq, LineCutter.feed_append,
    LineCutter.feed_start (Nat.le_of_lt hlt) h.not_mem_lines,
    LineCutter.feed_pending hlt h.not_mem_rest, List.append_nil]

theorem feed_of_le (h : CutInto bytes lines rest) (hle : lineCount ≤ lines.length) :
    LineCutter.start.feed bytes = ⟨lines.take lineCount, []⟩ := by
  have hlength : (lines.take lineCount).length = lineCount := List.length_take_of_le hle
  have hfirst : LineCutter.start.feed ((lines.take lineCount).flatMap (· ++ [lineFeed])) =
      ⟨lines.take lineCount, []⟩ :=
    LineCutter.feed_start hlength.le fun line hline =>
      h.not_mem_lines line (List.mem_of_mem_take hline)
  rw [h.bytes_eq, ← List.take_append_drop lineCount lines, List.flatMap_append, List.append_assoc,
    LineCutter.feed_append, List.take_append_drop, hfirst,
    LineCutter.feed_of_isFull (LineCutter.isFull_take hle)]

/-- A line that is still open when reading fails spoils those before it. -/
theorem cutLines?_of_failed (h : CutInto source.chunks.flatten lines rest)
    (hlt : lines.length < lineCount) (hfailed : source.ending = .failed) :
    cutLines? source = none := by
  have hopen : ¬ LineCutter.isFull ⟨lines, rest.reverse⟩ = true :=
    LineCutter.not_isFull_iff.2 hlt
  rw [cutLines?_eq, h.feed_of_lt hlt, hfailed]
  exact if_neg hopen

/-- What follows the lines does not matter, nor does how reading ends after it. -/
theorem cutLines?_of_prefix (h : CutInto bytes lines rest) (hle : lineCount ≤ lines.length)
    (hbegins : bytes <+: source.chunks.flatten) :
    cutLines? source = some (lines.take lineCount) := by
  have hfull := LineCutter.isFull_take hle
  obtain ⟨more, hmore⟩ := hbegins
  rw [cutLines?_eq, ← hmore, LineCutter.feed_append, h.feed_of_le hle,
    LineCutter.feed_of_isFull hfull, LineCutter.close?_of_isFull hfull]

end CutInto

/-- A source that fails has its lines if and only if it hands out five line feeds before. It then has
all five lines, and so does any source that starts with the same bytes, in whatever chunks it
hands them out and whether it ends, fails or goes on after them. -/
theorem failing_source_decided (chunks : List (List UInt8)) :
    (readLines? ⟨chunks, .failed⟩ = none ↔ chunks.flatten.count lineFeed < 5) ∧
    ∀ texts, readLines? ⟨chunks, .failed⟩ = some texts → texts.length = 5 ∧
      ∀ source : Source, chunks.flatten <+: source.chunks.flatten →
        readLines? source = some texts := by
  obtain ⟨lines, rest, hcut⟩ := exists_cutInto chunks.flatten
  rw [hcut.count_eq]
  by_cases hlt : lines.length < lineCount
  · have hnone : readLines? ⟨chunks, .failed⟩ = none := by
      have hcutLines : cutLines? ⟨chunks, .failed⟩ = none := hcut.cutLines?_of_failed hlt rfl
      rw [readLines?, hcutLines, Option.map_none]
    refine ⟨iff_of_true hnone hlt, ?_⟩
    intro texts htexts
    rw [hnone] at htexts
    cases htexts
  · have hle : lineCount ≤ lines.length := Nat.le_of_not_lt hlt
    have hread {source : Source} (hbegins : chunks.flatten <+: source.chunks.flatten) :
        readLines? source = some ((lines.take lineCount).map lineText) := by
      rw [readLines?, hcut.cutLines?_of_prefix hle hbegins, Option.map_some]
    have hfailed : readLines? ⟨chunks, .failed⟩ = some ((lines.take lineCount).map lineText) :=
      hread (List.prefix_refl _)
    rw [hfailed]
    refine ⟨iff_of_false (Option.some_ne_none _) hlt, ?_⟩
    intro texts htexts
    cases htexts
    refine ⟨?_, fun source => hread⟩
    rw [List.length_map, List.length_take_of_le hle]
    rfl

/-- Five lines, the last of which ends with the last byte. -/
def fiveLineChunks : List (List UInt8) := [[97, 10, 98], [99, 13], [10, 10, 100, 10, 10]]

/-- The same bytes cut up in another way, and a line that is broken off. -/
def fiveLineSource : Source := ⟨[[97], [10, 98, 99, 13, 10], [10, 100, 10, 10, 120], [121]], .failed⟩

/-- Four lines and a fifth one without its line feed. -/
def openLineChunks : List (List UInt8) := [[97, 10, 98], [99, 13], [10, 10, 100, 10, 120]]

theorem fiveLines_decided :
    readLines? ⟨fiveLineChunks, .failed⟩ = some ["a", "bc", "", "d", ""] ∧
      readLines? ⟨fiveLineChunks, .finished⟩ = some ["a", "bc", "", "d", ""] ∧
      fiveLineChunks.flatten <+: fiveLineSource.chunks.flatten ∧
      readLines? fiveLineSource = some ["a", "bc", "", "d", ""] ∧
      readLines? ⟨openLineChunks, .failed⟩ = none := by
  have hread : readLines? ⟨fiveLineChunks, .failed⟩ = some ["a", "bc", "", "d", ""] := by
    decide +kernel
  have hbegins : fiveLineChunks.flatten <+: fiveLineSource.chunks.flatten := by decide
  obtain ⟨-, hany⟩ := (failing_source_decided fiveLineChunks).2 _ hread
  exact ⟨hread, hany _ (List.prefix_refl _), hbegins, hany _ hbegins,
    (failing_source_decided openLineChunks).1.2 (by decide)⟩

end AutomatonCheck
