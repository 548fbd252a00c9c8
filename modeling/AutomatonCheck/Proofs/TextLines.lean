import AutomatonCheck.Proofs.LineCuts
import AutomatonCheck.Proofs.Utf8Restart

/-!
# Lines of bytes and lines of text

The lines of a source are cut while they are bytes, and each is decoded on its own. One could
as well decode everything at once and take the text apart. A line feed and a carriage return
are bytes below `80`, so decoding keeps them in their places and makes no others, and what is
cut off between them, be it the beginning of a character, is replaced either way.
-/
namespace AutomatonCheck

section DropEnd

variable {α β : Type} [DecidableEq α] [DecidableEq β]

/-- A list without this element at its end. -/
def dropEnd (x : α) (xs : List α) : List α := if xs.getLast? = some x then xs.dropLast else xs

theorem dropEnd_concat (x : α) (xs : List α) : dropEnd x (xs ++ [x]) = xs := by
  simp [dropEnd]

theorem dropEnd_of_ne {x : α} {xs : List α} (h : xs.getLast? ≠ some x) : dropEnd x xs = xs :=
  if_neg h

theorem dropEnd_subset (x : α) (xs : List α) : dropEnd x xs ⊆ xs := by
  unfold dropEnd
  split
  · exact List.dropLast_subset xs
  · exact List.Subset.refl xs

/-- Where nothing else is mapped to the element, it is dropped before or after mapping. -/
theorem dropEnd_map {f : α → β} {x : α} (h : ∀ y, f y = f x → y = x) (xs : List α) :
    dropEnd (f x) (xs.map f) = (dropEnd x xs).map f := by
  rcases List.eq_nil_or_concat xs with rfl | ⟨before, last, rfl⟩
  · simp [dropEnd]
  · by_cases hlast : last = x
    · simp [dropEnd, hlast]
    · simp [dropEnd, hlast, mt (h last) hlast]

end DropEnd

/-- The lines of a text: the pieces between its line feeds, without an empty one at the end, no more
of them than five, each without a carriage return at its end. -/
def textLines (text : List Char) : List String :=
  ((dropEnd [] (text.splitOn '\n')).take 5).map fun line => String.ofList (dropEnd '\r' line)

theorem CutInto.cutLines?_of_finished {source : Source} {lines : List (List UInt8)}
    {rest : List UInt8} (h : CutInto source.chunks.flatten lines rest)
    (hfinished : source.ending = .finished) :
    cutLines? source = some ((dropEnd [] (lines ++ [rest])).take lineCount) := by
  by_cases hlt : lines.length < lineCount
  · have hopen : LineCutter.isFull ⟨lines, rest.reverse⟩ = false :=
      Bool.eq_false_iff.2 (LineCutter.not_isFull_iff.2 hlt)
    rw [cutLines?_eq, h.feed_of_lt hlt, hfinished, LineCutter.close?_finished, hopen]
    by_cases hrest : rest = []
    · rw [hrest, dropEnd_concat, List.take_of_length_le (Nat.le_of_lt hlt)]
      rfl
    · have hlength : (lines ++ [rest]).length ≤ lineCount := by
        rw [List.length_append, List.length_singleton]
        omega
      rw [dropEnd_of_ne (by simpa using hrest), List.take_of_length_le hlength]
      simp [hrest]
  · have hle : lineCount ≤ lines.length := Nat.le_of_not_lt hlt
    rw [h.cutLines?_of_prefix hle (List.prefix_refl _)]
    by_cases hrest : rest = []
    · rw [hrest, dropEnd_concat]
    · rw [dropEnd_of_ne (by simpa using hrest), List.take_append_of_le_length hle]

/-- The carriage return of a line is dropped before or after decoding. -/
theorem dropEnd_decode (bytes : List UInt8) :
    dropEnd '\r' (Utf8.decode bytes) = Utf8.decode (dropReturn bytes) := by
  have hascii : carriageReturn.toNat < 0x80 := by decide
  by_cases hlast : bytes.getLast? = some carriageReturn
  · obtain ⟨before, rfl⟩ := List.getLast?_eq_some_iff.1 hlast
    rw [dropReturn_concat, Utf8.decode_append_cons hascii]
    exact dropEnd_concat '\r' _
  · have hdecode : (Utf8.decode bytes).getLast? ≠ some '\r' :=
      mt (Utf8.getLast?_of_getLast?_decode hascii) hlast
    rw [dropReturn_of_getLast? hlast, dropEnd_of_ne hdecode]

/-- The lines that are cut from the bytes of a source and then decoded are those of the text that all
its bytes decode to. -/
theorem lines_of_decoded_text (chunks : List (List UInt8)) :
    readLines? ⟨chunks, .finished⟩ = some (textLines (Utf8.decode chunks.flatten)) := by
  obtain ⟨lines, rest, hcut⟩ := exists_cutInto chunks.flatten
  have hcutLines : cutLines? ⟨chunks, .finished⟩ =
      some ((dropEnd [] (lines ++ [rest])).take lineCount) := hcut.cutLines?_of_finished rfl
  have hascii : lineFeed.toNat < 0x80 := by decide
  have hpieces : (Utf8.decode chunks.flatten).splitOn '\n' = (lines ++ [rest]).map Utf8.decode := by
    rw [← hcut.splitOn_eq]
    exact Utf8.splitOn_decode hascii chunks.flatten
  have hempty : ∀ bytes, Utf8.decode bytes = Utf8.decode [] → bytes = [] := fun _ =>
    Utf8.decode_eq_nil_iff.1
  calc readLines? ⟨chunks, .finished⟩
      = some (((dropEnd [] (lines ++ [rest])).take lineCount).map lineText) := by
        rw [readLines?, hcutLines, Option.map_some]
    _ = some ((((dropEnd [] (lines ++ [rest])).take 5).map Utf8.decode).map fun line =>
          String.ofList (dropEnd '\r' line)) := by
        rw [List.map_map]
        congr 2
        funext bytes
        rw [Function.comp_apply, dropEnd_decode]
        rfl
    _ = some (textLines (Utf8.decode chunks.flatten)) := by
        rw [textLines, hpieces, List.map_take, ← dropEnd_map hempty]
        rfl

/-- The beginning of a character before a line feed, what could go on with it behind, and a lone
carriage return. -/
example : readLines? (.ofBytes [97, 0xE2, 0x82, 10, 0xAC, 13, 10, 13]) =
    some ["a\uFFFD", "\uFFFD", ""] := by
  decide +kernel

end AutomatonCheck
