import Mathlib.Data.List.Induction
import AutomatonCheck.Proofs.Listings
import AutomatonCheck.Proofs.Utf8Replacement
import AutomatonCheck.Proofs.WrittenLines

/-!
# The bytes of accepted descriptions

Bytes that are no text are replaced when a description is read, and nothing but the parser
stands between a replacement and the outcome. The parser takes names, brackets and
separators only, and looks up all other names among those, so a line that it accepts holds
none but their characters. A replacement character is not one of them; hence nothing was
replaced, and the bytes of the five lines are those of their texts. Any other byte in a line
ends in a parse error.
-/
namespace AutomatonCheck

namespace Section

/-- The characters that may stand between the brackets of a section's line. -/
def Admits (s : Section) (c : Char) : Prop :=
  ('a' ≤ c ∧ c ≤ 'z') ∨ ('0' ≤ c ∧ c ≤ '9') ∨ c = ',' ∨
    (c = '_' ∧ (s = .alphabet ∨ s = .transitions)) ∨ (c = '>' ∧ s = .transitions)

/-- The bytes of a line of the section that is pure ASCII: the opening, codes of admitted characters
and the closing bracket. -/
structure PlainBytes (s : Section) (bytes : List UInt8) : Prop where
  ascii : ∀ b ∈ bytes, b < 0x80
  body : ∃ body, bytes = Utf8.encode s.opening.toList ++ body ++ Utf8.encode [']'] ∧
    ∀ b ∈ body, ∃ c, s.Admits c ∧ b.toNat = c.toNat

/-- The comma has the lowest code of all. -/
theorem Admits.toNat_range {s : Section} {c : Char} (h : s.Admits c) :
    0x2C ≤ c.toNat ∧ c.toNat < 0x80 := by
  have hle {d e : Char} (hde : d ≤ e) : d.toNat ≤ e.toNat := hde
  rcases h with ⟨hlow, hhigh⟩ | ⟨hlow, hhigh⟩ | rfl | ⟨rfl, -⟩ | ⟨rfl, -⟩
  · have ha : 0x61 ≤ c.toNat := hle hlow
    have hz : c.toNat ≤ 0x7A := hle hhigh
    omega
  · have hzero : 0x30 ≤ c.toNat := hle hlow
    have hnine : c.toNat ≤ 0x39 := hle hhigh
    omega
  · decide
  · decide
  · decide

end Section

theorem NameKind.IsWord.admits {kind : NameKind} {s : Section} {text : String} {c : Char}
    (h : kind.IsWord text) (hs : kind = .symbol → s = .alphabet ∨ s = .transitions)
    (hc : c ∈ text.toList) : s.Admits c := by
  rcases h.2 c hc with h | h | ⟨hkind, h⟩
  · exact .inl h
  · exact .inr (.inl h)
  · exact .inr (.inr (.inr (.inl ⟨h, hs hkind⟩)))

theorem JoinedBy.eq_or_mem {separator c : Char} {text : String} {pieces : List String}
    (h : JoinedBy separator text pieces) (hc : c ∈ text.toList) :
    c = separator ∨ ∃ piece ∈ pieces, c ∈ piece.toList := by
  by_contra hnot
  push Not at hnot
  rw [h.joined] at hc
  exact not_mem_intercalate (by simpa using hnot.1) hnot.2 hc

namespace Contents.Grammatical

variable {contents : Contents}

/-- All names are declared, so the entries consist of the characters of names, but for the angle
brackets of transitions. -/
theorem admits (g : contents.Grammatical) (s : Section) :
    ∀ entry ∈ contents s, ∀ c ∈ entry.toList, s.Admits c := by
  have hstate {name : String} (hn : name ∈ contents .states) (s : Section) :
      ∀ c ∈ name.toList, s.Admits c :=
    fun c hc => (g.states name hn).admits (fun hkind => by cases hkind) hc
  intro entry hentry c hc
  cases s with
  | states => exact hstate hentry _ c hc
  | alphabet => exact (g.alphabet entry hentry).admits (fun _ => .inl rfl) hc
  | initial =>
    obtain ⟨name, hdecl, -, hsole⟩ := g.initial
    rw [hsole entry hentry] at hc
    exact hstate hdecl _ c hc
  | final => exact hstate (g.final entry hentry) _ c hc
  | transitions =>
    obtain ⟨source, hsource, symbol, hsymbol, target, htarget, hjoined⟩ :=
      g.transitions entry hentry
    rcases hjoined.eq_or_mem hc with rfl | ⟨piece, hpiece, hc⟩
    · exact .inr (.inr (.inr (.inr ⟨rfl, rfl⟩)))
    · simp only [List.mem_cons, List.not_mem_nil, or_false] at hpiece
      rcases hpiece with rfl | rfl | rfl
      · exact hstate hsource _ c hc
      · exact (g.alphabet _ hsymbol).admits (fun _ => .inr rfl) hc
      · exact hstate htarget _ c hc

/-- Besides its entries a line has only the commas between them. -/
theorem exists_body (g : contents.Grammatical) {lines : List String}
    (hw : contents.WrittenIn lines) (s : Section) :
    ∃ body, lines[s.place]? = some (s.opening ++ body ++ "]") ∧
      ∀ c ∈ body.toList, s.Admits c := by
  obtain ⟨line, hline, body, pieces, rfl, hjoined, hfound⟩ := hw.2 s
  refine ⟨body, hline, ?_⟩
  intro c hc
  rcases hjoined.eq_or_mem hc with rfl | ⟨piece, hpiece, hc⟩
  · exact .inr (.inr (.inl rfl))
  · have hne : piece ≠ "" := by
      rintro rfl
      exact absurd hc List.not_mem_nil
    have hentry : piece ∈ contents s := by
      rw [hfound, List.mem_filter]
      exact ⟨hpiece, by simpa using hne⟩
    exact g.admits s piece hentry c hc

end Contents.Grammatical

/-- A line of a section with nothing but admitted characters in its body. -/
def Section.Plain (s : Section) (text : String) : Prop :=
  ∃ body, text = s.opening ++ body ++ "]" ∧ ∀ c ∈ body.toList, s.Admits c

theorem plain_of_readAutomaton {texts : List String} {automaton : Automaton}
    (h : readAutomaton texts = .ok automaton) (s : Section) :
    ∃ text, texts[s.place]? = some text ∧ s.Plain text := by
  obtain ⟨contents, hw⟩ := exists_writtenIn h
  obtain ⟨hg, -⟩ := (readAutomaton_iff_describes hw).1 h
  obtain ⟨body, hline, hbody⟩ := hg.exists_body hw s
  exact ⟨_, hline, body, rfl, hbody⟩

namespace Section.Plain

variable {s : Section} {text : String}

theorem toNat_range (h : s.Plain text) :
    ∀ c ∈ text.toList, 0x2C ≤ c.toNat ∧ c.toNat < 0x80 := by
  obtain ⟨body, rfl, hbody⟩ := h
  have hopening : s.opening.toList.all (fun c => 0x2C ≤ c.toNat ∧ c.toNat < 0x80) = true := by
    cases s <;> decide
  intro c hc
  simp only [String.toList_append, List.mem_append] at hc
  rcases hc with (hc | hc) | hc
  · simpa using List.all_eq_true.1 hopening c hc
  · exact (hbody c hc).toNat_range
  · rw [show c = ']' by simpa using hc]
    decide

/-- No control character stands in a plain text, and nothing beyond ASCII. -/
theorem not_mem {c : Char} (h : s.Plain text) (hc : ¬ (0x2C ≤ c.toNat ∧ c.toNat < 0x80)) :
    c ∉ text.toList := fun hmem => hc (h.toNat_range c hmem)

theorem plainBytes (h : s.Plain text) : s.PlainBytes (Utf8.encode text.toList) where
  ascii := by
    intro b hb
    obtain ⟨c, hc, hmem⟩ := List.mem_flatMap.1 hb
    have hlt : c.toNat < 0x80 := (h.toNat_range c hc).2
    rw [Utf8.utf8EncodeChar_of_lt hlt, List.mem_singleton] at hmem
    rw [hmem, UInt8.lt_iff_toNat_lt, Utf8.toNat_lead (by omega)]
    exact hlt
  body := by
    obtain ⟨body, rfl, hbody⟩ := h
    refine ⟨Utf8.encode body.toList, by simp, ?_⟩
    intro b hb
    obtain ⟨c, hc, hmem⟩ := List.mem_flatMap.1 hb
    have hlt : c.toNat < 0x80 := (hbody c hc).toNat_range.2
    rw [Utf8.utf8EncodeChar_of_lt hlt, List.mem_singleton] at hmem
    exact ⟨c, hbody c hc, by rw [hmem, Utf8.toNat_lead (by omega)]⟩

end Section.Plain

namespace LineCutter

/-- The cutter has taken in these bytes: the lines that it cut off, what is pending, and a rest that
it has left alone. -/
structure HasTaken (cutter : LineCutter) (bytes rest : List UInt8) : Prop where
  bytes_eq : bytes = cutter.lines.flatMap (· ++ [lineFeed]) ++ cutter.pending.reverse ++ rest
  pending_eq : cutter.isFull = true → cutter.pending = []
  rest_eq : ¬ cutter.isFull = true → rest = []

theorem HasTaken.push {cutter : LineCutter} {bytes rest : List UInt8}
    (h : cutter.HasTaken bytes rest) (b : UInt8) :
    ∃ later, (cutter.push b).HasTaken (bytes ++ [b]) later := by
  by_cases hfull : cutter.isFull = true
  · rw [push_of_isFull hfull]
    refine ⟨rest ++ [b], ?_, h.pending_eq, fun hnot => absurd hfull hnot⟩
    rw [h.bytes_eq, List.append_assoc]
  · have hlt : cutter.lines.length < lineCount := not_isFull_iff.1 hfull
    have hbytes := h.bytes_eq
    rw [h.rest_eq hfull, List.append_nil] at hbytes
    obtain ⟨lines, pending⟩ := cutter
    by_cases hb : b = lineFeed
    · subst hb
      rw [push_lineFeed hlt]
      exact ⟨[], by simp [hbytes], fun _ => rfl, fun _ => rfl⟩
    · rw [push_of_ne hlt hb]
      exact ⟨[], by simp [hbytes], fun hnow => absurd hnow hfull, fun _ => rfl⟩

theorem exists_hasTaken (bytes : List UInt8) : ∃ rest, (start.feed bytes).HasTaken bytes rest := by
  induction bytes using List.reverseRecOn with
  | nil => exact ⟨[], rfl, fun _ => rfl, fun _ => rfl⟩
  | append_singleton bytes b ih =>
    obtain ⟨rest, hrest⟩ := ih
    rw [feed_append]
    exact hrest.push b

end LineCutter

/-- Lines that are cut off as they would be written are presented by the source. -/
theorem presents_of_cutLines? {source : Source} {lines : List WrittenLine}
    (h : cutLines? source = some (lines.map WrittenLine.bytes)) : source.Presents lines := by
  obtain ⟨chunks, ending⟩ := source
  rw [cutLines?_eq] at h
  have hlength : (LineCutter.start.feed chunks.flatten).lines.length ≤ lineCount :=
    LineCutter.length_lines_feed (Nat.zero_le _) _
  obtain ⟨rest, hbytes, hpending, hrest⟩ := LineCutter.exists_hasTaken chunks.flatten
  generalize LineCutter.start.feed chunks.flatten = cutter at h hlength hbytes hpending hrest
  have hwritten (written : List WrittenLine) :
      (written.map WrittenLine.bytes).flatMap (· ++ [lineFeed]) = writtenBytes written :=
    List.flatMap_map ..
  by_cases hfull : cutter.isFull = true
  · simp only [LineCutter.close?_of_isFull hfull, Option.some.injEq] at h
    rw [hpending hfull, h, hwritten, List.reverse_nil, List.append_nil] at hbytes
    rw [LineCutter.isFull_iff, h, List.length_map] at hfull
    rw [h, List.length_map] at hlength
    exact .followed (by omega) hbytes
  · cases ending with
    | failed => simp [LineCutter.close?, hfull] at h
    | finished =>
      rw [hrest hfull, List.append_nil] at hbytes
      simp only [LineCutter.close?_finished, hfull, Bool.false_or, Option.some.injEq] at h
      split at h
      · next hempty =>
        rw [List.isEmpty_iff.1 hempty, h, hwritten, List.reverse_nil, List.append_nil] at hbytes
        exact .terminated hbytes
      · next hpend =>
        obtain ⟨before, after, rfl, hbefore, hafter⟩ := List.map_eq_append_iff.1 h.symm
        obtain ⟨last, rfl, hlast⟩ := List.map_eq_singleton_iff.1 hafter
        rw [← hbefore, hwritten, ← hlast] at hbytes
        refine .unterminated ?_ hbytes
        rw [hlast]
        simpa using hpend

/-- Nothing was replaced where a plain text was read. -/
theorem encode_lineText {s : Section} {bytes : List UInt8} (h : s.Plain (lineText bytes)) :
    Utf8.encode (lineText bytes).toList = dropReturn bytes := by
  have hnot : Utf8.replacement ∉ (lineText bytes).toList := h.not_mem (by decide)
  rw [lineText, String.toList_ofList] at hnot ⊢
  exact Utf8.encode_decode hnot

/-- A line with a plain text is that text as it is written, with the carriage return that was
dropped. -/
theorem exists_writtenLine {s : Section} {bytes : List UInt8} (h : s.Plain (lineText bytes)) :
    ∃ line : WrittenLine, bytes = line.bytes := by
  have hencode : Utf8.encode (lineText bytes).toList = dropReturn bytes := encode_lineText h
  have hline : '\n' ∉ (lineText bytes).toList := h.not_mem (by decide)
  have hlast : (lineText bytes).toList.getLast? ≠ some '\r' := fun hlast =>
    h.not_mem (by decide) (List.mem_of_getLast? hlast)
  cases hsuffix : [carriageReturn].isSuffixOf? bytes with
  | none =>
    have hdrop : dropReturn bytes = bytes := by simp [dropReturn, hsuffix]
    refine ⟨⟨lineText bytes, false, hline, hlast⟩, ?_⟩
    simp [WrittenLine.bytes, hencode, hdrop]
  | some before =>
    have hdrop : dropReturn bytes = before := by simp [dropReturn, hsuffix]
    refine ⟨⟨lineText bytes, true, hline, hlast⟩, ?_⟩
    simp [WrittenLine.bytes, hencode, hdrop, List.isSuffixOf?_eq_some_iff_append_eq.1 hsuffix]

/-- There are five lines, and each has the plain bytes of its section once a carriage return at its
end is dropped. -/
def PlainLines (cut : List (List UInt8)) : Prop :=
  cut.length = 5 ∧
    ∀ s : Section, ∃ bytes, cut[s.place]? = some bytes ∧ s.PlainBytes (dropReturn bytes)

section

variable {cut : List (List UInt8)} {texts : List String} {automaton : Automaton}

theorem Section.exists_place_eq {i : Nat} (h : i < 5) : ∃ s : Section, s.place = i := by
  match i, h with
  | 0, _ => exact ⟨.states, rfl⟩
  | 1, _ => exact ⟨.alphabet, rfl⟩
  | 2, _ => exact ⟨.initial, rfl⟩
  | 3, _ => exact ⟨.final, rfl⟩
  | 4, _ => exact ⟨.transitions, rfl⟩

/-- Every line belongs to a section, in which its text is plain. -/
theorem exists_plain_of_readAutomaton (h : readAutomaton (cut.map lineText) = .ok automaton) :
    ∀ bytes ∈ cut, ∃ s : Section, s.Plain (lineText bytes) := by
  have hlength : cut.length = 5 := by simpa using length_of_readAutomaton h
  intro bytes hbytes
  obtain ⟨i, hi, rfl⟩ := List.mem_iff_getElem.1 hbytes
  obtain ⟨s, hs⟩ := Section.exists_place_eq (i := i) (by omega)
  obtain ⟨text, htext, hplain⟩ := plain_of_readAutomaton h s
  rw [hs, List.getElem?_map, List.getElem?_eq_getElem hi, Option.map_some] at htext
  exact ⟨s, by rwa [Option.some.inj htext]⟩

theorem plainLines_of_readAutomaton (h : readAutomaton (cut.map lineText) = .ok automaton) :
    PlainLines cut := by
  refine ⟨by simpa using length_of_readAutomaton h, ?_⟩
  intro s
  obtain ⟨text, htext, hplain⟩ := plain_of_readAutomaton h s
  rw [List.getElem?_map, Option.map_eq_some_iff] at htext
  obtain ⟨bytes, hbytes, rfl⟩ := htext
  refine ⟨bytes, hbytes, ?_⟩
  rw [← encode_lineText hplain]
  exact hplain.plainBytes

/-- The bytes of accepted lines are those of lines that are written with their texts. -/
theorem exists_writtenLines (h : readAutomaton (cut.map lineText) = .ok automaton) :
    ∃ lines : List WrittenLine, cut = lines.map WrittenLine.bytes := by
  obtain ⟨lines, hlines⟩ := exists_forall₂ fun bytes hbytes => by
    obtain ⟨s, hplain⟩ := exists_plain_of_readAutomaton h bytes hbytes
    exact exists_writtenLine hplain
  rw [← List.forall₂_map_right_iff, List.forall₂_eq_eq_eq] at hlines
  exact ⟨lines, hlines⟩

end

theorem Violation.rejection_ne_disjointStates (violation : Violation) :
    violation.rejection ≠ .disjointStates := by
  cases violation <;> simp [Violation.rejection]

/-- A check ends in a report or finds disjoint states if and only if the description is parsed. -/
theorem exists_readAutomaton_iff_check {texts : List String} :
    (∃ automaton, readAutomaton texts = .ok automaton) ↔
      (∃ report, (check texts).result = .ok report) ∨
        (check texts).result = .error (.rejected .disjointStates) := by
  cases hread : readAutomaton texts with
  | error violation =>
    have hne := violation.rejection_ne_disjointStates
    rw [(check_of_violation hread).1]
    simp [hne]
  | ok automaton =>
    have hr : automaton.InRange := inRange_of_readAutomaton hread
    rw [check_result hread]
    refine iff_of_true ⟨automaton, rfl⟩ ?_
    by_cases hdis : automaton.Disjoint
    · exact .inr (validate_result_error hr hdis _)
    · obtain ⟨report, hok, -⟩ := validate_result_ok hr hdis _
      exact .inl ⟨report, hok⟩

/-- A source whose lines are accepted hands out the bytes of their texts and nothing else: openings,
names and separators. Any other byte in a line makes the parser reject the description. -/
theorem accepted_bytes_plain {source : Source} {cut : List (List UInt8)} {texts : List String}
    (hcut : cutLines? source = some cut) (hread : readLines? source = some texts) :
    (∀ before automaton, (parse texts before).result = .ok automaton →
      PlainLines cut ∧ texts.map (fun text => Utf8.encode text.toList) = cut.map dropReturn ∧
      ∃ lines : List WrittenLine, source.Presents lines ∧ lines.map WrittenLine.bytes = cut ∧
        lines.map WrittenLine.text = texts) ∧
    ((∃ automaton, (parse texts .empty).result = .ok automaton) ↔
      (∃ report, (check texts).result = .ok report) ∨
        (check texts).result = .error (.rejected .disjointStates)) ∧
    (¬ PlainLines cut → ∃ rejection, rejection ≠ .disjointStates ∧
      (∀ before, (parse texts before).result = .error (.rejected rejection)) ∧
      (check texts).result = .error (.rejected rejection)) := by
  have htexts : texts = cut.map lineText := by
    rw [readLines?, hcut, Option.map_some] at hread
    exact (Option.some.inj hread).symm
  subst htexts
  simp only [parse_eq_ok_iff]
  refine ⟨?_, exists_readAutomaton_iff_check, ?_⟩
  · intro _ automaton h
    obtain ⟨lines, rfl⟩ := exists_writtenLines h
    refine ⟨plainLines_of_readAutomaton h, ?_, lines, presents_of_cutLines? hcut, rfl, ?_⟩
    · rw [List.map_map]
      refine List.map_congr_left fun bytes hbytes => ?_
      obtain ⟨s, hplain⟩ := exists_plain_of_readAutomaton h bytes hbytes
      exact encode_lineText hplain
    · rw [List.map_map]
      exact List.map_congr_left fun line _ => line.lineText_bytes.symm
  · intro hnot
    cases hparse : readAutomaton (cut.map lineText) with
    | ok automaton => exact absurd (plainLines_of_readAutomaton hparse) hnot
    | error violation =>
      refine ⟨violation.rejection, violation.rejection_ne_disjointStates, ?_,
        (check_of_violation hparse).1⟩
      intro before
      rw [parse_result, hparse]
      rfl

/-- The lamp with and without carriage returns, one of them at the end. -/
def lampSource : Source :=
  .ofBytes (["states=[on,off]\n", "alpha=[go]\r\n", "init.st=[off]\n", "fin.st=[on]\n",
    "trans=[off>go>on]\r"].flatMap fun line => Utf8.encode line.toList)

/-- The lamp with a byte of no character behind the name of its initial state. -/
def stainedLampSource : Source :=
  .ofBytes (Utf8.encode "states=[on,off]\nalpha=[go]\ninit.st=[off".toList ++ 0xFF ::
    Utf8.encode "]\nfin.st=[on]\ntrans=[off>go>on]\n".toList)

theorem lamp_bytes_plain :
    (∃ cut, cutLines? lampSource = some cut ∧ readLines? lampSource = some lampLines ∧
      (∃ automaton, (parse lampLines .empty).result = .ok automaton) ∧ PlainLines cut) ∧
    ∃ cut texts rejection, cutLines? stainedLampSource = some cut ∧
      readLines? stainedLampSource = some texts ∧ texts[2]? = some "init.st=[off\uFFFD]" ∧
      ¬ PlainLines cut ∧ (check texts).result = .error (.rejected rejection) := by
  constructor
  · have hread : readLines? lampSource = some lampLines := by decide +kernel
    obtain ⟨cut, hcut, -⟩ := Option.map_eq_some_iff.1 hread
    obtain ⟨automaton, h⟩ := exists_parse_lampLines
    exact ⟨cut, hcut, hread, ⟨automaton, h⟩, ((accepted_bytes_plain hcut hread).1 _ _ h).1⟩
  · obtain ⟨cut, hcut⟩ : ∃ cut, cutLines? stainedLampSource = some cut :=
      Option.isSome_iff_exists.1 (by decide +kernel)
    have hread : readLines? stainedLampSource = some (cut.map lineText) := by
      rw [readLines?, hcut, Option.map_some]
    have htext : (readLines? stainedLampSource).bind (·[2]?) = some "init.st=[off\uFFFD]" := by
      decide +kernel
    have hline : (cutLines? stainedLampSource).bind (·[2]?) =
        some (Utf8.encode "init.st=[off".toList ++ [0xFF, 0x5D]) := by
      decide +kernel
    rw [hread] at htext
    rw [hcut] at hline
    have hnot : ¬ PlainLines cut := by
      intro hplain
      obtain ⟨bytes, hbytes, hascii, -⟩ := hplain.2 .initial
      have heq : some bytes = some (Utf8.encode "init.st=[off".toList ++ [0xFF, 0x5D]) :=
        hbytes.symm.trans hline
      rw [Option.some.inj heq] at hascii
      exact absurd (hascii 0xFF (by decide +kernel)) (by decide)
    obtain ⟨rejection, -, -, hcheck⟩ := (accepted_bytes_plain hcut hread).2.2 hnot
    exact ⟨cut, _, rejection, hcut, hread, htext, hnot, hcheck⟩

end AutomatonCheck
