import Mathlib.Data.List.Basic
import AutomatonCheck.Proofs.Entrywise
import AutomatonCheck.Description.Parse

/-!
# The grammar of descriptions

What a description looks like is said here without a reader: a line is the opening of
its section, then pieces with commas between them, then a closing bracket, and the
entries of the line are its non-empty pieces. A transition entry consists in the same
way of three fields around two angle brackets. The contents of a description are its
entries, section by section, and being grammatical is a matter of the contents alone.
-/
namespace AutomatonCheck

/-- A text cut at every separator: no piece holds one, and between each two pieces there is one. -/
structure JoinedBy (separator : Char) (text : String) (pieces : List String) : Prop where
  nonempty : pieces ≠ []
  separate : ∀ piece ∈ pieces, separator ∉ piece.toList
  joined : text = (String.singleton separator).intercalate pieces

theorem not_mem_of_mem_splitOn {α : Type} [BEq α] [LawfulBEq α] {separator : α}
    {xs piece : List α} (h : piece ∈ xs.splitOn separator) : separator ∉ piece := by
  induction xs generalizing piece with
  | nil => simp_all
  | cons x xs ih =>
    rw [List.splitOn_cons_eq_if_modifyHead] at h
    split at h
    · rcases List.mem_cons.1 h with rfl | h
      · simp
      · exact ih h
    · next hx =>
      obtain ⟨first, rest, hcut⟩ := List.exists_cons_of_ne_nil (List.splitOn_ne_nil separator xs)
      rw [hcut, List.modifyHead_cons] at h
      rcases List.mem_cons.1 h with rfl | h
      · have hfirst : separator ∉ first := ih (by simp [hcut])
        simp only [List.mem_cons, not_or]
        exact ⟨fun he => hx (by simp [he]), hfirst⟩
      · exact ih (by simp [hcut, h])

/-- Splitting a text is the only way to cut it. -/
theorem joinedBy_iff {separator : Char} {text : String} {pieces : List String} :
    JoinedBy separator text pieces ↔ (text.toList.splitOn separator).map String.ofList = pieces := by
  constructor
  · intro h
    obtain ⟨hne, hsep, rfl⟩ := h
    have hcut : ([separator].intercalate (pieces.map String.toList)).splitOn separator =
        pieces.map String.toList := by
      refine List.splitOn_intercalate separator ?_ (by simpa using hne)
      intro chars hchars
      obtain ⟨piece, hp, rfl⟩ := List.mem_map.1 hchars
      exact hsep piece hp
    rw [String.toList_intercalate, String.toList_singleton, hcut]
    simp [Function.comp_def]
  · rintro rfl
    refine ⟨by simp, ?_, ?_⟩
    · intro piece hp
      obtain ⟨chars, hc, rfl⟩ := List.mem_map.1 hp
      rw [String.toList_ofList]
      exact not_mem_of_mem_splitOn hc
    · rw [← String.toList_inj, String.toList_intercalate, String.toList_singleton]
      simp [Function.comp_def]

theorem JoinedBy.unique {separator : Char} {text : String} {pieces others : List String}
    (h : JoinedBy separator text pieces) (h' : JoinedBy separator text others) :
    pieces = others := by
  rw [joinedBy_iff] at h h'
  rw [← h, h']

theorem count_intercalate (separator : Char) {pieces : List String} (h : pieces ≠ []) :
    ((String.singleton separator).intercalate pieces).toList.count separator + 1 =
      (pieces.flatMap String.toList).count separator + pieces.length := by
  induction pieces with
  | nil => exact absurd rfl h
  | cons piece rest ih =>
    by_cases hrest : rest = []
    · simp [hrest]
    · have hcount := ih hrest
      rw [String.intercalate_cons_of_ne_nil hrest, String.toList_append, String.toList_append,
        List.count_append, List.count_append, String.toList_singleton, List.count_singleton_self,
        List.flatMap_cons, List.count_append, List.length_cons]
      omega

/-- Texts that join to one that is cut into the same number of pieces are these pieces. -/
theorem JoinedBy.of_length {separator : Char} {text : String} {pieces others : List String}
    (h : JoinedBy separator text pieces) (hlength : others.length = pieces.length)
    (hjoined : text = (String.singleton separator).intercalate others) : others = pieces := by
  have hne : others ≠ [] := by
    intro hnil
    rw [hnil, List.length_nil, eq_comm, List.length_eq_zero_iff] at hlength
    exact h.nonempty hlength
  have hnone : (pieces.flatMap String.toList).count separator = 0 := by
    rw [List.count_eq_zero, List.mem_flatMap]
    intro hmem
    obtain ⟨piece, hp, hmem⟩ := hmem
    exact h.separate piece hp hmem
  have hcount : (others.flatMap String.toList).count separator = 0 := by
    have hpieces := count_intercalate separator h.nonempty
    have hothers := count_intercalate separator hne
    rw [← h.joined] at hpieces
    rw [← hjoined] at hothers
    omega
  have hcut : JoinedBy separator text others := by
    refine ⟨hne, ?_, hjoined⟩
    intro piece hp hmem
    rw [List.count_eq_zero] at hcount
    exact hcount (List.mem_flatMap.2 ⟨piece, hp, hmem⟩)
  exact hcut.unique h

theorem entries_eq (body : List Char) :
    entries body = ((body.splitOn ',').map String.ofList).filter (· ≠ "") := by
  rw [entries, List.filter_map]
  congr 1
  refine List.filter_congr ?_
  intro piece _
  cases piece <;> simp

namespace Section

/-- A line of a section with these entries. -/
def Spells (s : Section) (line : String) (found : List String) : Prop :=
  ∃ body pieces, line = s.opening ++ body ++ "]" ∧ JoinedBy ',' body pieces ∧
    found = pieces.filter (· ≠ "")

/-- The lines have one for the section, with these entries. -/
def Lists (s : Section) (lines : List String) (found : List String) : Prop :=
  ∃ line, lines[s.place]? = some line ∧ s.Spells line found

/-- The line of the section is missing, has another opening or lacks the closing bracket. -/
def Misshapen (s : Section) (lines : List String) : Prop :=
  ∀ line, lines[s.place]? = some line →
    ¬ s.opening.toList <+: line.toList ∨ ¬ [']'] <:+ line.toList

theorem body?_eq_some_iff {s : Section} {line : String} {body : List Char} :
    s.body? line = some body ↔ line = s.opening ++ String.ofList body ++ "]" := by
  simp only [body?, Option.bind_eq_some_iff, List.isPrefixOf?_eq_some_iff_append_eq,
    List.isSuffixOf?_eq_some_iff_append_eq]
  rw [← String.toList_inj]
  simp only [String.toList_append, String.toList_ofList, List.append_assoc]
  constructor
  · intro h
    obtain ⟨rest, hrest, rfl⟩ := h
    exact hrest.symm
  · intro h
    exact ⟨_, h.symm, rfl⟩

theorem spells_iff {s : Section} {line : String} {found : List String} :
    s.Spells line found ↔ ∃ body, s.body? line = some body ∧ entries body = found := by
  simp only [Spells, joinedBy_iff, body?_eq_some_iff, entries_eq]
  constructor
  · intro h
    obtain ⟨body, _, rfl, rfl, rfl⟩ := h
    exact ⟨body.toList, by simp, rfl⟩
  · intro h
    obtain ⟨body, rfl, rfl⟩ := h
    exact ⟨String.ofList body, _, rfl, rfl, by simp⟩

theorem read_of_same_line {s : Section} {lines lines' : List String}
    (h : lines'[s.place]? = lines[s.place]?) : s.read lines' = s.read lines := by
  rw [read, read, h]

theorem read_eq_ok_iff {s : Section} {lines found : List String} :
    s.read lines = .ok found ↔ s.Lists lines found := by
  simp only [read, Lists, spells_iff]
  cases lines[s.place]? with
  | none => simp
  | some line =>
    cases hb : s.body? line with
    | none => simp [hb]
    | some body => simp [hb]

instance (s : Section) (lines found : List String) : Decidable (s.Lists lines found) :=
  decidable_of_iff _ read_eq_ok_iff

theorem Lists.unique {s : Section} {lines found others : List String}
    (h : s.Lists lines found) (h' : s.Lists lines others) : found = others := by
  rw [← read_eq_ok_iff] at h h'
  rw [h] at h'
  exact Except.ok.inj h'

/-- A line between the opening and the bracket; the two cannot overlap. -/
theorem exists_body?_iff {s : Section} {line : String} :
    (∃ body, s.body? line = some body) ↔
      s.opening.toList <+: line.toList ∧ [']'] <:+ line.toList := by
  simp only [body?_eq_some_iff, ← String.toList_inj, String.toList_append, String.toList_ofList]
  constructor
  · intro h
    obtain ⟨body, h⟩ := h
    rw [h]
    exact ⟨⟨body ++ [']'], by simp⟩, ⟨s.opening.toList ++ body, rfl⟩⟩
  · intro h
    obtain ⟨⟨rest, hrest⟩, hclosed⟩ := h
    have hopen : ¬ [']'] <:+ s.opening.toList := by cases s <;> decide
    rcases List.eq_nil_or_concat rest with rfl | ⟨body, c, rfl⟩
    · rw [← hrest, List.append_nil] at hclosed
      exact absurd hclosed hopen
    · obtain ⟨front, hfront⟩ := hclosed
      rw [← hrest, List.concat_eq_append, ← List.append_assoc] at hfront
      have hc : [']'] = [c] := (List.append_inj' hfront rfl).2
      refine ⟨body, ?_⟩
      rw [← hrest, List.concat_eq_append, ← hc]
      simp

theorem exists_lists_iff {s : Section} {lines : List String} :
    (∃ found, s.Lists lines found) ↔ ¬ s.Misshapen lines := by
  simp only [Lists, Misshapen, spells_iff]
  constructor
  · intro h hm
    obtain ⟨found, line, hline, body, hbody, -⟩ := h
    have hshape := exists_body?_iff.1 ⟨body, hbody⟩
    rcases hm line hline with h | h
    · exact h hshape.1
    · exact h hshape.2
  · intro h
    push Not at h
    obtain ⟨line, hline, hshape⟩ := h
    obtain ⟨body, hbody⟩ := exists_body?_iff.2 hshape
    exact ⟨entries body, line, hline, body, hbody, rfl⟩

theorem rejection_of_read {s : Section} {lines : List String} {violation : Violation}
    (h : s.read lines = .error violation) : violation.rejection = .malformedInput := by
  unfold read at h
  split at h
  · cases h
    rfl
  · split at h
    · cases h
      rfl
    · cases h

/-- Whatever is wrong with the shape of a line, the description is malformed. -/
theorem rejects_read {s : Section} {lines : List String} {rejection : Rejection} :
    Rejects (s.read lines) rejection ↔ s.Misshapen lines ∧ rejection = .malformedInput := by
  cases hread : s.read lines with
  | ok found =>
    have hshape : ¬ s.Misshapen lines := exists_lists_iff.1 ⟨found, read_eq_ok_iff.1 hread⟩
    simp [hshape]
  | error violation =>
    have hshape : s.Misshapen lines := by
      by_contra hn
      obtain ⟨found, hfound⟩ := exists_lists_iff.2 hn
      rw [read_eq_ok_iff.2 hfound] at hread
      cases hread
    simp [hshape, rejection_of_read hread, eq_comm]

end Section

/-- A word over the characters of names of a kind. -/
def NameKind.IsWord (kind : NameKind) (text : String) : Prop :=
  text ≠ "" ∧ ∀ c ∈ text.toList,
    ('a' ≤ c ∧ c ≤ 'z') ∨ ('0' ≤ c ∧ c ≤ '9') ∨ (kind = .symbol ∧ c = '_')

theorem NameKind.allows_iff_isWord {kind : NameKind} {text : String} :
    kind.Allows text ↔ kind.IsWord text := by
  have hchar (c : Char) : kind.admits c = true ↔
      ('a' ≤ c ∧ c ≤ 'z') ∨ ('0' ≤ c ∧ c ≤ '9') ∨ (kind = .symbol ∧ c = '_') := by
    have hlower : c.isLower = (decide ('a' ≤ c) && decide (c ≤ 'z')) := rfl
    have hdigit : c.isDigit = (decide ('0' ≤ c) && decide (c ≤ '9')) := rfl
    simp [admits, hlower, hdigit, or_assoc]
  simp only [Allows, IsWord, hchar]

instance (kind : NameKind) (text : String) : Decidable (kind.IsWord text) :=
  decidable_of_iff _ NameKind.allows_iff_isWord

/-- What is wrong with an entry that is no transition between declared names: first the number of
its fields, then the source, the symbol and the target. -/
inductive TransitionFault (states symbols : List String) (entry : String) : Rejection → Prop
  | fields (h : ∀ source symbol target, ¬ JoinedBy '>' entry [source, symbol, target]) :
    TransitionFault states symbols entry .malformedInput
  | source {source symbol target : String} (h : JoinedBy '>' entry [source, symbol, target])
    (hs : source ∉ states) : TransitionFault states symbols entry (.undefinedState source)
  | symbol {source symbol target : String} (h : JoinedBy '>' entry [source, symbol, target])
    (hs : source ∈ states) (ha : symbol ∉ symbols) :
    TransitionFault states symbols entry (.undefinedSymbol symbol)
  | target {source symbol target : String} (h : JoinedBy '>' entry [source, symbol, target])
    (hs : source ∈ states) (ha : symbol ∈ symbols) (ht : target ∉ states) :
    TransitionFault states symbols entry (.undefinedState target)

/-- The entries of a description, section by section. -/
abbrev Contents := Section → List String

namespace Contents

/-- The contents with these entries. -/
def of (states alphabet initial final transitions : List String) : Contents
  | .states => states
  | .alphabet => alphabet
  | .initial => initial
  | .final => final
  | .transitions => transitions

/-- The lines that have exactly these entries: one line for each section and no other. -/
def WrittenIn (contents : Contents) (lines : List String) : Prop :=
  lines.length = 5 ∧ ∀ s : Section, s.Lists lines (contents s)

/-- One looks at the sections one by one. -/
instance (contents : Contents) (lines : List String) : Decidable (contents.WrittenIn lines) :=
  decidable_of_iff (lines.length = 5 ∧ ∀ s ∈ Section.all, s.Lists lines (contents s))
    (and_congr_right fun _ => ⟨fun h s => h s (by cases s <;> decide), fun h s _ => h s⟩)

/-- The same entries in each section, whatever their order and repetition. -/
def SameEntries (contents others : Contents) : Prop :=
  ∀ s entry, entry ∈ contents s ↔ entry ∈ others s

/-- The entries agree with one another: names are words, one declared state is initial, and final
states and the three fields of each transition are declared. -/
structure Grammatical (contents : Contents) : Prop where
  states : ∀ name ∈ contents .states, NameKind.state.IsWord name
  alphabet : ∀ name ∈ contents .alphabet, NameKind.symbol.IsWord name
  initial : ∃ name ∈ contents .states, name ∈ contents .initial ∧
    ∀ other ∈ contents .initial, other = name
  final : ∀ name ∈ contents .final, name ∈ contents .states
  transitions : ∀ entry ∈ contents .transitions,
    ∃ source ∈ contents .states, ∃ symbol ∈ contents .alphabet, ∃ target ∈ contents .states,
      JoinedBy '>' entry [source, symbol, target]

theorem WrittenIn.unique {contents others : Contents} {lines : List String}
    (h : contents.WrittenIn lines) (h' : others.WrittenIn lines) : contents = others :=
  funext fun s => (h.2 s).unique (h'.2 s)

theorem SameEntries.symm {contents others : Contents} (h : contents.SameEntries others) :
    others.SameEntries contents := fun s entry => (h s entry).symm

/-- Being grammatical is about the sets of entries. -/
theorem Grammatical.of_same_entries {contents others : Contents} (g : contents.Grammatical)
    (h : contents.SameEntries others) : others.Grammatical where
  states := by simpa only [h _ _] using g.states
  alphabet := by simpa only [h _ _] using g.alphabet
  initial := by simpa only [h _ _] using g.initial
  final := by simpa only [h _ _] using g.final
  transitions := by simpa only [h _ _] using g.transitions

end Contents

end AutomatonCheck
