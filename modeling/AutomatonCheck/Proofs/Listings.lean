import AutomatonCheck.Inspection
import AutomatonCheck.Proofs.Acceptance

/-!
# Listings as descriptions

A listing differs from a description in the words before its lines and in the brackets
around the initial state, so it can be rewritten line by line. Names have none of the
separators in them, hence the rewritten listing is cut where the listing was joined. It
declares each name once and in its place, and what the other lines name is found at the
same positions: the parser reads the automaton that was listed.
-/
namespace AutomatonCheck

variable {kind : NameKind} {roster : Roster kind} {automaton : Automaton}
  {contents : Contents} {c : Char} {lines : List String}

namespace Section

/-- The word before the section in a listing. -/
def caption : Section → String
  | .states => "states: "
  | .alphabet => "alphabet: "
  | .initial => "initial: "
  | .final => "final: "
  | .transitions => "transitions: "

/-- The word before the section's bracket in a description. -/
def keyword : Section → String
  | .states => "states="
  | .alphabet => "alpha="
  | .initial => "init.st="
  | .final => "fin.st="
  | .transitions => "trans="

/-- Rewrite a listing's line of the section. Only the initial state is listed without brackets. -/
def rewriteLine (s : Section) (line : String) : String :=
  let shown := String.ofList (line.toList.drop s.caption.toList.length)
  s.keyword ++ if s = .initial then "[" ++ shown ++ "]" else shown

/-- The line of a section that has just these entries, with a comma between each two. -/
def lineOf (s : Section) (found : List String) : String :=
  s.opening ++ ",".intercalate found ++ "]"

theorem opening_eq (s : Section) : s.opening = s.keyword ++ "[" := by cases s <;> decide

theorem rewriteLine_caption (s : Section) (shown : String) :
    s.rewriteLine (s.caption ++ shown) =
      s.keyword ++ if s = .initial then "[" ++ shown ++ "]" else shown := by
  simp [rewriteLine]

theorem lineOf_eq (s : Section) (found : List String) :
    s.lineOf found = s.keyword ++ bracketed "," found := by
  rw [lineOf, bracketed, opening_eq]
  simp only [String.append_assoc]

end Section

/-- The five lines of a description that say what a listing says. -/
def descriptionOf (listing : String) : List String :=
  List.zipWith Section.rewriteLine Section.all ((listing.toList.splitOn '\n').map String.ofList)

namespace Contents

/-- The lines that have just these entries. -/
def written (contents : Contents) : List String := Section.all.map fun s => s.lineOf (contents s)

end Contents

/-- The entries by which an automaton is listed. -/
def Automaton.listedEntries (automaton : Automaton) : Contents :=
  .of automaton.states.texts automaton.alphabet.texts
    [automaton.states.textAt automaton.initial] (automaton.finals.map automaton.states.textAt)
    (automaton.transitions.map automaton.showTransition)

section Characters

theorem not_mem_intercalate {separator : String} {texts : List String}
    (hs : c ∉ separator.toList) (ht : ∀ text ∈ texts, c ∉ text.toList) :
    c ∉ (separator.intercalate texts).toList := by
  induction texts with
  | nil => simp
  | cons text rest ih =>
    have hrest := ih fun other ho => ht other (by simp [ho])
    by_cases hnil : rest = []
    · simpa [hnil] using ht text (by simp)
    · rw [String.intercalate_cons_of_ne_nil hnil]
      simp only [String.toList_append, List.mem_append, not_or]
      exact ⟨⟨ht text (by simp), hs⟩, hrest⟩

theorem Roster.not_mem_texts (hc : kind.admits c = false) :
    ∀ text ∈ roster.texts, c ∉ text.toList := by
  intro text htext
  obtain ⟨name, -, rfl⟩ := List.mem_map.1 htext
  exact name.not_mem_text hc

theorem Automaton.not_mem_showTransition (automaton : Automaton) (t : Transition)
    (hs : NameKind.state.admits c = false) (ha : NameKind.symbol.admits c = false)
    (hq : c ≠ '?') (hangle : c ≠ '>') : c ∉ (automaton.showTransition t).toList := by
  have hsource := automaton.states.not_mem_textAt t.source hs hq
  have hsymbol := automaton.alphabet.not_mem_textAt t.symbol ha hq
  have htarget := automaton.states.not_mem_textAt t.target hs hq
  simp [Automaton.showTransition, hsource, hsymbol, htarget, hangle]

/-- A character that no name has, nor the question mark or the angle bracket, is in no entry. -/
theorem Automaton.not_mem_listedEntries (automaton : Automaton) (hs : NameKind.state.admits c = false)
    (ha : NameKind.symbol.admits c = false) (hq : c ≠ '?') (hangle : c ≠ '>') (s : Section) :
    ∀ entry ∈ automaton.listedEntries s, c ∉ entry.toList := by
  intro entry hentry
  cases s with
  | states => exact Roster.not_mem_texts hs entry hentry
  | alphabet => exact Roster.not_mem_texts ha entry hentry
  | initial =>
    rw [List.mem_singleton.1 hentry]
    exact automaton.states.not_mem_textAt _ hs hq
  | final =>
    obtain ⟨q, -, rfl⟩ := List.mem_map.1 hentry
    exact automaton.states.not_mem_textAt q hs hq
  | transitions =>
    obtain ⟨t, -, rfl⟩ := List.mem_map.1 hentry
    exact automaton.not_mem_showTransition t hs ha hq hangle

end Characters

/-- What a listing shows of a section. -/
def Automaton.shown (automaton : Automaton) (s : Section) : String :=
  if s = .initial then automaton.states.textAt automaton.initial
  else bracketed "," (automaton.listedEntries s)

theorem Automaton.listingLines_eq (automaton : Automaton) :
    automaton.listingLines = Section.all.map fun s => s.caption ++ automaton.shown s := rfl

theorem Automaton.not_mem_newline_shown (automaton : Automaton) (s : Section) :
    '\n' ∉ (automaton.shown s).toList := by
  have hentries : ∀ entry ∈ automaton.listedEntries s, '\n' ∉ entry.toList :=
    automaton.not_mem_listedEntries (by decide) (by decide) (by decide) (by decide) s
  by_cases hs : s = .initial
  · simp only [shown, if_pos hs]
    exact automaton.states.not_mem_textAt _ (by decide) (by decide)
  · have hjoined : '\n' ∉ (",".intercalate (automaton.listedEntries s)).toList :=
      not_mem_intercalate (by decide) hentries
    simpa [shown, hs, bracketed] using hjoined

/-- A listing is cut into its lines at the line feeds. -/
theorem Automaton.joinedBy_listing (automaton : Automaton) :
    JoinedBy '\n' automaton.listing automaton.listingLines where
  nonempty := by simp [listingLines]
  separate := by
    intro line hline
    rw [automaton.listingLines_eq, List.mem_map] at hline
    obtain ⟨s, -, rfl⟩ := hline
    have hcaption : '\n' ∉ s.caption.toList := by cases s <;> decide
    rw [String.toList_append, List.mem_append, not_or]
    exact ⟨hcaption, automaton.not_mem_newline_shown s⟩
  joined := rfl

theorem Section.rewriteLine_shown (s : Section) (automaton : Automaton) :
    s.rewriteLine (s.caption ++ automaton.shown s) = s.lineOf (automaton.listedEntries s) := by
  rw [rewriteLine_caption, lineOf_eq]
  cases s with
  | initial => simp [Automaton.shown, bracketed, Automaton.listedEntries, Contents.of]
  | _ => simp [Automaton.shown]

/-- Rewriting a listing gives the lines that have its entries. -/
theorem descriptionOf_listing (automaton : Automaton) :
    descriptionOf automaton.listing = automaton.listedEntries.written := by
  have hlines := joinedBy_iff.1 automaton.joinedBy_listing
  rw [descriptionOf, hlines, automaton.listingLines_eq, List.zipWith_map_right, List.zipWith_self]
  refine List.map_congr_left ?_
  intro s _
  exact s.rewriteLine_shown automaton

theorem Section.spells_lineOf {s : Section} {found : List String}
    (hne : ∀ entry ∈ found, entry ≠ "") (hcomma : ∀ entry ∈ found, ',' ∉ entry.toList) :
    s.Spells (s.lineOf found) found := by
  cases found with
  | nil => exact ⟨"", [""], by simp [lineOf], ⟨by simp, by simp, by simp⟩, by simp⟩
  | cons entry rest =>
    refine ⟨_, entry :: rest, rfl, ⟨by simp, hcomma, rfl⟩, ?_⟩
    rw [eq_comm, List.filter_eq_self]
    simpa using hne

/-- Entries without commas are read back from the lines that have them. -/
theorem Contents.writtenIn_written (hne : ∀ s, ∀ entry ∈ contents s, entry ≠ "")
    (hcomma : ∀ s, ∀ entry ∈ contents s, ',' ∉ entry.toList) :
    contents.WrittenIn contents.written := by
  refine ⟨rfl, ?_⟩
  intro s
  refine ⟨s.lineOf (contents s), ?_, Section.spells_lineOf (hne s) (hcomma s)⟩
  cases s <;> rfl

theorem Roster.ne_empty_of_mem_texts {text : String} (h : text ∈ roster.texts) : text ≠ "" := by
  obtain ⟨name, -, rfl⟩ := List.mem_map.1 h
  exact name.allowed.1

theorem Roster.textAt_ne_empty (roster : Roster kind) (i : Nat) : roster.textAt i ≠ "" := by
  cases hget : roster.get? i with
  | none => simp [textAt, hget]
  | some name => simpa [textAt, hget] using name.allowed.1

theorem Automaton.listedEntries_ne_empty (automaton : Automaton) (s : Section) :
    ∀ entry ∈ automaton.listedEntries s, entry ≠ "" := by
  intro entry hentry
  cases s with
  | states => exact Roster.ne_empty_of_mem_texts hentry
  | alphabet => exact Roster.ne_empty_of_mem_texts hentry
  | initial =>
    rw [List.mem_singleton.1 hentry]
    exact automaton.states.textAt_ne_empty _
  | final =>
    obtain ⟨q, -, rfl⟩ := List.mem_map.1 hentry
    exact automaton.states.textAt_ne_empty q
  | transitions =>
    obtain ⟨t, -, rfl⟩ := List.mem_map.1 hentry
    simp [Automaton.showTransition]

theorem Automaton.writtenIn_descriptionOf (automaton : Automaton) :
    automaton.listedEntries.WrittenIn (descriptionOf automaton.listing) := by
  rw [descriptionOf_listing]
  exact Contents.writtenIn_written automaton.listedEntries_ne_empty
    (automaton.not_mem_listedEntries (by decide) (by decide) (by decide) (by decide))

theorem eraseDups_of_nodup {α : Type} [DecidableEq α] {xs : List α} (h : xs.Nodup) :
    xs.eraseDups = xs := by
  induction xs with
  | nil => simp
  | cons x rest ih =>
    rw [List.nodup_cons] at h
    have hfresh : rest.filter (fun y => !y == x) = rest := by
      rw [List.filter_eq_self]
      intro y hy
      have hne : y ≠ x := fun he => h.1 (by rw [← he]; exact hy)
      simpa using hne
    rw [List.eraseDups_cons, hfresh, ih h.2]

theorem Roster.isWord_of_mem_texts {text : String} (h : text ∈ roster.texts) :
    kind.IsWord text := by
  obtain ⟨name, -, rfl⟩ := List.mem_map.1 h
  exact NameKind.allows_iff_isWord.1 name.allowed

theorem Roster.textAt_mem_texts {i : Nat} (h : i < roster.size) :
    roster.textAt i ∈ roster.texts :=
  exists_names_iff_mem.1 ⟨i, names_textAt h⟩

namespace Automaton

theorem InRange.grammatical (h : automaton.InRange) : automaton.listedEntries.Grammatical where
  states := fun _ hname => Roster.isWord_of_mem_texts hname
  alphabet := fun _ hname => Roster.isWord_of_mem_texts hname
  initial := ⟨automaton.states.textAt automaton.initial, Roster.textAt_mem_texts h.initial_lt,
    List.mem_singleton.2 rfl, fun _ hother => List.mem_singleton.1 hother⟩
  final := by
    intro name hname
    obtain ⟨q, hq, rfl⟩ := List.mem_map.1 hname
    exact Roster.textAt_mem_texts (h.finals_lt q hq)
  transitions := by
    intro entry hentry
    obtain ⟨t, ht, rfl⟩ := List.mem_map.1 hentry
    exact ⟨_, Roster.textAt_mem_texts (h.source_lt t ht),
      _, Roster.textAt_mem_texts (h.symbol_lt t ht),
      _, Roster.textAt_mem_texts (h.target_lt t ht), joinedBy_showTransition automaton t⟩

theorem InRange.describes (h : automaton.InRange) (hi : automaton.finals.Pairwise (· < ·)) :
    automaton.listedEntries.Describes automaton where
  states := (eraseDups_of_nodup automaton.states.nodup_texts).symm
  alphabet := (eraseDups_of_nodup automaton.alphabet.nodup_texts).symm
  initial := by
    intro name hname
    rw [List.mem_singleton.1 hname]
    exact Roster.names_textAt h.initial_lt
  increasing := hi
  finals := by
    intro q
    constructor
    · intro hq
      exact ⟨_, List.mem_map_of_mem hq, Roster.names_textAt (h.finals_lt q hq)⟩
    · intro hex
      obtain ⟨name, hname, hq⟩ := hex
      obtain ⟨p, hp, rfl⟩ := List.mem_map.1 hname
      rw [hq.unique_position (Roster.names_textAt (h.finals_lt p hp))]
      exact hp
  transitions := rfl

/-- An automaton in range is read back from its listing. -/
theorem InRange.readAutomaton_descriptionOf (h : automaton.InRange)
    (hi : automaton.finals.Pairwise (· < ·)) :
    readAutomaton (descriptionOf automaton.listing) = .ok automaton :=
  (readAutomaton_iff_describes automaton.writtenIn_descriptionOf).2 ⟨h.grammatical, h.describes hi⟩

end Automaton

theorem increasing_finals_of_readAutomaton (h : readAutomaton lines = .ok automaton) :
    automaton.finals.Pairwise (· < ·) := by
  obtain ⟨contents, hw⟩ := exists_writtenIn h
  exact ((readAutomaton_iff_describes hw).1 h).2.increasing

/-- Whatever is read is read back from its listing. -/
theorem readAutomaton_listing (h : readAutomaton lines = .ok automaton) :
    readAutomaton (descriptionOf automaton.listing) = .ok automaton :=
  (inRange_of_readAutomaton h).readAutomaton_descriptionOf (increasing_finals_of_readAutomaton h)

/-- A parsed automaton is read back from the description that its listing is rewritten to, with the
same warnings and events, and with the same check. So no other automaton has its listing. -/
theorem parse_listing {before : Warnings} (h : (parse lines before).result = .ok automaton) :
    (∀ warnings, (parse (descriptionOf automaton.listing) warnings).result = .ok automaton) ∧
      (∀ warnings, parse (descriptionOf automaton.listing) warnings = parse lines warnings) ∧
      check (descriptionOf automaton.listing) = check lines ∧
      ∀ (others : List String) (start : Warnings) (other : Automaton),
        (parse others start).result = .ok other → other.listing = automaton.listing →
          other = automaton := by
  rw [parse_eq_ok_iff] at h
  have hback := readAutomaton_listing h
  have hparse : parse (descriptionOf automaton.listing) = parse lines := by
    rw [parse_eq_announce hback, parse_eq_announce h]
  refine ⟨?_, ?_, ?_, ?_⟩
  · intro warnings
    exact parse_eq_ok_iff.2 hback
  · intro warnings
    rw [hparse]
  · rw [check, check, checking, checking, hparse]
  · intro others start other ho hlisting
    rw [parse_eq_ok_iff] at ho
    have hother := readAutomaton_listing ho
    rw [hlisting, hback] at hother
    exact (Except.ok.inj hother).symm

/-- A lamp with names declared twice, empty entries and final states out of order. -/
def crowdedLines : List String :=
  ["states=[,off,on,off]", "alpha=[go]", "init.st=[off,off]", "fin.st=[on,off,on]",
    "trans=[off>go>on,,on>go>on]"]

def crowdedListing : String :=
  "states: [off,on]\nalphabet: [go]\ninitial: off\nfinal: [off,on]\ntransitions: [off>go>on,on>go>on]"

theorem listing_crowdedLines : ∃ automaton, (parse crowdedLines .empty).result = .ok automaton ∧
    automaton.listing = crowdedListing := by
  have hlisting : (parse crowdedLines .empty).result.toOption.map Automaton.listing =
      some crowdedListing := by decide +kernel
  obtain ⟨automaton, hok, hshown⟩ := Option.map_eq_some_iff.1 hlisting
  exact ⟨automaton, toOption_eq_some_iff.1 hok, hshown⟩

theorem parse_crowdedListing :
    ∃ automaton, (parse crowdedLines .empty).result = .ok automaton ∧
      automaton.listing = crowdedListing ∧
      descriptionOf crowdedListing = ["states=[off,on]", "alpha=[go]", "init.st=[off]",
        "fin.st=[off,on]", "trans=[off>go>on,on>go>on]"] ∧
      (parse (descriptionOf crowdedListing) .empty).result = .ok automaton ∧
      check (descriptionOf crowdedListing) = check crowdedLines := by
  obtain ⟨automaton, h, hlisting⟩ := listing_crowdedLines
  obtain ⟨hback, -, hcheck, -⟩ := parse_listing h
  rw [hlisting] at hback hcheck
  exact ⟨automaton, h, hlisting, by decide +kernel, hback .empty, hcheck⟩

end AutomatonCheck
