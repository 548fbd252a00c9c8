import AutomatonCheck.Proofs.CheckOutcome
import AutomatonCheck.Proofs.Listings

/-!
# Renamed descriptions

A renaming replaces each state name by another and each symbol by another, in all five
lines and with every empty piece left in its place. A text that names both a state and a
symbol is replaced in each role on its own. If different declared names stay different,
duplicates collapse in the same places and each name is found where the old one was. So
the renamed description has the same indices, hence the same graphs and the same check.
-/
namespace AutomatonCheck

variable {kind : NameKind} {roster renamed : Roster kind} {f : String → String}
  {lines : List String} {automaton : Automaton} {contents : Contents}

theorem NameKind.IsWord.not_mem {text : String} (h : kind.IsWord text) {c : Char}
    (hc : kind.admits c = false) : c ∉ text.toList :=
  (⟨text, NameKind.allows_iff_isWord.2 h⟩ : Name kind).not_mem_text hc

namespace Roster

/-- The map sends the names of the roster to names of the same kind, no two of them to one. -/
structure RenamedBy (roster : Roster kind) (f : String → String) : Prop where
  isWord : ∀ text ∈ roster.texts, kind.IsWord (f text)
  injective : ∀ text ∈ roster.texts, ∀ other ∈ roster.texts, f text = f other → text = other

theorem RenamedBy.exists_texts_eq (h : roster.RenamedBy f) :
    ∃ renamed : Roster kind, renamed.texts = roster.texts.map f := by
  have hwords : ∀ text ∈ roster.texts.map f, kind.IsWord text := by
    intro text htext
    obtain ⟨old, hold, rfl⟩ := List.mem_map.1 htext
    exact h.isWord old hold
  obtain ⟨renamed, hrenamed⟩ := exists_roster hwords
  have hnodup : (roster.texts.map f).Nodup :=
    roster.nodup_texts.map_on fun text htext other hother => h.injective text htext other hother
  rw [eraseDups_of_nodup hnodup] at hrenamed
  exact ⟨renamed, hrenamed⟩

theorem size_of_texts_eq (h : renamed.texts = roster.texts.map f) : renamed.size = roster.size := by
  simpa [texts, size] using congrArg List.length h

/-- A renamed roster has the new names at the positions of the old ones. -/
theorem Names.rename {i : Nat} {text : String} (hn : roster.Names i text)
    (h : renamed.texts = roster.texts.map f) : renamed.Names i (f text) := by
  rw [names_iff_getElem?] at hn ⊢
  rw [h, List.getElem?_map, hn, Option.map_some]

end Roster

/-- New names for states and for symbols. -/
structure Renaming where
  state : String → String
  symbol : String → String

namespace Renaming

variable {r : Renaming}

/-- A transition entry with its three fields renamed. -/
def onTransition (r : Renaming) (entry : String) : String :=
  match fields entry with
  | [source, symbol, target] => r.state source ++ ">" ++ r.symbol symbol ++ ">" ++ r.state target
  | _ => entry

/-- What an entry of a section is replaced by. -/
def onEntry (r : Renaming) : Section → String → String
  | .states | .initial | .final => r.state
  | .alphabet => r.symbol
  | .transitions => r.onTransition

/-- What a piece between commas is replaced by. -/
def onPiece (r : Renaming) (s : Section) (piece : String) : String :=
  if piece = "" then "" else r.onEntry s piece

/-- The renamed line of a section; one that is misshapen stays as it is. -/
def onLine (r : Renaming) (s : Section) (line : String) : String :=
  match s.body? line with
  | none => line
  | some body => s.lineOf (((body.splitOn ',').map String.ofList).map (r.onPiece s))

/-- The five lines of a description with all names replaced. -/
def onLines (r : Renaming) (lines : List String) : List String :=
  List.zipWith r.onLine Section.all lines

/-- The entries of a description with all names replaced. -/
def onContents (r : Renaming) (contents : Contents) : Contents :=
  fun s => (contents s).map (r.onEntry s)

/-- The renaming gives new names to the states and to the symbols that an automaton declares. -/
structure Suits (r : Renaming) (automaton : Automaton) : Prop where
  states : automaton.states.RenamedBy r.state
  alphabet : automaton.alphabet.RenamedBy r.symbol

theorem onLine_of_joinedBy {s : Section} {body : String} {pieces : List String}
    (h : JoinedBy ',' body pieces) :
    r.onLine s (s.opening ++ body ++ "]") = s.lineOf (pieces.map (r.onPiece s)) := by
  have hbody : s.body? (s.opening ++ body ++ "]") = some body.toList := by
    rw [Section.body?_eq_some_iff, String.ofList_toList]
  simp only [onLine, hbody, joinedBy_iff.1 h]

/-- The fields of a renamed transition are words, so the entry is cut where it was. -/
theorem joinedBy_onTransition {entry source symbol target : String}
    (h : JoinedBy '>' entry [source, symbol, target])
    (hs : NameKind.state.IsWord (r.state source)) (ha : NameKind.symbol.IsWord (r.symbol symbol))
    (ht : NameKind.state.IsWord (r.state target)) :
    JoinedBy '>' (r.onTransition entry) [r.state source, r.symbol symbol, r.state target] where
  nonempty := by simp
  separate := by
    intro piece hp
    simp only [List.mem_cons, List.not_mem_nil, or_false] at hp
    rcases hp with rfl | rfl | rfl
    · exact hs.not_mem (by decide)
    · exact ha.not_mem (by decide)
    · exact ht.not_mem (by decide)
  joined := by
    have hfields : fields entry = [source, symbol, target] := joinedBy_iff.1 h
    rw [← String.toList_inj]
    simp [onTransition, hfields]

theorem Suits.writtenAs {states : Roster .state} {alphabet : Alphabet} (hr : r.Suits automaton)
    (hs : states.texts = automaton.states.texts.map r.state)
    (ha : alphabet.texts = automaton.alphabet.texts.map r.symbol) {t : Transition}
    {entry : String} (h : t.WrittenAs automaton.states automaton.alphabet entry) :
    t.WrittenAs states alphabet (r.onTransition entry) := by
  obtain ⟨source, symbol, target, hj, hsource, hsymbol, htarget⟩ := h
  have hsource' := hr.states.isWord source (Roster.exists_names_iff_mem.1 ⟨_, hsource⟩)
  have hsymbol' := hr.alphabet.isWord symbol (Roster.exists_names_iff_mem.1 ⟨_, hsymbol⟩)
  have htarget' := hr.states.isWord target (Roster.exists_names_iff_mem.1 ⟨_, htarget⟩)
  exact ⟨_, _, _, joinedBy_onTransition hj hsource' hsymbol' htarget', hsource.rename hs,
    hsymbol.rename ha, htarget.rename hs⟩

section Declared

variable (hr : r.Suits automaton) (hd : contents.Describes automaton)

include hr hd

theorem Suits.isWord_state {name : String} (hn : name ∈ contents .states) :
    NameKind.state.IsWord (r.state name) :=
  hr.states.isWord name (hd.mem_states_iff.1 hn)

theorem Suits.isWord_symbol {name : String} (hn : name ∈ contents .alphabet) :
    NameKind.symbol.IsWord (r.symbol name) :=
  hr.alphabet.isWord name (hd.mem_alphabet_iff.1 hn)

/-- No renamed entry is empty or has a comma in it. -/
theorem Suits.onEntry_separate (hg : contents.Grammatical) (s : Section) :
    ∀ entry ∈ contents s, r.onEntry s entry ≠ "" ∧ ',' ∉ (r.onEntry s entry).toList := by
  have hstate {name : String} (hn : name ∈ contents .states) :
      r.state name ≠ "" ∧ ',' ∉ (r.state name).toList :=
    ⟨(hr.isWord_state hd hn).1, (hr.isWord_state hd hn).not_mem (by decide)⟩
  intro entry hentry
  cases s with
  | states => exact hstate hentry
  | alphabet =>
    exact ⟨(hr.isWord_symbol hd hentry).1, (hr.isWord_symbol hd hentry).not_mem (by decide)⟩
  | initial =>
    obtain ⟨name, hname, -, hsole⟩ := hg.initial
    rw [hsole entry hentry]
    exact hstate hname
  | final => exact hstate (hg.final entry hentry)
  | transitions =>
    obtain ⟨source, hs, symbol, ha, target, ht, hj⟩ := hg.transitions entry hentry
    have hfields : fields entry = [source, symbol, target] := joinedBy_iff.1 hj
    have hsymbol := (hr.isWord_symbol hd ha).not_mem (c := ',') (by decide)
    simp [onEntry, onTransition, hfields, (hstate hs).2, hsymbol, (hstate ht).2]

theorem Suits.spells_onLine (hg : contents.Grammatical) {s : Section} {line : String}
    (h : s.Spells line (contents s)) : s.Spells (r.onLine s line) (r.onContents contents s) := by
  obtain ⟨body, pieces, rfl, hj, hentries⟩ := h
  have hpieces (piece : String) (hp : piece ∈ pieces) (hne : piece ≠ "") :
      piece ∈ contents s := by
    rw [hentries, List.mem_filter]
    exact ⟨hp, by simpa using hne⟩
  have hsame : ∀ entry ∈ contents s, r.onEntry s entry = r.onPiece s entry := by
    intro entry hentry
    have hne : entry ≠ "" := by
      rw [hentries, List.mem_filter] at hentry
      simpa using hentry.2
    simp [onPiece, hne]
  have hempty : ∀ piece ∈ pieces, piece = "" ↔ r.onPiece s piece = "" := by
    intro piece hp
    by_cases hne : piece = ""
    · simp [onPiece, hne]
    · simpa [onPiece, hne] using (hr.onEntry_separate hd hg s piece (hpieces piece hp hne)).1
  rw [onLine_of_joinedBy hj]
  refine ⟨_, _, rfl, ⟨by simpa using hj.nonempty, ?_, rfl⟩, ?_⟩
  · intro piece hp
    obtain ⟨old, hold, rfl⟩ := List.mem_map.1 hp
    by_cases hne : old = ""
    · simp [onPiece, hne]
    · simpa [onPiece, hne] using (hr.onEntry_separate hd hg s old (hpieces old hold hne)).2
  · calc r.onContents contents s
      _ = (contents s).map (r.onPiece s) := List.map_congr_left hsame
      _ = (pieces.filter (· ≠ "")).map (r.onPiece s) := by rw [hentries]
      _ = (pieces.map (r.onPiece s)).filter (· ≠ "") := by
        rw [List.filter_map]
        congr 1
        exact List.filter_congr fun piece hp => by simpa using hempty piece hp

theorem Suits.writtenIn (hg : contents.Grammatical) (hw : contents.WrittenIn lines) :
    (r.onContents contents).WrittenIn (r.onLines lines) := by
  refine ⟨by simp [onLines, Section.all, hw.1], ?_⟩
  intro s
  obtain ⟨line, hline, hspells⟩ := hw.2 s
  have hplace : Section.all[s.place]? = some s := by cases s <;> rfl
  exact ⟨r.onLine s line, by simp [onLines, List.getElem?_zipWith, hplace, hline],
    hr.spells_onLine hd hg hspells⟩

end Declared

/-- The other automaton differs in its names only, and these are the new ones in the old places. -/
structure Renames (r : Renaming) (automaton renamed : Automaton) : Prop where
  states : renamed.states.texts = automaton.states.texts.map r.state
  alphabet : renamed.alphabet.texts = automaton.alphabet.texts.map r.symbol
  initial : renamed.initial = automaton.initial
  finals : renamed.finals = automaton.finals
  transitions : renamed.transitions = automaton.transitions

/-- A renamed description is read with the same indices. -/
theorem Suits.exists_readAutomaton (hr : r.Suits automaton)
    (h : readAutomaton lines = .ok automaton) :
    ∃ renamed, readAutomaton (r.onLines lines) = .ok renamed ∧ r.Renames automaton renamed := by
  obtain ⟨contents, hw⟩ := exists_writtenIn h
  obtain ⟨hg, hd⟩ := (readAutomaton_iff_describes hw).1 h
  obtain ⟨-, -, ⟨hne, hi⟩, ⟨hfdecl, hincr, hf⟩, ht⟩ := (readAutomaton_iff_readings hw).1 h
  obtain ⟨states, hs⟩ := hr.states.exists_texts_eq
  obtain ⟨alphabet, ha⟩ := hr.alphabet.exists_texts_eq
  refine ⟨⟨states, alphabet, automaton.initial, automaton.finals, automaton.transitions⟩,
    (readAutomaton_iff_readings (hr.writtenIn hd hg hw)).2 ⟨⟨?_, ?_⟩, ⟨?_, ?_⟩, ⟨?_, ?_⟩,
      ⟨?_, hincr, ?_⟩, ?_⟩, ⟨hs, ha, rfl, rfl, rfl⟩⟩
  · intro name hname
    obtain ⟨old, hold, rfl⟩ := List.mem_map.1 hname
    exact hr.isWord_state hd hold
  · show states.texts = ((contents .states).map r.state).eraseDups
    rw [hs, hd.states]
    refine (eraseDups_map _ fun name hname other hother => ?_).symm
    exact hr.states.injective name (hd.mem_states_iff.1 hname) other (hd.mem_states_iff.1 hother)
  · intro name hname
    obtain ⟨old, hold, rfl⟩ := List.mem_map.1 hname
    exact hr.isWord_symbol hd hold
  · show alphabet.texts = ((contents .alphabet).map r.symbol).eraseDups
    rw [ha, hd.alphabet]
    refine (eraseDups_map _ fun name hname other hother => ?_).symm
    exact hr.alphabet.injective name (hd.mem_alphabet_iff.1 hname) other
      (hd.mem_alphabet_iff.1 hother)
  · simpa [onContents] using hne
  · intro name hname
    obtain ⟨old, hold, rfl⟩ := List.mem_map.1 hname
    exact (hi old hold).rename hs
  · intro name hname
    obtain ⟨old, hold, rfl⟩ := List.mem_map.1 hname
    obtain ⟨q, hq⟩ := Roster.exists_names_iff_mem.2 (hfdecl old hold)
    exact Roster.exists_names_iff_mem.1 ⟨q, hq.rename hs⟩
  · intro q
    rw [hf]
    constructor
    · intro hex
      obtain ⟨name, hname, hq⟩ := hex
      exact ⟨r.state name, List.mem_map_of_mem hname, hq.rename hs⟩
    · intro hex
      obtain ⟨name, hname, hq⟩ := hex
      obtain ⟨old, hold, rfl⟩ := List.mem_map.1 hname
      obtain ⟨p, hp⟩ := Roster.exists_names_iff_mem.2 (hfdecl old hold)
      have hqp : q = p := hq.unique_position (hp.rename hs)
      exact ⟨old, hold, by rw [hqp]; exact hp⟩
  · show List.Forall₂ _ ((contents .transitions).map r.onTransition) automaton.transitions
    rw [List.forall₂_map_left_iff]
    exact ht.imp fun _ _ hwritten => hr.writtenAs hs ha hwritten

theorem Renames.ofAutomaton?_eq {renamed : Automaton} (h : r.Renames automaton renamed) :
    Inspection.ofAutomaton? renamed = Inspection.ofAutomaton? automaton := by
  have hsize : renamed.size = automaton.size := Roster.size_of_texts_eq h.states
  have hsymbols : renamed.alphabet.size = automaton.alphabet.size :=
    Roster.size_of_texts_eq h.alphabet
  simp only [Inspection.ofAutomaton?, TransitionTable.ofAutomaton?, Adjacency.linksOf?, hsize,
    hsymbols, h.initial, h.transitions]

/-- Names play no part in what is left behind once the automaton has been read. -/
theorem Renames.announce_bind_validate {renamed : Automaton} (h : r.Renames automaton renamed) :
    (renamed.announce >>= validate) = automaton.announce >>= validate := by
  have hsize : renamed.states.size = automaton.states.size := Roster.size_of_texts_eq h.states
  have hsymbols : renamed.alphabet.size = automaton.alphabet.size :=
    Roster.size_of_texts_eq h.alphabet
  simp only [Automaton.announce, validate, inspect, bind_assoc, pure_bind, hsize, hsymbols, h.finals,
    h.transitions, h.ofAutomaton?_eq]

end Renaming

/-- Replacing every state name and every symbol, different ones by different ones, changes nothing
but the names: the description is parsed with the same indices, graphs and warnings, and its check
leaves the same behind. -/
theorem parse_renamed {r : Renaming} {before : Warnings}
    (h : (parse lines before).result = .ok automaton) (hr : r.Suits automaton) :
    ∃ renamed inspection,
      (∀ warnings, (parse (r.onLines lines) warnings).result = .ok renamed) ∧
      r.Renames automaton renamed ∧
      Inspection.ofAutomaton? automaton = some inspection ∧
      Inspection.ofAutomaton? renamed = some inspection ∧
      (∀ warnings, (parse (r.onLines lines) warnings).warnings = (parse lines warnings).warnings) ∧
      check (r.onLines lines) = check lines := by
  rw [parse_eq_ok_iff] at h
  obtain ⟨renamed, hread, hrenames⟩ := hr.exists_readAutomaton h
  obtain ⟨inspection, hof, -⟩ := Inspection.exists_ofAutomaton? (inRange_of_readAutomaton h)
  refine ⟨renamed, inspection, fun _ => parse_eq_ok_iff.2 hread, hrenames, hof, ?_, ?_, ?_⟩
  · rw [hrenames.ofAutomaton?_eq, hof]
  · intro warnings
    rw [parse_warnings hread, parse_warnings h, hrenames.finals]
  · rw [check, check, checking, checking, parse_eq_announce hread, parse_eq_announce h,
      hrenames.announce_bind_validate]

/-- A name in both roles, declared twice as a state, and with an empty entry after it. -/
def tandemLines : List String :=
  ["states=[go,,stop,go]", "alpha=[go]", "init.st=[go]", "fin.st=[stop]", "trans=[go>go>stop]"]

/-- The two states swap their names, and the symbol takes one that no state can have. -/
def tandemRenaming : Renaming where
  state name := if name = "go" then "stop" else "go"
  symbol _ := "go_on"

theorem onLines_tandemLines : tandemRenaming.onLines tandemLines =
    ["states=[stop,,go,stop]", "alpha=[go_on]", "init.st=[stop]", "fin.st=[go]",
      "trans=[stop>go_on>go]"] := by
  decide +kernel

theorem exists_parse_tandemLines : ∃ automaton, (parse tandemLines .empty).result = .ok automaton ∧
    automaton.states.texts = ["go", "stop"] ∧ automaton.alphabet.texts = ["go"] := by
  have htexts : (parse tandemLines .empty).result.toOption.map (fun automaton : Automaton =>
      (automaton.states.texts, automaton.alphabet.texts)) = some (["go", "stop"], ["go"]) := by
    decide +kernel
  obtain ⟨automaton, hok, heq⟩ := Option.map_eq_some_iff.1 htexts
  obtain ⟨hs, ha⟩ := Prod.mk.inj heq
  exact ⟨automaton, toOption_eq_some_iff.1 hok, hs, ha⟩

theorem tandemRenaming_suits (hs : automaton.states.texts = ["go", "stop"])
    (ha : automaton.alphabet.texts = ["go"]) : tandemRenaming.Suits automaton where
  states := by
    refine ⟨?_, ?_⟩
    · rw [hs]
      simp only [List.forall_mem_cons, ← NameKind.allows_iff_isWord]
      decide
    · rw [hs]
      decide
  alphabet := by
    refine ⟨?_, ?_⟩
    · rw [ha]
      simp only [List.forall_mem_cons, ← NameKind.allows_iff_isWord]
      decide
    · rw [ha]
      decide

theorem tandem_renamed :
    ∃ automaton renamed, (parse tandemLines .empty).result = .ok automaton ∧
      tandemRenaming.Suits automaton ∧
      (parse ["states=[stop,,go,stop]", "alpha=[go_on]", "init.st=[stop]", "fin.st=[go]",
        "trans=[stop>go_on>go]"] .empty).result = .ok renamed ∧
      renamed.states.texts = ["stop", "go"] ∧ renamed.transitions = automaton.transitions ∧
      check (tandemRenaming.onLines tandemLines) = check tandemLines := by
  obtain ⟨automaton, h, hs, ha⟩ := exists_parse_tandemLines
  have hsuits := tandemRenaming_suits hs ha
  obtain ⟨renamed, -, hparse, hrenames, -, -, -, hcheck⟩ := parse_renamed h hsuits
  have hparse := hparse .empty
  rw [onLines_tandemLines] at hparse
  refine ⟨automaton, renamed, h, hsuits, hparse, ?_, hrenames.transitions, hcheck⟩
  rw [hrenames.states, hs]
  decide

end AutomatonCheck
