import AutomatonCheck.Proofs.UnusedNames

/-!
# Stable positions

A roster is filled name by name. What is no name and what was declared before leaves no gap,
so the position of a name is the number of names that are declared before it, and lookup by
text and by position invert each other. More names that are declared in the end move none of
those that have a position.
-/
namespace AutomatonCheck

/-- The words that have their first place in a list before that of a text. -/
def NameKind.wordsBefore (kind : NameKind) (found : List String) (text : String) :
    Finset String :=
  found.toFinset.filter fun word => kind.IsWord word ∧ found.idxOf word < found.idxOf text

section FirstPlace

variable {α : Type} [DecidableEq α] {x y : α} {before after : List α}

/-- What comes before the first place of an element is what stands in front of it. -/
theorem idxOf_lt_idxOf_iff_mem (hx : x ∉ before) :
    (before ++ x :: after).idxOf y < (before ++ x :: after).idxOf x ↔ y ∈ before := by
  rw [List.idxOf_append_of_notMem hx, List.idxOf_cons_self]
  by_cases hy : y ∈ before
  · rw [List.idxOf_append_of_mem hy]
    exact iff_of_true (List.idxOf_lt_length_of_mem hy) hy
  · rw [List.idxOf_append_of_notMem hy]
    exact iff_of_false (by omega) hy

/-- Without repetitions, an element has the place that is left by what is in front of it. -/
theorem getElem?_eraseDups (hx : x ∉ before) :
    (before ++ x :: after).eraseDups[before.eraseDups.length]? = some x := by
  have hkept : (x :: after).removeAll before = x :: after.removeAll before := by
    rw [List.removeAll, List.filter_cons_of_pos (by simpa using hx), List.removeAll]
  rw [List.eraseDups_append, hkept, List.eraseDups_cons, List.getElem?_append_right le_rfl,
    Nat.sub_self, List.getElem?_cons_zero]

end FirstPlace

/-- Without repetitions, a word has as many words in front of it as have their first places before
its own. -/
theorem NameKind.getElem?_card_wordsBefore {kind : NameKind} {found : List String} {text : String}
    (hfound : text ∈ found) (hword : kind.IsWord text) :
    (found.filter (kind.IsWord ·)).eraseDups[(kind.wordsBefore found text).card]? = some text := by
  obtain ⟨before, after, rfl, hnot⟩ := List.eq_append_cons_of_mem hfound
  have hbefore : kind.wordsBefore (before ++ text :: after) text =
      (before.filter (kind.IsWord ·)).toFinset := by
    ext word
    simp only [wordsBefore, idxOf_lt_idxOf_iff_mem hnot, Finset.mem_filter, List.mem_toFinset,
      List.mem_append, List.mem_filter, decide_eq_true_eq]
    tauto
  rw [hbefore, card_toFinset_eq_length_eraseDups, List.filter_append,
    List.filter_cons_of_pos (by simpa using hword)]
  apply getElem?_eraseDups
  intro hmem
  exact hnot (List.mem_of_mem_filter hmem)

namespace Roster

variable {kind : NameKind} {roster other : Roster kind} {found more : List String}

/-- The roster of those texts that are names. -/
def ofTexts (texts : List String) : Roster kind := .ofList (texts.filterMap Name.ofText?)

/-- The roster has a position for each word among the texts found: the number of words before it.
Lookup by text and by position invert each other, and there is nothing else to look up. -/
structure Numbers (roster : Roster kind) (found : List String) : Prop where
  get?_position? : ∀ text ∈ found, kind.IsWord text →
    ∃ i name, roster.position? text = some i ∧ roster.get? i = some name ∧ name.text = text
  position?_get? : ∀ i < roster.size,
    ∃ name, roster.get? i = some name ∧ roster.position? name.text = some i
  position?_eq_none : ∀ text, ¬ (text ∈ found ∧ kind.IsWord text) → roster.position? text = none
  get?_eq_none : ∀ i, ¬ i < roster.size → roster.get? i = none
  position?_eq_card : ∀ text ∈ found, kind.IsWord text →
    roster.position? text = some (kind.wordsBefore found text).card

/-- Each name has the same position in the other roster. -/
structure KeptIn (roster other : Roster kind) : Prop where
  position? : ∀ text i, roster.position? text = some i → other.position? text = some i
  get? : ∀ i < roster.size, other.get? i = roster.get? i

theorem map_text_filterMap (texts : List String) :
    (texts.filterMap (Name.ofText? : String → Option (Name kind))).map Name.text =
      texts.filter (kind.IsWord ·) := by
  induction texts with
  | nil => rfl
  | cons text rest ih =>
    by_cases hword : kind.IsWord text
    · have hname : Name.ofText? text = some ⟨text, NameKind.allows_iff_isWord.2 hword⟩ :=
        Name.ofText?_eq_some_iff.2 rfl
      rw [List.filterMap_cons_some hname, List.map_cons, ih,
        List.filter_cons_of_pos (by simpa using hword)]
    · have hname : (Name.ofText? text : Option (Name kind)) = none := by
        rw [Name.ofText?_eq_none_iff, NameKind.allows_iff_isWord]
        exact hword
      rw [List.filterMap_cons_none hname, ih, List.filter_cons_of_neg (by simpa using hword)]

theorem texts_ofTexts (found : List String) :
    (ofTexts found : Roster kind).texts = (found.filter (kind.IsWord ·)).eraseDups := by
  rw [ofTexts, texts_ofList, map_text_filterMap]

/-- Where all that is found is declared, the roster is the one of what is found. -/
theorem eq_ofTexts (hwords : ∀ text ∈ found, kind.IsWord text)
    (h : roster.texts = found.eraseDups) : roster = ofTexts found := by
  apply ext_texts
  rw [h, texts_ofTexts, List.filter_eq_self.2 (by simpa using hwords)]

theorem mem_texts_ofTexts {text : String} :
    text ∈ (ofTexts found : Roster kind).texts ↔ text ∈ found ∧ kind.IsWord text := by
  rw [texts_ofTexts, List.mem_eraseDups, List.mem_filter, decide_eq_true_eq]

theorem numbers_ofTexts (found : List String) : (ofTexts found : Roster kind).Numbers found where
  get?_position? := by
    intro text hfound hword
    obtain ⟨i, hi⟩ := exists_names_iff_mem.2 (mem_texts_ofTexts.2 ⟨hfound, hword⟩)
    obtain ⟨name, hname, htext⟩ := hi
    exact ⟨i, name, position?_eq_some_iff.2 ⟨name, hname, htext⟩, hname, htext⟩
  position?_get? := by
    intro i hi
    obtain ⟨name, hname, htext⟩ := names_textAt hi
    exact ⟨name, hname, position?_eq_some_iff.2 ⟨name, hname, rfl⟩⟩
  position?_eq_none := by
    intro text hnot
    rw [position?_eq_none_iff, mem_texts_ofTexts]
    exact hnot
  get?_eq_none := fun i hi => List.getElem?_eq_none (Nat.le_of_not_lt hi)
  position?_eq_card := by
    intro text hfound hword
    rw [position?_eq_some_iff, names_iff_getElem?, texts_ofTexts]
    exact NameKind.getElem?_card_wordsBefore hfound hword

theorem Names.of_isPrefix {i : Nat} {text : String} (hn : roster.Names i text)
    (h : roster.texts <+: other.texts) : other.Names i text := by
  rw [names_iff_getElem?] at hn ⊢
  obtain ⟨rest, hrest⟩ := h
  rw [← hrest, List.getElem?_append_left (List.getElem?_eq_some_iff.1 hn).1]
  exact hn

theorem keptIn_of_isPrefix (h : roster.texts <+: other.texts) : roster.KeptIn other where
  position? := by
    intro text i hi
    rw [position?_eq_some_iff] at hi ⊢
    exact hi.of_isPrefix h
  get? := by
    intro i hi
    obtain ⟨name, hname, htext⟩ := names_textAt hi
    obtain ⟨name', hname', htext'⟩ := (names_textAt hi).of_isPrefix h
    rw [hname, hname', Name.ext (htext'.trans htext.symm)]

theorem keptIn_ofTexts_append (found more : List String) :
    (ofTexts found : Roster kind).KeptIn (ofTexts (found ++ more)) := by
  apply keptIn_of_isPrefix
  rw [texts_ofTexts, texts_ofTexts, List.filter_append, List.eraseDups_append]
  exact List.prefix_append _ _

end Roster

namespace Contents

variable {contents others : Contents} {kind : NameKind} {more : List String}

/-- The other contents declare more names of a kind after those there are, and are the same in all
other sections. -/
structure Appends (contents : Contents) (kind : NameKind) (more : List String)
    (others : Contents) : Prop where
  words : ∀ name ∈ more, kind.IsWord name
  appended : others kind.declaredIn = contents kind.declaredIn ++ more
  same : ∀ s, s ≠ kind.declaredIn → others s = contents s

theorem Appends.declaresMore (h : contents.Appends kind more others) :
    contents.DeclaresMore kind others where
  kept := by
    rw [h.appended]
    exact List.subset_append_left _ _
  added := by
    intro name hname
    rw [h.appended, List.mem_append] at hname
    exact hname.imp_right (h.words name)
  same := h.same

end Contents

theorem states_eq_ofTexts {lines : List String} {automaton : Automaton} {contents : Contents}
    (hw : contents.WrittenIn lines) (h : readAutomaton lines = .ok automaton) :
    automaton.states = .ofTexts (contents .states) := by
  obtain ⟨hg, hd⟩ := (readAutomaton_iff_describes hw).1 h
  exact Roster.eq_ofTexts hg.states hd.states

/-- Positions and lookup invert each other on the names among any texts and on the states of a
parsed description. A position is the number of names before, and neither further texts nor further
declared states change those there are. -/
theorem positions_are_stable :
    (∀ (kind : NameKind) (found more : List String),
      (Roster.ofTexts found : Roster kind).Numbers found ∧
        (Roster.ofTexts found : Roster kind).KeptIn (.ofTexts (found ++ more))) ∧
    ∀ (lines : List String) (before : Warnings) (automaton : Automaton),
      (parse lines before).result = .ok automaton →
      ∃ contents : Contents, contents.WrittenIn lines ∧
        automaton.states.Numbers (contents .states) ∧
        ∀ (more : List String) (others : Contents) (lines' : List String),
          contents.Appends .state more others → others.WrittenIn lines' →
          ∃ automaton', (∀ warnings, (parse lines' warnings).result = .ok automaton') ∧
            automaton'.states.Numbers (others .states) ∧
            automaton.states.KeptIn automaton'.states := by
  refine ⟨fun kind found more =>
    ⟨Roster.numbers_ofTexts found, Roster.keptIn_ofTexts_append found more⟩, ?_⟩
  intro lines before automaton h
  rw [parse_eq_ok_iff] at h
  obtain ⟨contents, hw⟩ := exists_writtenIn h
  refine ⟨contents, hw, ?_, ?_⟩
  · rw [states_eq_ofTexts hw h]
    exact Roster.numbers_ofTexts _
  · intro more others lines' happ hw'
    have hg' : others.Grammatical :=
      happ.declaresMore.grammatical ((readAutomaton_iff_describes hw).1 h).1
    obtain ⟨automaton', hok⟩ := hg'.exists_parse hw'
    have h' : readAutomaton lines' = .ok automaton' := parse_eq_ok_iff.1 (hok .empty)
    refine ⟨automaton', hok, ?_, ?_⟩
    · rw [states_eq_ofTexts hw' h']
      exact Roster.numbers_ofTexts _
    · have happended : others .states = contents .states ++ more := happ.appended
      rw [states_eq_ofTexts hw h, states_eq_ofTexts hw' h', happended]
      exact Roster.keptIn_ofTexts_append _ _

/-- Symbols with a repetition and a text that is none between them, and a lamp that gets a third
state. -/
theorem lamp_positions_are_stable :
    (Roster.ofTexts ["y", "no-name", "y", "x"] : Alphabet).position? "x" = some 1 ∧
      ∃ automaton automaton' : Automaton,
        (parse (lampWith "on,off" "go") .empty).result = .ok automaton ∧
        (parse (lampWith "on,off,on,dim" "go") .empty).result = .ok automaton' ∧
        automaton.states.position? "off" = some 1 ∧
        automaton'.states.position? "off" = some 1 ∧
        automaton'.states.position? "dim" = some 2 := by
  have hw : (lampDeclaring ["on", "off"] ["go"]).WrittenIn (lampWith "on,off" "go") := by
    decide +kernel
  have hw' : (lampDeclaring ["on", "off", "on", "dim"] ["go"]).WrittenIn
      (lampWith "on,off,on,dim" "go") := by
    decide +kernel
  have happ : (lampDeclaring ["on", "off"] ["go"]).Appends .state ["on", "dim"]
      (lampDeclaring ["on", "off", "on", "dim"] ["go"]) := by
    constructor
    case words => decide
    case appended => rfl
    case same => exact lampDeclaring_of_ne _ _ _
  obtain ⟨automaton, h⟩ := exists_parse_lampWith
  obtain ⟨hsymbols, hstates⟩ := positions_are_stable
  refine ⟨?_, ?_⟩
  · exact (hsymbols .symbol ["y", "no-name", "y", "x"] []).1.position?_eq_card "x" (by decide)
      (by decide)
  · obtain ⟨contents, hwritten, hnumbers, happended⟩ := hstates _ _ automaton h
    rw [hwritten.unique hw] at hnumbers happended
    obtain ⟨automaton', hok', hnumbers', hkept⟩ := happended _ _ _ happ hw'
    have hoff : automaton.states.position? "off" = some 1 :=
      hnumbers.position?_eq_card "off" (by decide) (by decide)
    refine ⟨automaton, automaton', h, hok' .empty, hoff, hkept.position? _ _ hoff, ?_⟩
    exact hnumbers'.position?_eq_card "dim" (by decide) (by decide)

end AutomatonCheck
