import Mathlib.Data.List.Sort
import AutomatonCheck.Proofs.Grammar
import AutomatonCheck.Proofs.Positions

/-!
# What the readers accept

Each section's reader is characterised on both sides: the entries on which it yields a
value, and which value, and the entries on which it rejects, and with what. Final states
and the initial state are named, a transition is spelled by its three names, and lookup
in the rosters turns all of these into positions.
-/
namespace AutomatonCheck

variable {kind : NameKind} {s : Section} {lines found : List String} {rejection : Rejection}
  {states : Roster .state} {alphabet : Alphabet}

theorem readName_eq_ok_iff {entry : String} {name : Name kind} :
    readName kind s entry = .ok name ↔ name.text = entry := by
  unfold readName
  rw [← Name.ofText?_eq_some_iff]
  cases Name.ofText? entry <;> simp

theorem rejects_readName {entry : String} :
    Rejects (readName kind s entry) rejection ↔
      ¬ kind.IsWord entry ∧ rejection = .malformedInput := by
  unfold readName
  rw [← NameKind.allows_iff_isWord, ← Name.ofText?_eq_none_iff]
  cases Name.ofText? entry <;> simp [Violation.rejection, eq_comm]

/-- The roster of a section holds the distinct entries, all of which are words. -/
theorem readRoster_eq_ok_iff {roster : Roster kind} :
    readRoster kind s lines = .ok roster ↔
      ∃ found, s.Lists lines found ∧ (∀ entry ∈ found, kind.IsWord entry) ∧
        roster.texts = found.eraseDups := by
  have hnames (found : List String) (names : List (Name kind)) :
      List.Forall₂ (fun entry name => readName kind s entry = .ok name) found names ↔
        names.map Name.text = found := by
    simp only [readName_eq_ok_iff]
    rw [← List.forall₂_eq_eq_eq, List.forall₂_map_left_iff]
    exact ⟨List.Forall₂.flip, List.Forall₂.flip⟩
  simp only [readRoster, bind_eq_ok_iff, Section.read_eq_ok_iff, mapM_eq_ok_iff, hnames]
  constructor
  · intro h
    obtain ⟨found, hfound, names, rfl, h⟩ := h
    cases h
    refine ⟨_, hfound, ?_, Roster.texts_ofList names⟩
    intro entry he
    obtain ⟨name, -, rfl⟩ := List.mem_map.1 he
    exact NameKind.allows_iff_isWord.1 name.allowed
  · intro h
    obtain ⟨found, hfound, hwords, htexts⟩ := h
    obtain ⟨names, hnames'⟩ := exists_forall₂
      (r := fun entry (name : Name kind) => readName kind s entry = .ok name) fun entry he =>
        ⟨⟨entry, NameKind.allows_iff_isWord.2 (hwords entry he)⟩, readName_eq_ok_iff.2 rfl⟩
    obtain rfl := (hnames found names).1 hnames'
    refine ⟨_, hfound, names, rfl, ?_⟩
    rw [← Roster.texts_ofList] at htexts
    rw [Roster.ext_texts htexts]
    rfl

theorem rejects_readRoster :
    Rejects (readRoster kind s lines) rejection ↔
      rejection = .malformedInput ∧ (s.Misshapen lines ∨
        ∃ found, s.Lists lines found ∧ ∃ entry ∈ found, ¬ kind.IsWord entry) := by
  have hpure (names : List (Name kind)) :
      ¬ Rejects (pure (Roster.ofList names) : Except Violation (Roster kind)) rejection :=
    not_rejects_ok _ _
  simp only [readRoster, rejects_bind, Section.rejects_read, Section.read_eq_ok_iff, rejects_mapM,
    rejects_readName, hpure, and_false, exists_false, or_false]
  constructor
  · intro h
    rcases h with ⟨hm, hr⟩ | ⟨found, hfound, entry, hleft, hword, hr⟩
    · exact ⟨hr, .inl hm⟩
    · exact ⟨hr, .inr ⟨found, hfound, entry, hleft.mem, hword⟩⟩
  · intro h
    obtain ⟨hr, hm | ⟨found, hfound, entry, he, hword⟩⟩ := h
    · exact .inl ⟨hm, hr⟩
    · obtain ⟨first, hfirst⟩ := exists_leftmost (p := fun entry => ∃ r : Rejection,
        ¬ kind.IsWord entry ∧ r = .malformedInput) ⟨entry, he, _, hword, rfl⟩
      obtain ⟨_, hword', -⟩ := hfirst.holds
      exact .inr ⟨found, hfound, first, hfirst, hword', hr⟩

theorem resolveState_eq_ok_iff {name : String} {q : Nat} :
    resolveState states name = .ok q ↔ states.Names q name := by
  unfold resolveState
  rw [← Roster.position?_eq_some_iff]
  cases states.position? name <;> simp

theorem rejects_resolveState {name : String} :
    Rejects (resolveState states name) rejection ↔
      name ∉ states.texts ∧ rejection = .undefinedState name := by
  unfold resolveState
  rw [← Roster.position?_eq_none_iff]
  cases states.position? name <;> simp [Violation.rejection, eq_comm]

theorem resolveSymbol_eq_ok_iff {name : String} {a : Nat} :
    resolveSymbol alphabet name = .ok a ↔ alphabet.Names a name := by
  unfold resolveSymbol
  rw [← Roster.position?_eq_some_iff]
  cases alphabet.position? name <;> simp

theorem rejects_resolveSymbol {name : String} :
    Rejects (resolveSymbol alphabet name) rejection ↔
      name ∉ alphabet.texts ∧ rejection = .undefinedSymbol name := by
  unfold resolveSymbol
  rw [← Roster.position?_eq_none_iff]
  cases alphabet.position? name <;> simp [Violation.rejection, eq_comm]

namespace Roster

variable {roster : Roster kind} {named : List Nat}

/-- The positions that names stand for, one by one. -/
def Resolves (roster : Roster kind) (found : List String) (named : List Nat) : Prop :=
  List.Forall₂ (fun name q => roster.Names q name) found named

theorem exists_resolves_iff :
    (∃ named, roster.Resolves found named) ↔ ∀ name ∈ found, name ∈ roster.texts := by
  constructor
  · intro h name hn
    obtain ⟨named, hnamed⟩ := h
    obtain ⟨q, -, hname⟩ := exists_right_of_forall₂ hnamed hn
    exact exists_names_iff_mem.1 ⟨q, hname⟩
  · intro h
    exact exists_forall₂ fun name hn => exists_names_iff_mem.2 (h name hn)

theorem Resolves.mem_iff (h : roster.Resolves found named) {q : Nat} :
    q ∈ named ↔ ∃ name ∈ found, roster.Names q name := by
  constructor
  · exact exists_left_of_forall₂ h
  · intro hex
    obtain ⟨name, hn, hname⟩ := hex
    obtain ⟨p, hp, hname'⟩ := exists_right_of_forall₂ h hn
    rw [hname.unique_position hname']
    exact hp

theorem Resolves.eq_nil_iff (h : roster.Resolves found named) : named = [] ↔ found = [] := by
  have hlength : found.length = named.length := List.Forall₂.length_eq h
  rw [← List.length_eq_zero_iff, ← List.length_eq_zero_iff, hlength]

/-- Positions that are those of declared names are missing if and only if the names are. -/
theorem eq_nil_iff_of_mem_iff (hdecl : ∀ name ∈ found, name ∈ roster.texts)
    (hmem : ∀ q, q ∈ named ↔ ∃ name ∈ found, roster.Names q name) : named = [] ↔ found = [] := by
  rw [List.eq_nil_iff_forall_not_mem, List.eq_nil_iff_forall_not_mem]
  simp only [hmem]
  constructor
  · intro h name hname
    obtain ⟨q, hq⟩ := exists_names_iff_mem.2 (hdecl name hname)
    exact h q ⟨name, hname, hq⟩
  · intro h q hq
    obtain ⟨name, hname, -⟩ := hq
    exact h name hname

/-- All names are one name if and only if all positions are one position. -/
theorem Resolves.exists_ne_iff (h : roster.Resolves found named) :
    (∃ p ∈ named, ∃ q ∈ named, p ≠ q) ↔ ∃ name ∈ found, ∃ other ∈ found, name ≠ other := by
  constructor
  · intro hex
    obtain ⟨p, hp, q, hq, hpq⟩ := hex
    obtain ⟨name, hn, hname⟩ := h.mem_iff.1 hp
    obtain ⟨other, ho, hother⟩ := h.mem_iff.1 hq
    refine ⟨name, hn, other, ho, ?_⟩
    intro heq
    rw [heq] at hname
    exact hpq (hname.unique_position hother)
  · intro hex
    obtain ⟨name, hn, other, ho, hne⟩ := hex
    obtain ⟨p, hp, hname⟩ := exists_right_of_forall₂ h hn
    obtain ⟨q, hq, hother⟩ := exists_right_of_forall₂ h ho
    refine ⟨p, hp, q, hq, ?_⟩
    intro heq
    rw [heq] at hname
    exact hne (hname.unique_text hother)

end Roster

theorem readStateList_eq_ok_iff {named : List Nat} :
    readStateList s states lines = .ok named ↔
      ∃ found, s.Lists lines found ∧ states.Resolves found named := by
  simp only [Roster.Resolves, readStateList, bind_eq_ok_iff, Section.read_eq_ok_iff, mapM_eq_ok_iff,
    resolveState_eq_ok_iff]

theorem rejects_readStateList :
    Rejects (readStateList s states lines) rejection ↔
      (s.Misshapen lines ∧ rejection = .malformedInput) ∨
        ∃ found name, s.Lists lines found ∧ Leftmost (· ∉ states.texts) found name ∧
          rejection = .undefinedState name := by
  have hundeclared (found : List String) (name : String) :
      Leftmost (fun name => ∃ r, name ∉ states.texts ∧ r = Rejection.undefinedState name) found name
        ↔ Leftmost (· ∉ states.texts) found name :=
    Leftmost.congr fun name _ => by simp
  simp only [readStateList, rejects_bind, Section.rejects_read, Section.read_eq_ok_iff,
    rejects_mapM, rejects_resolveState, hundeclared]
  constructor
  · intro h
    rcases h with h | ⟨found, hfound, name, hleft, -, hr⟩
    · exact .inl h
    · exact .inr ⟨found, name, hfound, hleft, hr⟩
  · intro h
    rcases h with h | ⟨found, name, hfound, hleft, hr⟩
    · exact .inl h
    · exact .inr ⟨found, hfound, name, hleft, hleft.holds, hr⟩

theorem eraseDups_eq_nil_iff {named : List Nat} : named.eraseDups = [] ↔ named = [] := by
  simp only [List.eq_nil_iff_forall_not_mem, List.mem_eraseDups]

theorem soleInitial_eq_ok_iff {named : List Nat} {q : Nat} :
    soleInitial named = .ok q ↔ named ≠ [] ∧ ∀ p ∈ named, p = q := by
  have hmem (p : Nat) : p ∈ named ↔ p ∈ named.eraseDups := List.mem_eraseDups.symm
  have hnodup : named.eraseDups.Nodup := nodup_eraseDups named
  unfold soleInitial
  rw [ne_eq, ← eraseDups_eq_nil_iff]
  simp only [hmem]
  cases hd : named.eraseDups with
  | nil => simp
  | cons p rest =>
    cases rest with
    | nil => simp
    | cons p' rest =>
      rw [hd, List.nodup_cons] at hnodup
      have hne : p' ≠ p := fun h => hnodup.1 (by simp [h])
      simp only [reduceCtorEq, false_iff, not_and, not_forall]
      intro _
      by_cases hq : p = q
      · exact ⟨p', by simp, by rw [← hq]; exact hne⟩
      · exact ⟨p, by simp, hq⟩

theorem rejects_soleInitial {named : List Nat} :
    Rejects (soleInitial named) rejection ↔
      (named = [] ∧ rejection = .noInitialState) ∨
        ((∃ p ∈ named, ∃ q ∈ named, p ≠ q) ∧ rejection = .malformedInput) := by
  have hmem (p : Nat) : p ∈ named ↔ p ∈ named.eraseDups := List.mem_eraseDups.symm
  have hnodup : named.eraseDups.Nodup := nodup_eraseDups named
  unfold soleInitial
  rw [← eraseDups_eq_nil_iff]
  simp only [hmem]
  cases hd : named.eraseDups with
  | nil => simp [Violation.rejection, eq_comm]
  | cons p rest =>
    cases rest with
    | nil => simp
    | cons p' rest =>
      rw [hd, List.nodup_cons] at hnodup
      have hne : p ≠ p' := fun h => hnodup.1 (by simp [h])
      have hseveral : ∃ q ∈ p :: p' :: rest, ∃ q' ∈ p :: p' :: rest, q ≠ q' :=
        ⟨p, by simp, p', by simp, hne⟩
      simp only [rejects_error, Violation.rejection, hseveral, reduceCtorEq, false_and, false_or,
        true_and, eq_comm]

/-- The initial state is the one that every entry of its line names. -/
theorem readInitial_eq_ok_iff {q : Nat} :
    readInitial states lines = .ok q ↔
      ∃ found, Section.initial.Lists lines found ∧ found ≠ [] ∧
        ∀ name ∈ found, states.Names q name := by
  simp only [readInitial, bind_eq_ok_iff, readStateList_eq_ok_iff, soleInitial_eq_ok_iff]
  constructor
  · intro h
    obtain ⟨named, ⟨found, hfound, hnamed⟩, hne, hsole⟩ := h
    rw [ne_eq, hnamed.eq_nil_iff] at hne
    refine ⟨found, hfound, hne, ?_⟩
    intro name hn
    obtain ⟨p, hp, hname⟩ := exists_right_of_forall₂ hnamed hn
    rw [← hsole p hp]
    exact hname
  · intro h
    obtain ⟨found, hfound, hne, hsole⟩ := h
    obtain ⟨named, hnamed⟩ := Roster.exists_resolves_iff.2 fun name hn =>
      Roster.exists_names_iff_mem.1 ⟨q, hsole name hn⟩
    rw [ne_eq, ← hnamed.eq_nil_iff] at hne
    refine ⟨named, ⟨found, hfound, hnamed⟩, hne, ?_⟩
    intro p hp
    obtain ⟨name, hn, hname⟩ := hnamed.mem_iff.1 hp
    exact hname.unique_position (hsole name hn)

/-- An undeclared name comes before the count of the states named. -/
theorem rejects_readInitial :
    Rejects (readInitial states lines) rejection ↔
      (Section.initial.Misshapen lines ∧ rejection = .malformedInput) ∨
        ∃ found, Section.initial.Lists lines found ∧
          ((∃ name, Leftmost (· ∉ states.texts) found name ∧ rejection = .undefinedState name) ∨
            (found = [] ∧ rejection = .noInitialState) ∨
            ((∀ name ∈ found, name ∈ states.texts) ∧ (∃ name ∈ found, ∃ other ∈ found, name ≠ other) ∧
              rejection = .malformedInput)) := by
  simp only [readInitial, rejects_bind, rejects_readStateList, readStateList_eq_ok_iff,
    rejects_soleInitial]
  constructor
  · intro h
    rcases h with (h | ⟨found, name, hfound, hleft, hr⟩) | ⟨named, ⟨found, hfound, hnamed⟩, h⟩
    · exact .inl h
    · exact .inr ⟨found, hfound, .inl ⟨name, hleft, hr⟩⟩
    · rw [hnamed.eq_nil_iff, hnamed.exists_ne_iff] at h
      have hdecl := Roster.exists_resolves_iff.1 ⟨named, hnamed⟩
      rcases h with h | ⟨hne, hr⟩
      · exact .inr ⟨found, hfound, .inr (.inl h)⟩
      · exact .inr ⟨found, hfound, .inr (.inr ⟨hdecl, hne, hr⟩)⟩
  · intro h
    rcases h with h | ⟨found, hfound, ⟨name, hleft, hr⟩ | ⟨hempty, hr⟩ | ⟨hdecl, hne, hr⟩⟩
    · exact .inl (.inl h)
    · exact .inl (.inr ⟨found, name, hfound, hleft, hr⟩)
    · rw [hempty] at hfound
      exact .inr ⟨[], ⟨[], hfound, .nil⟩, .inl ⟨rfl, hr⟩⟩
    · obtain ⟨named, hnamed⟩ := Roster.exists_resolves_iff.2 hdecl
      exact .inr ⟨named, ⟨found, hfound, hnamed⟩, .inr ⟨hnamed.exists_ne_iff.2 hne, hr⟩⟩

/-- Final states are the positions named by the entries, in increasing order. -/
theorem readFinals_eq_ok_iff {finals : List Nat} :
    readFinals states lines = .ok finals ↔
      ∃ found, Section.final.Lists lines found ∧ (∀ name ∈ found, name ∈ states.texts) ∧
        finals.Pairwise (· < ·) ∧ ∀ q, q ∈ finals ↔ ∃ name ∈ found, states.Names q name := by
  simp only [readFinals, bind_eq_ok_iff, readStateList_eq_ok_iff]
  constructor
  · intro h
    obtain ⟨named, ⟨found, hfound, hnamed⟩, h⟩ := h
    cases h
    refine ⟨found, hfound, Roster.exists_resolves_iff.1 ⟨named, hnamed⟩,
      Indices.increasing_ofList named, ?_⟩
    intro q
    rw [Indices.mem_ofList, hnamed.mem_iff]
  · intro h
    obtain ⟨found, hfound, hdecl, hincr, hfinals⟩ := h
    obtain ⟨named, hnamed⟩ := Roster.exists_resolves_iff.2 hdecl
    refine ⟨named, ⟨found, hfound, hnamed⟩, ?_⟩
    have hsame : Indices.ofList named = finals := by
      refine (Indices.increasing_ofList named).eq_of_mem_iff hincr ?_
      intro q
      rw [Indices.mem_ofList, hnamed.mem_iff, hfinals]
    rw [hsame]
    rfl

theorem rejects_readFinals :
    Rejects (readFinals states lines) rejection ↔
      (Section.final.Misshapen lines ∧ rejection = .malformedInput) ∨
        ∃ found name, Section.final.Lists lines found ∧ Leftmost (· ∉ states.texts) found name ∧
          rejection = .undefinedState name := by
  have hpure (named : List Nat) :
      ¬ Rejects (pure (Indices.ofList named) : Except Violation (List Nat)) rejection :=
    not_rejects_ok _ _
  simp only [readFinals, rejects_bind, rejects_readStateList, hpure, and_false, exists_false,
    or_false]

/-- The entry that names the source, the symbol and the target of a transition. -/
def Transition.WrittenAs (states : Roster .state) (alphabet : Alphabet) (t : Transition)
    (entry : String) : Prop :=
  ∃ source symbol target, JoinedBy '>' entry [source, symbol, target] ∧
    states.Names t.source source ∧ alphabet.Names t.symbol symbol ∧ states.Names t.target target

theorem readTransition_of_joinedBy {entry source symbol target : String}
    (h : JoinedBy '>' entry [source, symbol, target]) :
    readTransition states alphabet entry = do
      let q ← resolveState states source
      let a ← resolveSymbol alphabet symbol
      let p ← resolveState states target
      return ⟨q, a, p⟩ := by
  have hfields : fields entry = [source, symbol, target] := joinedBy_iff.1 h
  simp only [readTransition, hfields]

theorem readTransition_of_not_joinedBy {entry : String}
    (h : ∀ source symbol target, ¬ JoinedBy '>' entry [source, symbol, target]) :
    readTransition states alphabet entry =
      .error (.malformed .transitions (.notThreeFields entry)) := by
  unfold readTransition
  split
  · next source symbol target hfields => exact absurd (joinedBy_iff.2 hfields) (h _ _ _)
  · rfl

theorem readTransition_eq_ok_iff {entry : String} {t : Transition} :
    readTransition states alphabet entry = .ok t ↔ t.WrittenAs states alphabet entry := by
  unfold Transition.WrittenAs
  constructor
  · intro h
    by_cases hj : ∃ source symbol target, JoinedBy '>' entry [source, symbol, target]
    · obtain ⟨source, symbol, target, hj⟩ := hj
      simp only [readTransition_of_joinedBy hj, bind_eq_ok_iff, resolveState_eq_ok_iff,
        resolveSymbol_eq_ok_iff] at h
      obtain ⟨q, hq, a, ha, p, hp, h⟩ := h
      cases h
      exact ⟨source, symbol, target, hj, hq, ha, hp⟩
    · push Not at hj
      rw [readTransition_of_not_joinedBy hj] at h
      cases h
  · intro h
    obtain ⟨source, symbol, target, hj, hq, ha, hp⟩ := h
    simp only [readTransition_of_joinedBy hj, bind_eq_ok_iff, resolveState_eq_ok_iff,
      resolveSymbol_eq_ok_iff]
    exact ⟨t.source, hq, t.symbol, ha, t.target, hp, rfl⟩

theorem rejects_readTransition {entry : String} :
    Rejects (readTransition states alphabet entry) rejection ↔
      TransitionFault states.texts alphabet.texts entry rejection := by
  have hpure (t : Transition) : ¬ Rejects (pure t : Except Violation Transition) rejection :=
    not_rejects_ok _ _
  by_cases hj : ∃ source symbol target, JoinedBy '>' entry [source, symbol, target]
  · obtain ⟨source, symbol, target, hj⟩ := hj
    simp only [readTransition_of_joinedBy hj, rejects_bind, rejects_resolveState,
      rejects_resolveSymbol, resolveState_eq_ok_iff, resolveSymbol_eq_ok_iff, hpure, and_false,
      exists_false, or_false]
    have hstate (name : String) : (∃ q, states.Names q name) ↔ name ∈ states.texts :=
      Roster.exists_names_iff_mem
    have hsymbol (name : String) : (∃ a, alphabet.Names a name) ↔ name ∈ alphabet.texts :=
      Roster.exists_names_iff_mem
    simp only [exists_and_right, hstate, hsymbol]
    constructor
    · intro h
      rcases h with ⟨hs, rfl⟩ | ⟨hs, ⟨ha, rfl⟩ | ⟨ha, ht, rfl⟩⟩
      · exact .source hj hs
      · exact .symbol hj hs ha
      · exact .target hj hs ha ht
    · intro h
      cases h with
      | fields hno => exact absurd hj (hno source symbol target)
      | source hj' hs =>
        cases hj.unique hj'
        exact .inl ⟨hs, rfl⟩
      | symbol hj' hs ha =>
        cases hj.unique hj'
        exact .inr ⟨hs, .inl ⟨ha, rfl⟩⟩
      | target hj' hs ha ht =>
        cases hj.unique hj'
        exact .inr ⟨hs, .inr ⟨ha, ht, rfl⟩⟩
  · push Not at hj
    rw [readTransition_of_not_joinedBy hj, rejects_error]
    constructor
    · intro h
      rw [← h]
      exact .fields hj
    · intro h
      cases h with
      | fields => rfl
      | source hj' => exact absurd hj' (hj _ _ _)
      | symbol hj' => exact absurd hj' (hj _ _ _)
      | target hj' => exact absurd hj' (hj _ _ _)

theorem readTransitions_eq_ok_iff {transitions : List Transition} :
    readTransitions states alphabet lines = .ok transitions ↔
      ∃ found, Section.transitions.Lists lines found ∧
        List.Forall₂ (fun entry t => t.WrittenAs states alphabet entry) found transitions := by
  simp only [readTransitions, bind_eq_ok_iff, Section.read_eq_ok_iff, mapM_eq_ok_iff,
    readTransition_eq_ok_iff]

theorem rejects_readTransitions :
    Rejects (readTransitions states alphabet lines) rejection ↔
      (Section.transitions.Misshapen lines ∧ rejection = .malformedInput) ∨
        ∃ found entry, Section.transitions.Lists lines found ∧
          Leftmost (fun entry => ∃ r, TransitionFault states.texts alphabet.texts entry r)
            found entry ∧
          TransitionFault states.texts alphabet.texts entry rejection := by
  simp only [readTransitions, rejects_bind, Section.rejects_read, Section.read_eq_ok_iff,
    rejects_mapM, rejects_readTransition, exists_and_left]

theorem readEnd_eq_ok_iff : readEnd lines = .ok () ↔ lines.length ≤ 5 := by
  have hcount : lineCount = 5 := rfl
  unfold readEnd
  rw [hcount]
  split
  · simp; omega
  · simp; omega

theorem rejects_readEnd :
    Rejects (readEnd lines) rejection ↔ 5 < lines.length ∧ rejection = .malformedInput := by
  have hcount : lineCount = 5 := rfl
  unfold readEnd
  rw [hcount]
  split
  · next h => simp [Violation.rejection, h, eq_comm]
  · next h => simp [h]

end AutomatonCheck
