import Mathlib.Data.Finset.Card
import Mathlib.Data.List.Nodup
import Mathlib.Logic.Relation
import AutomatonCheck.Roster

/-!
# Positions and names

A roster names each position below its size by one text, and no text names two
positions. Looking a text up finds the position it names, so lookup and naming are the
two directions of one bijection between positions and declared names.
-/
namespace AutomatonCheck

/-- A map under which different elements stay different keeps the places of duplicates. -/
theorem eraseDups_map {α β : Type} [DecidableEq α] [DecidableEq β] {f : α → β} (xs : List α)
    (hf : ∀ x ∈ xs, ∀ y ∈ xs, f x = f y → x = y) : (xs.map f).eraseDups = xs.eraseDups.map f := by
  match xs with
  | [] => simp
  | x :: rest =>
    have hfilter : (rest.map f).filter (fun y => !y == f x) =
        (rest.filter (fun y => !y == x)).map f := by
      rw [List.filter_map]
      congr 1
      refine List.filter_congr ?_
      intro y hy
      have heq : f y = f x ↔ y = x :=
        ⟨hf y (by simp [hy]) x (by simp), fun h => by rw [h]⟩
      simp [heq]
    have hrest : ∀ y ∈ rest.filter (fun y => !y == x), ∀ z ∈ rest.filter (fun y => !y == x),
        f y = f z → y = z := by
      intro y hy z hz
      exact hf y (by simp [List.mem_of_mem_filter hy]) z (by simp [List.mem_of_mem_filter hz])
    rw [List.map_cons, List.eraseDups_cons, List.eraseDups_cons, List.map_cons, hfilter,
      eraseDups_map _ hrest]
termination_by xs.length
decreasing_by simp only [List.length_cons]; exact Nat.lt_succ_of_le (List.length_filter_le ..)

theorem card_toFinset_eq_length_eraseDups {α : Type} [DecidableEq α] (xs : List α) :
    xs.toFinset.card = xs.eraseDups.length := by
  have hsame : xs.toFinset = xs.eraseDups.toFinset := by
    ext x
    simp only [List.mem_toFinset, List.mem_eraseDups]
  rw [hsame, List.toFinset_card_of_nodup (nodup_eraseDups xs)]

namespace Name

variable {kind : NameKind}

theorem text_injective : Function.Injective (Name.text : Name kind → String) := by
  intro a b h
  exact Name.ext h

end Name

namespace Roster

variable {kind : NameKind} {roster : Roster kind} {i j : Nat} {text other : String}

/-- A text names a position. -/
def Names (roster : Roster kind) (i : Nat) (text : String) : Prop :=
  ∃ name, roster.get? i = some name ∧ name.text = text

/-- The texts of the names in order. -/
def texts (roster : Roster kind) : List String := roster.names.map Name.text

theorem names_iff_getElem? : roster.Names i text ↔ roster.texts[i]? = some text := by
  simp [Names, texts, get?, List.getElem?_map, Option.map_eq_some_iff]

theorem nodup_texts (roster : Roster kind) : roster.texts.Nodup :=
  List.Nodup.map Name.text_injective roster.nodup

theorem size_eq_length_texts (roster : Roster kind) : roster.size = roster.texts.length := by
  rw [texts, List.length_map]
  rfl

theorem mem_texts {name : Name kind} : name.text ∈ roster.texts ↔ name ∈ roster.names :=
  List.mem_map_of_injective Name.text_injective

theorem Names.unique_text (h : roster.Names i text) (h' : roster.Names i other) :
    text = other := by
  rw [names_iff_getElem?] at h h'
  exact Option.some.inj (h.symm.trans h')

theorem Names.unique_position (h : roster.Names i text) (h' : roster.Names j text) : i = j := by
  rw [names_iff_getElem?, List.getElem?_eq_some_iff] at h h'
  obtain ⟨hi, hi'⟩ := h
  obtain ⟨hj, hj'⟩ := h'
  exact (List.Nodup.getElem_inj_iff roster.nodup_texts).1 (hi'.trans hj'.symm)

theorem exists_names_iff_lt : (∃ text, roster.Names i text) ↔ i < roster.size := by
  simp only [Names, get?, size]
  constructor
  · intro h
    obtain ⟨text, name, h, -⟩ := h
    exact (List.getElem?_eq_some_iff.1 h).1
  · intro h
    exact ⟨_, _, List.getElem?_eq_getElem h, rfl⟩

theorem Names.lt (h : roster.Names i text) : i < roster.size := exists_names_iff_lt.1 ⟨text, h⟩

theorem exists_names_iff_mem : (∃ i, roster.Names i text) ↔ text ∈ roster.texts := by
  simp only [names_iff_getElem?, List.mem_iff_getElem?]

theorem mem_texts_iff_of_eq {declared : List String} (h : roster.texts = declared.eraseDups) :
    text ∈ roster.texts ↔ text ∈ declared := by
  rw [h, List.mem_eraseDups]

theorem Names.textAt (h : roster.Names i text) : roster.textAt i = text := by
  obtain ⟨name, hname, rfl⟩ := h
  simp [Roster.textAt, hname]

theorem names_textAt (h : i < roster.size) : roster.Names i (roster.textAt i) := by
  obtain ⟨text, htext⟩ := exists_names_iff_lt.2 h
  rw [htext.textAt]
  exact htext

theorem textAt_inj {j : Nat} (hi : i < roster.size) (hj : j < roster.size)
    (h : roster.textAt i = roster.textAt j) : i = j := by
  have hname : roster.Names i (roster.textAt i) := names_textAt hi
  rw [h] at hname
  exact hname.unique_position (names_textAt hj)

/-- Lookup finds the position that a text names. -/
theorem position?_eq_some_iff : roster.position? text = some i ↔ roster.Names i text := by
  constructor
  · intro h
    obtain ⟨hi, htext, -⟩ := List.findIdx?_eq_some_iff_getElem.1 h
    exact ⟨roster.names[i], List.getElem?_eq_getElem hi, by simpa using htext⟩
  · intro h
    have hmem : text ∈ roster.texts := exists_names_iff_mem.1 ⟨i, h⟩
    cases hp : roster.position? text with
    | none =>
      obtain ⟨name, hname, rfl⟩ := List.mem_map.1 hmem
      simpa using List.findIdx?_eq_none_iff.1 hp name hname
    | some j =>
      obtain ⟨hj, htext, -⟩ := List.findIdx?_eq_some_iff_getElem.1 hp
      have hn : roster.Names j text :=
        ⟨roster.names[j], List.getElem?_eq_getElem hj, by simpa using htext⟩
      rw [hn.unique_position h]

/-- Lookup fails for all other texts. -/
theorem position?_eq_none_iff : roster.position? text = none ↔ text ∉ roster.texts := by
  rw [← exists_names_iff_mem]
  simp only [← position?_eq_some_iff, Option.eq_none_iff_forall_ne_some, not_exists, ne_eq]

/-- A roster holds the distinct texts of the names it is built from, in order. -/
theorem texts_ofList (names : List (Name kind)) :
    (ofList names).texts = (names.map Name.text).eraseDups := by
  rw [eraseDups_map names fun _ _ _ _ h => Name.text_injective h]
  rfl

section Transfer

variable {P : Nat → Prop} {Q : String → Prop}

/-- What is said of positions can be said of the names instead. -/
theorem forall_lt_iff_forall_mem (h : ∀ i text, roster.Names i text → (P i ↔ Q text)) :
    (∀ i < roster.size, P i) ↔ ∀ text ∈ roster.texts, Q text := by
  constructor
  · intro hall text hmem
    obtain ⟨i, hi⟩ := exists_names_iff_mem.2 hmem
    exact (h i text hi).1 (hall i hi.lt)
  · intro hall i hi
    have hn := names_textAt hi
    exact (h i _ hn).2 (hall _ (exists_names_iff_mem.1 ⟨i, hn⟩))

theorem exists_lt_iff_exists_mem (h : ∀ i text, roster.Names i text → (P i ↔ Q text)) :
    (∃ i < roster.size, P i) ↔ ∃ text ∈ roster.texts, Q text := by
  have hnot := forall_lt_iff_forall_mem fun i text hn => not_congr (h i text hn)
  rw [← not_iff_not]
  push Not
  exact hnot

theorem existsUnique_iff (hlt : ∀ i, P i → i < roster.size)
    (h : ∀ text, Q text ↔ ∃ i, roster.Names i text ∧ P i) : (∃! i, P i) ↔ ∃! text, Q text := by
  constructor
  · intro hex
    obtain ⟨i, hi, hsole⟩ := hex
    have hn := names_textAt (hlt i hi)
    refine ⟨roster.textAt i, (h _).2 ⟨i, hn, hi⟩, ?_⟩
    intro text htext
    obtain ⟨j, hj, hPj⟩ := (h text).1 htext
    rw [hsole j hPj] at hj
    exact hj.unique_text hn
  · intro hex
    obtain ⟨text, htext, hsole⟩ := hex
    obtain ⟨i, hn, hi⟩ := (h text).1 htext
    refine ⟨i, hi, ?_⟩
    intro j hj
    have hm := names_textAt (hlt j hj)
    rw [hsole _ ((h _).2 ⟨j, hm, hj⟩)] at hm
    exact hm.unique_position hn

/-- Positions are joined by steps between positions as their names are by steps between names. -/
theorem Names.reflTransGen_iff {r : Nat → Nat → Prop} {r' : String → String → Prop}
    (hlt : ∀ i j, r i j → i < roster.size ∧ j < roster.size)
    (h : ∀ text other, r' text other ↔
      ∃ i j, roster.Names i text ∧ roster.Names j other ∧ r i j)
    (hi : roster.Names i text) (hj : roster.Names j other) :
    Relation.ReflTransGen r i j ↔ Relation.ReflTransGen r' text other := by
  constructor
  · intro hpath
    rw [← hi.textAt, ← hj.textAt]
    refine hpath.lift roster.textAt fun k l hkl => ?_
    exact (h _ _).2 ⟨k, l, names_textAt (hlt k l hkl).1, names_textAt (hlt k l hkl).2, hkl⟩
  · intro hpath
    have hposition {k : Nat} {name : String} (hn : roster.Names k name) :
        (roster.position? name).getD 0 = k := by
      rw [position?_eq_some_iff.2 hn, Option.getD_some]
    rw [← hposition hi, ← hposition hj]
    refine hpath.lift (fun name => (roster.position? name).getD 0) fun name name' hstep => ?_
    obtain ⟨k, l, hk, hl, hkl⟩ := (h _ _).1 hstep
    show r ((roster.position? name).getD 0) ((roster.position? name').getD 0)
    rw [hposition hk, hposition hl]
    exact hkl

end Transfer

theorem ext_texts {roster roster' : Roster kind} (h : roster.texts = roster'.texts) :
    roster = roster' :=
  Roster.ext ((List.map_injective_iff.2 Name.text_injective) h)

end Roster

end AutomatonCheck
