import Mathlib.Data.List.Forall2
import AutomatonCheck.Description.Violation

/-!
# Reading entry by entry

A reader gives a value or a violation, and a line is read by one reader for each of its
entries. The line is read if every entry is; otherwise its violation is the one of the
leftmost entry that cannot be read. What a rejected reading contributes to the outcome
of a check is the rejection of its violation alone.
-/
namespace AutomatonCheck

variable {α β : Type}

theorem toOption_eq_some_iff {ε : Type} {result : Except ε α} {a : α} :
    result.toOption = some a ↔ result = .ok a := by
  cases result <;> simp [Except.toOption]

/-- The leftmost element of a list that has a property. -/
def Leftmost (p : α → Prop) (xs : List α) (x : α) : Prop :=
  ∃ before after, xs = before ++ x :: after ∧ (∀ y ∈ before, ¬ p y) ∧ p x

theorem Leftmost.mem {p : α → Prop} {xs : List α} {x : α} (h : Leftmost p xs x) : x ∈ xs := by
  obtain ⟨before, after, rfl, -, -⟩ := h
  simp

theorem Leftmost.holds {p : α → Prop} {xs : List α} {x : α} (h : Leftmost p xs x) : p x := by
  obtain ⟨-, -, -, -, hx⟩ := h
  exact hx

theorem Leftmost.congr {p r : α → Prop} {xs : List α} {x : α}
    (h : ∀ y ∈ xs, p y ↔ r y) : Leftmost p xs x ↔ Leftmost r xs x := by
  constructor
  · intro h
    obtain ⟨before, after, rfl, hb, hx⟩ := h
    exact ⟨before, after, rfl, fun y hy => by rw [← h y (by simp [hy])]; exact hb y hy,
      (h x (by simp)).1 hx⟩
  · intro h
    obtain ⟨before, after, rfl, hb, hx⟩ := h
    exact ⟨before, after, rfl, fun y hy => by rw [h y (by simp [hy])]; exact hb y hy,
      (h x (by simp)).2 hx⟩

theorem leftmost_cons {p : α → Prop} {x z : α} {xs : List α} :
    Leftmost p (x :: xs) z ↔ (p x ∧ z = x) ∨ (¬ p x ∧ Leftmost p xs z) := by
  constructor
  · intro h
    obtain ⟨before, after, hcut, hb, hz⟩ := h
    cases before with
    | nil =>
      obtain ⟨rfl, rfl⟩ := List.cons.inj hcut
      exact .inl ⟨hz, rfl⟩
    | cons y before =>
      obtain ⟨rfl, rfl⟩ := List.cons.inj hcut
      exact .inr ⟨hb x (by simp), before, after, rfl, fun w hw => hb w (by simp [hw]), hz⟩
  · intro h
    rcases h with ⟨hx, rfl⟩ | ⟨hx, before, after, rfl, hb, hz⟩
    · exact ⟨[], xs, rfl, by simp, hx⟩
    · refine ⟨x :: before, after, rfl, ?_, hz⟩
      intro y hy
      rcases List.mem_cons.1 hy with rfl | hy
      · exact hx
      · exact hb y hy

/-- A property that some element has is had by a leftmost one. -/
theorem exists_leftmost {p : α → Prop} {xs : List α} (h : ∃ x ∈ xs, p x) :
    ∃ x, Leftmost p xs x := by
  induction xs with
  | nil => simp at h
  | cons y ys ih =>
    by_cases hy : p y
    · exact ⟨y, leftmost_cons.2 (.inl ⟨hy, rfl⟩)⟩
    · obtain ⟨x, hx⟩ := ih (by simpa [hy] using h)
      exact ⟨x, leftmost_cons.2 (.inr ⟨hy, hx⟩)⟩

section

variable {r : α → β → Prop} {xs : List α} {ys : List β}

theorem exists_right_of_forall₂ {x : α} (h : List.Forall₂ r xs ys) (hx : x ∈ xs) :
    ∃ y ∈ ys, r x y := by
  induction h with
  | nil => simp at hx
  | cons hxy _ ih =>
    rcases List.mem_cons.1 hx with rfl | hx
    · exact ⟨_, by simp, hxy⟩
    · obtain ⟨y, hy, hr⟩ := ih hx
      exact ⟨y, by simp [hy], hr⟩

theorem exists_left_of_forall₂ {y : β} (h : List.Forall₂ r xs ys) (hy : y ∈ ys) :
    ∃ x ∈ xs, r x y :=
  exists_right_of_forall₂ h.flip hy

theorem exists_forall₂ (h : ∀ x ∈ xs, ∃ y, r x y) : ∃ ys, List.Forall₂ r xs ys := by
  induction xs with
  | nil => exact ⟨[], .nil⟩
  | cons x xs ih =>
    obtain ⟨y, hy⟩ := h x (by simp)
    obtain ⟨ys, hys⟩ := ih fun z hz => h z (by simp [hz])
    exact ⟨y :: ys, .cons hy hys⟩

end

/-- A reading that fails with a violation of this rejection. -/
def Rejects (reading : Except Violation α) (rejection : Rejection) : Prop :=
  ∃ violation, reading = .error violation ∧ violation.rejection = rejection

@[simp] theorem not_rejects_ok (a : α) (rejection : Rejection) :
    ¬ Rejects (.ok a) rejection := by
  intro h
  obtain ⟨violation, h, -⟩ := h
  cases h

@[simp] theorem rejects_error (violation : Violation) (rejection : Rejection) :
    Rejects (.error violation : Except Violation α) rejection ↔
      violation.rejection = rejection := by
  constructor
  · intro h
    obtain ⟨violation, h, rfl⟩ := h
    cases h
    rfl
  · intro h
    exact ⟨violation, rfl, h⟩

/-- A reading yields a value unless it rejects. -/
theorem exists_ok_iff {reading : Except Violation α} :
    (∃ a, reading = .ok a) ↔ ∀ rejection, ¬ Rejects reading rejection := by
  cases reading <;> simp

theorem bind_eq_ok_iff {reading : Except Violation α} {next : α → Except Violation β} {b : β} :
    (reading >>= next) = .ok b ↔ ∃ a, reading = .ok a ∧ next a = .ok b := by
  cases reading <;> simp [bind, Except.bind]

/-- A sequence of readings rejects where the first of them does that rejects. -/
theorem rejects_bind {reading : Except Violation α} {next : α → Except Violation β}
    {rejection : Rejection} :
    Rejects (reading >>= next) rejection ↔
      Rejects reading rejection ∨ ∃ a, reading = .ok a ∧ Rejects (next a) rejection := by
  cases reading <;> simp [bind, Except.bind]

section

variable {f : α → Except Violation β}

theorem mapM_eq_ok_iff {xs : List α} {ys : List β} :
    xs.mapM f = .ok ys ↔ List.Forall₂ (fun x y => f x = .ok y) xs ys := by
  induction xs generalizing ys with
  | nil =>
    rw [List.mapM_nil, List.forall₂_nil_left_iff]
    exact ⟨fun h => by cases h; rfl, fun h => by rw [h]; rfl⟩
  | cons x xs ih =>
    simp only [List.mapM_cons, bind_eq_ok_iff, ih, List.forall₂_cons_left_iff]
    constructor
    · intro h
      obtain ⟨y, hy, ys', hys, h⟩ := h
      cases h
      exact ⟨y, ys', hy, hys, rfl⟩
    · intro h
      obtain ⟨y, ys', hy, hys, rfl⟩ := h
      exact ⟨y, hy, ys', hys, rfl⟩

/-- A list of entries is rejected for the leftmost of them that is. -/
theorem rejects_mapM {xs : List α} {rejection : Rejection} :
    Rejects (xs.mapM f) rejection ↔
      ∃ x, Leftmost (fun x => ∃ r, Rejects (f x) r) xs x ∧ Rejects (f x) rejection := by
  induction xs with
  | nil =>
    constructor
    · intro h
      exact absurd h (not_rejects_ok _ _)
    · intro h
      obtain ⟨x, h, -⟩ := h
      simpa using h.mem
  | cons x xs ih =>
    have hpure (ys : List β) (y : β) :
        ¬ Rejects (pure (y :: ys) : Except Violation (List β)) rejection := not_rejects_ok _ _
    simp only [List.mapM_cons, rejects_bind, leftmost_cons, hpure, and_false, exists_false, or_false]
    cases hx : f x with
    | error violation =>
      simp [hx]
    | ok y =>
      simp [ih]

end

end AutomatonCheck
