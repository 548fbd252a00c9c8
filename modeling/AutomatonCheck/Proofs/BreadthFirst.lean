import Mathlib.Data.List.Induction
import Mathlib.Data.List.Infix
import Mathlib.Data.Nat.Find
import AutomatonCheck.Proofs.Entrywise
import AutomatonCheck.Proofs.Exploration
import AutomatonCheck.Roster

/-!
# Breadth-first order

The distance of a state from an origin is the smallest number of steps that lead there.
In breadth-first order all states that can be reached stand once; closer ones come first,
and states of equal distance come in the order in which they are found when the
successors of the states in the order are read one after the other. A graph has one such
order from an origin: the one in which the origin and all these successors are read, where
repetitions are left out.
-/
namespace AutomatonCheck

theorem eraseDups_concat (xs : List Nat) (x : Nat) :
    (xs ++ [x]).eraseDups = if x ∈ xs then xs.eraseDups else xs.eraseDups ++ [x] := by
  rw [List.eraseDups_append]
  by_cases hx : x ∈ xs
  · simp [List.removeAll, hx]
  · simp [List.removeAll, hx, List.eraseDups_cons]

/-- Leaving out repetitions keeps the order of first places, where what is missing has the length of
the list as its place. -/
theorem idxOf_eraseDups_lt_iff {xs : List Nat} {q p : Nat} :
    xs.eraseDups.idxOf q < xs.eraseDups.idxOf p ↔ xs.idxOf q < xs.idxOf p := by
  induction xs using List.reverseRecOn with
  | nil => rfl
  | append_singleton xs x ih =>
    rw [eraseDups_concat]
    by_cases hx : x ∈ xs
    · rw [if_pos hx, ih]
      grind
    · rw [if_neg hx]
      grind [List.mem_eraseDups]

theorem idxOf_of_getElem? {xs : List Nat} {n q : Nat} (h : xs.Nodup) (hq : xs[n]? = some q) :
    xs.idxOf q = n := by
  obtain ⟨hn, rfl⟩ := List.getElem?_eq_some_iff.1 hq
  exact h.idxOf_getElem n hn

/-- Where two lists begin to differ, each has its own element before that of the other. -/
theorem idxOf_lt_of_take {xs ys : List Nat} {n q p : Nat} (hxs : xs.Nodup) (hys : ys.Nodup)
    (htake : xs.take n = ys.take n) (hq : xs[n]? = some q) (hp : ys[n]? = some p) (hne : q ≠ p) :
    xs.idxOf q < xs.idxOf p := by
  rw [idxOf_of_getElem? hxs hq]
  by_contra hge
  have hpn : ys.idxOf p = n := idxOf_of_getElem? hys hp
  have hn : n < xs.length := (List.getElem?_eq_some_iff.1 hq).1
  have hpmem : p ∈ xs := List.idxOf_lt_length_iff.1 (by omega)
  have hget : xs[xs.idxOf p]? = some p := List.getElem?_idxOf hpmem
  rcases Nat.lt_or_eq_of_le (Nat.le_of_not_lt hge) with hlt | heq
  · have htaken : p ∈ ys.take n := by
      rw [← htake]
      exact (List.mem_take_iff_idxOf_lt hpmem).2 hlt
    have hlt' : ys.idxOf p < n :=
      (List.mem_take_iff_idxOf_lt (List.mem_of_mem_take htaken)).1 htaken
    omega
  · rw [heq, hq] at hget
    exact hne (Option.some.inj hget)

namespace Adjacency

variable {graph : Adjacency} {origin q p i k j l d : Nat} {order : List Nat}

/-- The states that can be reached in so many steps. -/
inductive Steps (graph : Adjacency) (origin : Nat) : Nat → Nat → Prop
  | none : Steps graph origin 0 origin
  | more {n q p : Nat} (h : Steps graph origin n q) (hedge : graph.Edge q p) :
    Steps graph origin (n + 1) p

theorem reaches_iff_exists_steps : graph.Reaches origin q ↔ ∃ n, graph.Steps origin n q := by
  constructor
  · intro h
    induction h with
    | refl => exact ⟨0, .none⟩
    | tail _ hedge ih =>
      obtain ⟨n, hn⟩ := ih
      exact ⟨n + 1, hn.more hedge⟩
  · intro h
    obtain ⟨n, hn⟩ := h
    induction hn with
    | none => exact .refl
    | more _ hedge ih => exact ih.tail hedge

/-- The length of a shortest path from the origin to a state. -/
structure IsDistance (graph : Adjacency) (origin q d : Nat) : Prop where
  steps : graph.Steps origin d q
  le_of_steps : ∀ n, graph.Steps origin n q → d ≤ n

theorem Reaches.exists_isDistance (h : graph.Reaches origin q) :
    ∃ d, graph.IsDistance origin q d := by
  classical
  have hsteps : ∃ n, graph.Steps origin n q := reaches_iff_exists_steps.1 h
  exact ⟨Nat.find hsteps, Nat.find_spec hsteps, fun n hn => Nat.find_min' hsteps hn⟩

theorem IsDistance.reaches (h : graph.IsDistance origin q d) : graph.Reaches origin q :=
  reaches_iff_exists_steps.2 ⟨d, h.steps⟩

theorem isDistance_origin : graph.IsDistance origin origin 0 := ⟨.none, fun n _ => Nat.zero_le n⟩

theorem IsDistance.unique {e : Nat} (h : graph.IsDistance origin q d)
    (h' : graph.IsDistance origin q e) : d = e := by
  have hle : d ≤ e := h.le_of_steps e h'.steps
  have hge : e ≤ d := h'.le_of_steps d h.steps
  omega

theorem IsDistance.eq_origin (h : graph.IsDistance origin q 0) : q = origin := by
  obtain ⟨hsteps, -⟩ := h
  cases hsteps
  rfl

/-- A state at a positive distance has a predecessor one step closer. -/
theorem IsDistance.exists_closer (h : graph.IsDistance origin p (d + 1)) :
    ∃ q, graph.Edge q p ∧ graph.IsDistance origin q d := by
  obtain ⟨hsteps, hle⟩ := h
  cases hsteps with
  | @more _ q _ hq hedge =>
    refine ⟨q, hedge, hq, ?_⟩
    intro n hn
    have hnext : d + 1 ≤ n + 1 := hle (n + 1) (hn.more hedge)
    omega

/-- The successors of a state; a state that is none of the graph's has none. -/
def successorsOf (graph : Adjacency) (q : Nat) : List Nat := (graph.successors? q).getD []

theorem mem_successorsOf : p ∈ graph.successorsOf q ↔ graph.Edge q p := by
  unfold successorsOf Edge
  cases graph.successors? q <;> simp

/-- A state is found at its first place among the successors of the earliest state in the order that
leads to it. -/
def FoundAt (graph : Adjacency) (order : List Nat) (p i k : Nat) : Prop :=
  ∃ before q after, order = before ++ q :: after ∧ before.length = i ∧
    (∀ x ∈ before, ¬ graph.Edge x p) ∧ graph.Edge q p ∧ (graph.successorsOf q).idxOf p = k

/-- The number of successors of the states before a place. -/
def listedBefore (graph : Adjacency) (order : List Nat) (i : Nat) : Nat :=
  ((order.take i).flatMap graph.successorsOf).length

theorem listedBefore_mono (h : i ≤ j) :
    graph.listedBefore order i ≤ graph.listedBefore order j :=
  ((List.take_prefix_take_left h).flatMap graph.successorsOf).length_le

theorem exists_foundAt_of_edge (h : ∃ q ∈ order, graph.Edge q p) :
    ∃ i k, graph.FoundAt order p i k := by
  obtain ⟨q, before, after, hcut, hbefore, hq⟩ := exists_leftmost h
  exact ⟨before.length, _, before, q, after, hcut, rfl, hbefore, hq, rfl⟩

namespace FoundAt

theorem exists_edge (h : graph.FoundAt order p i k) :
    ∃ q ∈ order, graph.Edge q p ∧ order.idxOf q ≤ i := by
  obtain ⟨before, q, after, rfl, rfl, -, hq, -⟩ := h
  refine ⟨q, by simp, hq, ?_⟩
  rw [List.idxOf_append]
  split
  · exact List.idxOf_le_length
  · simp

theorem le_idxOf (h : graph.FoundAt order p i k) (hq : graph.Edge q p) : i ≤ order.idxOf q := by
  obtain ⟨before, x, after, rfl, rfl, hbefore, -, -⟩ := h
  have hnot : q ∉ before := fun hmem => hbefore q hmem hq
  rw [List.idxOf_append, if_neg hnot]
  omega

/-- Where a state is found depends on the order up to there only. -/
theorem of_take {other : List Nat} {n : Nat} (h : graph.FoundAt order p i k) (hi : i < n)
    (htake : order.take n = other.take n) : graph.FoundAt other p i k := by
  obtain ⟨before, q, after, rfl, rfl, hbefore, hq, hk⟩ := h
  obtain ⟨m, rfl⟩ : ∃ m, n = before.length + (m + 1) := ⟨n - before.length - 1, by omega⟩
  rw [List.take_length_add_append, List.take_succ_cons] at htake
  refine ⟨before, q, after.take m ++ other.drop (before.length + (m + 1)), ?_, rfl, hbefore, hq, hk⟩
  rw [← List.cons_append, ← List.append_assoc, htake, List.take_append_drop]

theorem idxOf_flatMap (h : graph.FoundAt order p i k) :
    (order.flatMap graph.successorsOf).idxOf p = graph.listedBefore order i + k ∧
      graph.listedBefore order i + k < graph.listedBefore order (i + 1) := by
  obtain ⟨before, q, after, rfl, rfl, hbefore, hq, rfl⟩ := h
  rw [← mem_successorsOf] at hq
  have hnot : p ∉ before.flatMap graph.successorsOf := by
    simpa [mem_successorsOf] using hbefore
  have hlt : (graph.successorsOf q).idxOf p < (graph.successorsOf q).length :=
    List.idxOf_lt_length_iff.2 hq
  constructor
  · rw [List.flatMap_append, List.flatMap_cons, List.idxOf_append, if_neg hnot, List.idxOf_append,
      if_pos hq, listedBefore, List.take_left, Nat.add_comm]
  · have htake : (before ++ q :: after).take (before.length + 1) = before ++ [q] := by
      simp [List.take_append]
    rw [listedBefore, listedBefore, htake, List.take_left, List.flatMap_append, List.length_append,
      List.flatMap_singleton]
    omega

/-- States are found in the order of their first places among all successors. -/
theorem idxOf_flatMap_lt_iff (hq : graph.FoundAt order q i k) (hp : graph.FoundAt order p j l) :
    (order.flatMap graph.successorsOf).idxOf q < (order.flatMap graph.successorsOf).idxOf p ↔
      i < j ∨ i = j ∧ k < l := by
  obtain ⟨hqidx, hqlt⟩ := hq.idxOf_flatMap
  obtain ⟨hpidx, hplt⟩ := hp.idxOf_flatMap
  rw [hqidx, hpidx]
  rcases Nat.lt_trichotomy i j with hlt | rfl | hgt
  · have hle : graph.listedBefore order (i + 1) ≤ graph.listedBefore order j :=
      listedBefore_mono hlt
    omega
  · omega
  · have hle : graph.listedBefore order (j + 1) ≤ graph.listedBefore order i :=
      listedBefore_mono hgt
    omega

theorem unique (h : graph.FoundAt order p i k) (h' : graph.FoundAt order p j l) :
    i = j ∧ k = l := by
  have hlt : ¬ (i < j ∨ i = j ∧ k < l) := by simp [← h.idxOf_flatMap_lt_iff h']
  have hgt : ¬ (j < i ∨ j = i ∧ l < k) := by simp [← h'.idxOf_flatMap_lt_iff h]
  omega

end FoundAt

/-- The states that can be reached from an origin in breadth-first order. States of equal positive
distance come in the order in which the states before them find them. -/
structure BreadthFirst (graph : Adjacency) (origin : Nat) (order : List Nat) : Prop where
  head : order.head? = some origin
  nodup : order.Nodup
  mem_iff : ∀ q, q ∈ order ↔ graph.Reaches origin q
  by_distance : ∀ q p d e, graph.IsDistance origin q d → graph.IsDistance origin p e → d < e →
    order.idxOf q < order.idxOf p
  by_discovery : ∀ q p d, 0 < d → graph.IsDistance origin q d → graph.IsDistance origin p d →
    ∃ i k j l, graph.FoundAt order q i k ∧ graph.FoundAt order p j l ∧
      (order.idxOf q < order.idxOf p ↔ i < j ∨ i = j ∧ k < l)

namespace BreadthFirst

variable {other : List Nat}

/-- A state is found by one that comes before it. -/
theorem lt_idxOf (h : graph.BreadthFirst origin order) (hp : graph.IsDistance origin p (d + 1))
    (hfound : graph.FoundAt order p i k) : i < order.idxOf p := by
  obtain ⟨q, hedge, hq⟩ := hp.exists_closer
  exact Nat.lt_of_le_of_lt (hfound.le_idxOf hedge) (h.by_distance q p d (d + 1) hq hp (by omega))

/-- States of equal distance do not change their order where two orders begin to differ: the states
before find them at the same places in both. -/
theorem idxOf_le_of_take {n : Nat} (h : graph.BreadthFirst origin order)
    (h' : graph.BreadthFirst origin other) (htake : order.take n = other.take n)
    (hq : graph.IsDistance origin q (d + 1)) (hp : graph.IsDistance origin p (d + 1))
    (hqidx : order.idxOf q = n) (hpidx : other.idxOf p = n) (hqp : order.idxOf q < order.idxOf p) :
    other.idxOf q ≤ other.idxOf p := by
  obtain ⟨i, k, j, l, hqi, hpj, hlex⟩ := h.by_discovery q p (d + 1) (by omega) hq hp
  obtain ⟨i', k', j', l', hpi, hqj, hlex'⟩ := h'.by_discovery p q (d + 1) (by omega) hp hq
  have hi : i < n := hqidx ▸ h.lt_idxOf hq hqi
  have hi' : i' < n := hpidx ▸ h'.lt_idxOf hp hpi
  obtain ⟨rfl, rfl⟩ := (hqi.of_take hi htake).unique hqj
  obtain ⟨rfl, rfl⟩ := (hpi.of_take hi' htake.symm).unique hpj
  have hfirst := hlex.1 hqp
  apply Nat.le_of_not_lt
  rw [hlex']
  omega

/-- Two orders that agree up to a place put the same state there, since otherwise each would have to
put the state of the other later. -/
theorem eq_of_take {n : Nat} (h : graph.BreadthFirst origin order)
    (h' : graph.BreadthFirst origin other) (htake : order.take n = other.take n)
    (hq : order[n]? = some q) (hp : other[n]? = some p) : q = p := by
  by_contra hne
  have hqp : order.idxOf q < order.idxOf p := idxOf_lt_of_take h.nodup h'.nodup htake hq hp hne
  have hpq : other.idxOf p < other.idxOf q :=
    idxOf_lt_of_take h'.nodup h.nodup htake.symm hp hq (Ne.symm hne)
  obtain ⟨d, hd⟩ := ((h.mem_iff q).1 (List.mem_of_getElem? hq)).exists_isDistance
  obtain ⟨e, he⟩ := ((h'.mem_iff p).1 (List.mem_of_getElem? hp)).exists_isDistance
  rcases Nat.lt_trichotomy d e with hlt | rfl | hgt
  · have hcloser : other.idxOf q < other.idxOf p := h'.by_distance q p d e hd he hlt
    omega
  · cases d with
    | zero => exact hne (hd.eq_origin.trans he.eq_origin.symm)
    | succ d =>
      have hle : other.idxOf q ≤ other.idxOf p :=
        h.idxOf_le_of_take h' htake hd he (idxOf_of_getElem? h.nodup hq)
          (idxOf_of_getElem? h'.nodup hp) hqp
      omega
  · have hcloser : order.idxOf p < order.idxOf q := h.by_distance p q e d he hd hgt
    omega

theorem length_eq (h : graph.BreadthFirst origin order) (h' : graph.BreadthFirst origin other) :
    order.length = other.length := by
  have hperm : order.Perm other := (List.perm_ext_iff_of_nodup h.nodup h'.nodup).2 fun q => by
    rw [h.mem_iff, h'.mem_iff]
  exact hperm.length_eq

theorem take_eq (h : graph.BreadthFirst origin order) (h' : graph.BreadthFirst origin other)
    (n : Nat) : order.take n = other.take n := by
  have hlength : order.length = other.length := h.length_eq h'
  induction n with
  | zero => rfl
  | succ n ih =>
    have hget : order[n]? = other[n]? := by
      by_cases hn : n < order.length
      · have hn' : n < other.length := by omega
        have hq : order[n]? = some order[n] := List.getElem?_eq_getElem hn
        have hp : other[n]? = some other[n] := List.getElem?_eq_getElem hn'
        rw [hq, hp, h.eq_of_take h' ih hq hp]
      · rw [List.getElem?_eq_none (by omega), List.getElem?_eq_none (by omega)]
    rw [List.take_add_one, List.take_add_one, ih, hget]

theorem unique (h : graph.BreadthFirst origin order) (h' : graph.BreadthFirst origin other) :
    order = other := by
  have hall := h.take_eq h' order.length
  rwa [List.take_length, h.length_eq h', List.take_length] at hall

end BreadthFirst

/-- The yielded and the queued states are the origin and the successors of the yielded ones, as these
are read one after the other, without repetitions. -/
def FoundInOrder (graph : Adjacency) (origin : Nat) (yielded queue : List Nat) : Prop :=
  yielded ++ queue = (origin :: yielded.flatMap graph.successorsOf).eraseDups

namespace FoundInOrder

variable {yielded queue : List Nat}

theorem mem_iff (h : graph.FoundInOrder origin yielded queue) :
    p ∈ yielded ++ queue ↔ p = origin ∨ ∃ q ∈ yielded, graph.Edge q p := by
  rw [h, List.mem_eraseDups, List.mem_cons, List.mem_flatMap]
  simp only [mem_successorsOf]

/-- States other than the origin come in the order of their first places among the successors. -/
theorem idxOf_lt_iff (h : graph.FoundInOrder origin yielded queue) (hq : q ≠ origin)
    (hp : p ≠ origin) :
    (yielded ++ queue).idxOf q < (yielded ++ queue).idxOf p ↔
      (yielded.flatMap graph.successorsOf).idxOf q <
        (yielded.flatMap graph.successorsOf).idxOf p := by
  rw [h, idxOf_eraseDups_lt_iff, List.idxOf_cons_ne _ (Ne.symm hq),
    List.idxOf_cons_ne _ (Ne.symm hp)]
  omega

theorem idxOf_origin_lt (h : graph.FoundInOrder origin yielded queue) (hp : p ≠ origin) :
    (yielded ++ queue).idxOf origin < (yielded ++ queue).idxOf p := by
  rw [h, idxOf_eraseDups_lt_iff, List.idxOf_cons_self, List.idxOf_cons_ne _ (Ne.symm hp)]
  omega

theorem exists_foundAt (h : graph.FoundInOrder origin yielded queue) (hmem : p ∈ yielded ++ queue)
    (hp : p ≠ origin) : ∃ i k, graph.FoundAt yielded p i k := by
  apply exists_foundAt_of_edge
  simpa [hp] using h.mem_iff.1 hmem

/-- While states are yielded and queued in the order in which they are found, no state has a shorter
path than those before it; one that is not found yet counts as the last. -/
theorem exists_steps (h : graph.FoundInOrder origin yielded queue) (hq : graph.Steps origin d q)
    (hp : p ∈ yielded ++ queue)
    (hle : (yielded ++ queue).idxOf p ≤ (yielded ++ queue).idxOf q) :
    ∃ e ≤ d, graph.Steps origin e p := by
  induction hq generalizing p with
  | none =>
    have hpo : p = origin := by
      by_contra hpo
      have hlt := h.idxOf_origin_lt hpo
      omega
    exact ⟨0, Nat.le_refl 0, hpo ▸ .none⟩
  | @more n x q hx hedge ih =>
    by_cases hpo : p = origin
    · exact ⟨0, Nat.zero_le _, hpo ▸ .none⟩
    have hqo : q ≠ origin := by
      rintro rfl
      have hlt := h.idxOf_origin_lt hpo
      omega
    obtain ⟨i, k, hfound⟩ := h.exists_foundAt hp hpo
    obtain ⟨z, hz, hzp, hzi⟩ := hfound.exists_edge
    have hzx : (yielded ++ queue).idxOf z ≤ (yielded ++ queue).idxOf x := by
      rw [List.idxOf_append_of_mem hz]
      by_cases hxmem : x ∈ yielded
      · rw [List.idxOf_append_of_mem hxmem]
        obtain ⟨j, l, hq⟩ := exists_foundAt_of_edge ⟨x, hxmem, hedge⟩
        have hjx : j ≤ yielded.idxOf x := hq.le_idxOf hedge
        have hij : ¬ j < i := by
          intro hji
          have hlt := (h.idxOf_lt_iff hqo hpo).2 ((hq.idxOf_flatMap_lt_iff hfound).2 (.inl hji))
          omega
        omega
      · rw [List.idxOf_append_of_notMem hxmem]
        have hlt : yielded.idxOf z < yielded.length := List.idxOf_lt_length_iff.2 hz
        omega
    obtain ⟨e, hen, he⟩ := ih (List.mem_append_left _ hz) hzx
    exact ⟨e + 1, by omega, he.more hzp⟩

/-- Once nothing is queued, whatever can be reached was yielded. -/
theorem mem_of_reaches (h : graph.FoundInOrder origin order []) (hq : graph.Reaches origin q) :
    q ∈ order := by
  have hiff (p : Nat) : p ∈ order ↔ p = origin ∨ ∃ q ∈ order, graph.Edge q p := by
    simpa using h.mem_iff (p := p)
  induction hq with
  | refl => exact (hiff origin).2 (.inl rfl)
  | @tail x p _ hedge ih => exact (hiff p).2 (.inr ⟨x, ih, hedge⟩)

/-- Once nothing is queued, the states that were yielded stand in breadth-first order. -/
theorem breadthFirst (h : graph.FoundInOrder origin order [])
    (hreaches : ∀ q ∈ order, graph.Reaches origin q) : graph.BreadthFirst origin order := by
  have heq : order = (origin :: order.flatMap graph.successorsOf).eraseDups := by
    rw [← h, List.append_nil]
  have hmem (q : Nat) : q ∈ order ↔ graph.Reaches origin q := ⟨hreaches q, h.mem_of_reaches⟩
  refine ⟨?_, ?_, hmem, ?_, ?_⟩
  · rw [heq, List.eraseDups_cons, List.head?_cons]
  · rw [heq]
    exact nodup_eraseDups _
  · intro q p d e hq hp hlt
    by_contra hge
    have hpmem : p ∈ order ++ [] := by simpa using (hmem p).2 hp.reaches
    obtain ⟨n, hn, hsteps⟩ := h.exists_steps hq.steps hpmem (by simpa using hge)
    have hen : e ≤ n := hp.le_of_steps n hsteps
    omega
  · intro q p d hd hq hp
    have hne {x : Nat} (hx : graph.IsDistance origin x d) : x ≠ origin := by
      rintro rfl
      have hzero : d = 0 := hx.unique isDistance_origin
      omega
    have hfound {x : Nat} (hx : graph.IsDistance origin x d) : ∃ i k, graph.FoundAt order x i k :=
      h.exists_foundAt (by simpa using (hmem x).2 hx.reaches) (hne hx)
    obtain ⟨i, k, hqi⟩ := hfound hq
    obtain ⟨j, l, hpj⟩ := hfound hp
    refine ⟨i, k, j, l, hqi, hpj, ?_⟩
    rw [← hqi.idxOf_flatMap_lt_iff hpj, ← h.idxOf_lt_iff (hne hq) (hne hp), List.append_nil]

end FoundInOrder

end Adjacency

end AutomatonCheck
