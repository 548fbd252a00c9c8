import Mathlib.Data.List.Nodup
import Mathlib.Data.List.Perm.Subperm
import Mathlib.Logic.Relation
import AutomatonCheck.Graph.Traversal

/-!
# What a walk explores

A traversal is followed together with the states that it has yielded so far. The marked
states are the yielded and the queued ones, all of them different; all are reached from
the origin, and the successors of the yielded ones are marked. Every step keeps this,
so a walk that comes to its end has yielded exactly the states that can be reached, and
it breaks off only if a state out of range can be reached.
-/
namespace AutomatonCheck

theorem subperm_range_of_nodup {order : List Nat} {n : Nat} (hnodup : order.Nodup)
    (hlt : ∀ q ∈ order, q < n) : order.Subperm (List.range n) :=
  List.subperm_of_subset hnodup fun q hq => List.mem_range.2 (hlt q hq)

theorem length_le_of_nodup {order : List Nat} {n : Nat} (hnodup : order.Nodup)
    (hlt : ∀ q ∈ order, q < n) : order.length ≤ n := by
  simpa using (subperm_range_of_nodup hnodup hlt).length_le

/-- Distinct indices below a bound are fewer than the bound if and only if one is left out. -/
theorem length_lt_iff_of_nodup {order : List Nat} {n : Nat} (hnodup : order.Nodup)
    (hlt : ∀ q ∈ order, q < n) : order.length < n ↔ ∃ q < n, q ∉ order := by
  constructor
  · intro h
    by_contra hall
    push Not at hall
    have hsub : (List.range n).Subperm order :=
      List.subperm_of_subset List.nodup_range fun q hq => hall q (List.mem_range.1 hq)
    have hge : n ≤ order.length := by simpa using hsub.length_le
    omega
  · intro h
    obtain ⟨q, hq, hnot⟩ := h
    by_contra hge
    have hperm : order.Perm (List.range n) :=
      (subperm_range_of_nodup hnodup hlt).perm_of_length_le (by simp; omega)
    exact hnot (hperm.mem_iff.2 (List.mem_range.2 hq))

namespace Adjacency

/-- A successor of a state of the graph. -/
def Edge (graph : Adjacency) (q p : Nat) : Prop :=
  ∃ ps, graph.successors? q = some ps ∧ p ∈ ps

/-- A state that can be reached in any number of steps, none included. -/
def Reaches (graph : Adjacency) : Nat → Nat → Prop := Relation.ReflTransGen graph.Edge

/-- Every successor is a state of the graph. -/
def Closed (graph : Adjacency) : Prop := ∀ q p, graph.Edge q p → p < graph.size

theorem closed_iff_lists {graph : Adjacency} :
    graph.Closed ↔ ∀ ps ∈ graph.lists, ∀ p ∈ ps, p < graph.size := by
  constructor
  · intro h ps hps p hp
    obtain ⟨q, hq⟩ := List.mem_iff_getElem?.1 hps
    exact h q p ⟨ps, hq, hp⟩
  · intro h q p hedge
    obtain ⟨ps, hps, hp⟩ := hedge
    exact h ps (List.mem_of_getElem? hps) p hp

end Adjacency

namespace Traversal

variable {graph : Adjacency} {origin q p : Nat} {yielded ps : List Nat} {t rest : Traversal}

/-- The marked states are the yielded and the queued ones, each once. -/
structure Parts (yielded : List Nat) (t : Traversal) : Prop where
  mem_marked : ∀ q, q ∈ t.marked ↔ q ∈ yielded ∨ q ∈ t.queue
  nodup : (yielded ++ t.queue).Nodup

theorem mem_marked_mark : q ∈ (t.mark p).marked ↔ q = p ∨ q ∈ t.marked := by
  unfold mark
  split
  · next hp =>
    by_cases hqp : q = p
    · simp [hqp, hp]
    · simp [hqp]
  · simp

theorem mem_marked_foldl_mark : q ∈ (ps.foldl mark t).marked ↔ q ∈ ps ∨ q ∈ t.marked := by
  induction ps generalizing t with
  | nil => simp
  | cons p ps ih =>
    rw [List.foldl_cons, ih, mem_marked_mark, List.mem_cons]
    tauto

theorem Parts.mark (h : t.Parts yielded) : (t.mark p).Parts yielded := by
  unfold Traversal.mark
  split
  · exact h
  · next hp =>
    refine ⟨?_, ?_⟩
    · intro q
      simp only [List.mem_cons, h.mem_marked, List.mem_append, List.not_mem_nil, or_false]
      tauto
    · have hfresh : p ∉ yielded ++ t.queue := by
        rw [List.mem_append, ← h.mem_marked]
        exact hp
      rw [← List.append_assoc, ← List.concat_eq_append, List.nodup_concat]
      exact ⟨hfresh, h.nodup⟩

theorem Parts.foldl_mark (h : t.Parts yielded) : (ps.foldl Traversal.mark t).Parts yielded := by
  induction ps generalizing t with
  | nil => exact h
  | cons p ps ih => exact ih h.mark

theorem Parts.yield_head {queue : List Nat} (h : t.Parts yielded) (hq : t.queue = q :: queue) :
    Parts (yielded ++ [q]) ⟨t.marked, queue⟩ := by
  constructor
  · intro p
    rw [h.mem_marked, hq]
    simp only [List.mem_cons, List.mem_append, List.not_mem_nil, or_false]
    tauto
  · have hnodup := h.nodup
    rw [hq] at hnodup
    simpa [List.append_assoc] using hnodup

theorem next_eq_finished_iff : t.next graph = .finished ↔ t.queue = [] := by
  unfold next
  split
  · next hq => simp [hq]
  · next hq => split <;> simp [hq]

theorem next_eq_outOfRange_iff :
    t.next graph = .outOfRange ↔ ∃ q queue, t.queue = q :: queue ∧ graph.size ≤ q := by
  simp only [← Adjacency.successors?_eq_none_iff]
  unfold next
  split
  · next hq => simp [hq]
  · next q queue hq =>
    split
    · next hps => simp [hq, hps]
    · next ps hps => simp [hq, hps]

theorem next_eq_yielded_iff :
    t.next graph = .yielded q rest ↔ ∃ queue ps, t.queue = q :: queue ∧
      graph.successors? q = some ps ∧ ps.foldl mark ⟨t.marked, queue⟩ = rest := by
  unfold next
  split
  · next hq => simp [hq]
  · next q' queue hq =>
    split
    · next hps =>
      constructor
      · intro h
        cases h
      · intro h
        obtain ⟨queue, ps, hq', hps', -⟩ := h
        rw [hq] at hq'
        cases hq'
        rw [hps] at hps'
        cases hps'
    · next ps hps =>
      constructor
      · intro h
        cases h
        exact ⟨queue, ps, hq, hps, rfl⟩
      · intro h
        obtain ⟨queue, ps, hq', hps', rfl⟩ := h
        rw [hq] at hq'
        cases hq'
        rw [hps] at hps'
        cases hps'
        rfl

/-- The invariant of a traversal that has yielded these states. -/
structure Explores (graph : Adjacency) (origin : Nat) (yielded : List Nat) (t : Traversal) : Prop
    extends Parts yielded t where
  origin_marked : origin ∈ t.marked
  reached : ∀ q ∈ t.marked, graph.Reaches origin q
  closed : ∀ q ∈ yielded, ∃ ps, graph.successors? q = some ps ∧ ∀ p ∈ ps, p ∈ t.marked

theorem explores_start (graph : Adjacency) (origin : Nat) :
    (start origin).Explores graph origin [] where
  mem_marked := by simp [start]
  nodup := by simp [start]
  origin_marked := by simp [start]
  reached := by
    intro q hq
    have heq : q = origin := by simpa [start] using hq
    rw [heq]
    exact .refl
  closed := by simp

/-- A step moves one state from the queue to the yielded ones and marks its successors. -/
theorem Explores.next (h : t.Explores graph origin yielded) (hn : t.next graph = .yielded q rest) :
    rest.Explores graph origin (yielded ++ [q]) := by
  obtain ⟨queue, ps, hq, hps, rfl⟩ := next_eq_yielded_iff.1 hn
  have hmarked : q ∈ t.marked := (h.mem_marked q).2 (.inr (by simp [hq]))
  refine ⟨(h.yield_head hq).foldl_mark, ?_, ?_, ?_⟩
  · rw [mem_marked_foldl_mark]
    exact .inr h.origin_marked
  · intro p hp
    rw [mem_marked_foldl_mark] at hp
    rcases hp with hp | hp
    · exact (h.reached q hmarked).tail ⟨ps, hps, hp⟩
    · exact h.reached p hp
  · intro p hp
    rcases List.mem_append.1 hp with hp | hp
    · obtain ⟨ps', hps', hall⟩ := h.closed p hp
      exact ⟨ps', hps', fun p' hp' => mem_marked_foldl_mark.2 (.inr (hall p' hp'))⟩
    · have heq : p = q := by simpa using hp
      rw [heq]
      exact ⟨ps, hps, fun p' hp' => mem_marked_foldl_mark.2 (.inl hp')⟩

theorem walk_of_finished (h : t.next graph = .finished) : t.walk graph = ⟨[], true⟩ := by
  rw [walk]
  split <;> simp_all

theorem walk_of_outOfRange (h : t.next graph = .outOfRange) : t.walk graph = ⟨[], false⟩ := by
  rw [walk]
  split <;> simp_all

theorem walk_of_yielded (h : t.next graph = .yielded q rest) :
    t.walk graph = ⟨q :: (rest.walk graph).order, (rest.walk graph).completed⟩ := by
  rw [walk]
  split <;> simp_all

/-- A walk ends where no step is left. What every step keeps holds there of all it has yielded. -/
theorem exists_last_of_step {inv : List Nat → Traversal → Prop}
    (hstep : ∀ {yielded t q rest}, inv yielded t → t.next graph = .yielded q rest →
      inv (yielded ++ [q]) rest) (h : inv yielded t) :
    ∃ last : Traversal, inv (yielded ++ (t.walk graph).order) last ∧
      last.next graph = if (t.walk graph).completed then .finished else .outOfRange := by
  induction t using Traversal.walk.induct graph generalizing yielded with
  | case1 t hn =>
    rw [walk_of_finished hn]
    exact ⟨t, by simpa using h, hn⟩
  | case2 t hn =>
    rw [walk_of_outOfRange hn]
    exact ⟨t, by simpa using h, hn⟩
  | case3 t q rest hn ih =>
    obtain ⟨last, hlast, hend⟩ := ih (hstep h hn)
    rw [walk_of_yielded hn]
    exact ⟨last, by simpa [List.append_assoc] using hlast, hend⟩

end Traversal

namespace Adjacency

variable {graph : Adjacency} {origin q p : Nat}

theorem lt_of_successors? {ps : List Nat} (h : graph.successors? q = some ps) :
    q < graph.size := by
  by_contra hge
  rw [successors?_eq_none_iff.2 (Nat.le_of_not_lt hge)] at h
  cases h

theorem walkFrom_explores (graph : Adjacency) (origin : Nat) :
    ∃ last : Traversal, last.Explores graph origin (graph.walkFrom origin).order ∧
      last.next graph = if (graph.walkFrom origin).completed then .finished else .outOfRange :=
  Traversal.exists_last_of_step (fun h hn => h.next hn) (Traversal.explores_start graph origin)

theorem nodup_walkFrom (graph : Adjacency) (origin : Nat) :
    (graph.walkFrom origin).order.Nodup := by
  obtain ⟨last, hlast, -⟩ := walkFrom_explores graph origin
  exact List.Nodup.of_append_left hlast.nodup

theorem lt_of_mem_walkFrom (h : q ∈ (graph.walkFrom origin).order) : q < graph.size := by
  obtain ⟨last, hlast, -⟩ := walkFrom_explores graph origin
  obtain ⟨ps, hps, -⟩ := hlast.closed q h
  exact lt_of_successors? hps

theorem length_walkFrom_le (graph : Adjacency) (origin : Nat) :
    (graph.walkFrom origin).order.length ≤ graph.size :=
  length_le_of_nodup (nodup_walkFrom graph origin) fun _ => lt_of_mem_walkFrom

theorem length_walkFrom_lt_iff :
    (graph.walkFrom origin).order.length < graph.size ↔
      ∃ q < graph.size, q ∉ (graph.walkFrom origin).order :=
  length_lt_iff_of_nodup (nodup_walkFrom graph origin) fun _ => lt_of_mem_walkFrom

theorem reaches_of_mem_walkFrom (h : q ∈ (graph.walkFrom origin).order) :
    graph.Reaches origin q := by
  obtain ⟨last, hlast, -⟩ := walkFrom_explores graph origin
  exact hlast.reached q ((hlast.mem_marked q).2 (.inl h))

/-- A walk that comes to its end yields exactly the states that can be reached. -/
theorem mem_walkFrom_iff (h : (graph.walkFrom origin).completed = true) :
    q ∈ (graph.walkFrom origin).order ↔ graph.Reaches origin q := by
  constructor
  · exact reaches_of_mem_walkFrom
  · intro hq
    obtain ⟨last, hlast, hend⟩ := walkFrom_explores graph origin
    rw [h, if_pos rfl, Traversal.next_eq_finished_iff] at hend
    have hmarked (p : Nat) : p ∈ last.marked ↔ p ∈ (graph.walkFrom origin).order := by
      rw [hlast.mem_marked, hend]
      simp
    induction hq with
    | refl => exact (hmarked origin).1 hlast.origin_marked
    | tail _ hedge ih =>
      obtain ⟨ps, hps, hp⟩ := hedge
      obtain ⟨ps', hps', hall⟩ := hlast.closed _ ih
      rw [hps] at hps'
      cases hps'
      exact (hmarked _).1 (hall _ hp)

/-- A walk comes to its end unless a state out of range can be reached. -/
theorem completed_walkFrom_iff :
    (graph.walkFrom origin).completed = true ↔ ∀ q, graph.Reaches origin q → q < graph.size := by
  constructor
  · intro h q hq
    exact lt_of_mem_walkFrom ((mem_walkFrom_iff h).2 hq)
  · intro h
    by_contra hc
    obtain ⟨last, hlast, hend⟩ := walkFrom_explores graph origin
    rw [if_neg hc, Traversal.next_eq_outOfRange_iff] at hend
    obtain ⟨q, queue, hqueue, hge⟩ := hend
    have hmarked : q ∈ last.marked := (hlast.mem_marked q).2 (.inr (by simp [hqueue]))
    have hlt : q < graph.size := h q (hlast.reached q hmarked)
    omega

theorem Closed.lt_of_reaches (hclosed : graph.Closed) (ho : origin < graph.size)
    (hq : graph.Reaches origin q) : q < graph.size := by
  cases hq with
  | refl => exact ho
  | tail _ hlast => exact hclosed _ _ hlast

theorem Closed.completed_walkFrom (hclosed : graph.Closed) (ho : origin < graph.size) :
    (graph.walkFrom origin).completed = true :=
  completed_walkFrom_iff.2 fun _ => hclosed.lt_of_reaches ho

theorem reachCount?_of_completed (h : (graph.walkFrom origin).completed = true) :
    graph.reachCount? origin = some (graph.walkFrom origin).order.length := by
  rw [reachCount?, Walk.count?, if_pos h]

/-- Where the edges are known, so is what can be reached. -/
theorem reaches_eq {r : Nat → Nat → Prop} (hedge : ∀ q p, graph.Edge q p ↔ r q p) :
    graph.Reaches = Relation.ReflTransGen r := by
  have heq : graph.Edge = r := by
    funext q p
    exact propext (hedge q p)
  rw [Reaches, heq]

/-- On a graph whose edges are known and stay in range, the number of states that a walk yields
tells whether every state can be reached. -/
theorem exists_reachCount? {n : Nat} {r : Nat → Nat → Prop} (hn : graph.size = n)
    (hedge : ∀ q p, graph.Edge q p ↔ r q p) (hclosed : graph.Closed) (ho : origin < n) :
    ∃ count, graph.reachCount? origin = some count ∧
      (count < n ↔ ∃ q < n, ¬ Relation.ReflTransGen r origin q) := by
  rw [← hn] at ho ⊢
  have hcompleted : (graph.walkFrom origin).completed = true := hclosed.completed_walkFrom ho
  refine ⟨(graph.walkFrom origin).order.length, reachCount?_of_completed hcompleted, ?_⟩
  rw [length_walkFrom_lt_iff]
  simp only [mem_walkFrom_iff hcompleted, reaches_eq hedge]

end Adjacency

end AutomatonCheck
