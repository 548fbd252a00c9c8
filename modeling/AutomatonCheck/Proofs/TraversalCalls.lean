import AutomatonCheck.Proofs.WalkOrder

/-!
# A traversal call by call

A traversal is called for one state at a time. At every point between two calls the marked
states are those yielded and those queued, all of them different, and along the queue the
distances from the origin do not fall and rise by one at most: whatever is queued was found
from a state that was no farther than the head of the queue. Different states of a graph are
no more than its size, so the calls run out of states, and then each further call says so.
-/
namespace AutomatonCheck

namespace Adjacency.FoundInOrder

variable {graph : Adjacency} {origin q p d e : Nat} {yielded queue : List Nat}

/-- States come by distance. -/
theorem le_of_idxOf_le (h : graph.FoundInOrder origin yielded queue)
    (hq : graph.IsDistance origin q d) (hp : graph.IsDistance origin p e)
    (hmem : q ∈ yielded ++ queue)
    (hle : (yielded ++ queue).idxOf q ≤ (yielded ++ queue).idxOf p) : d ≤ e := by
  obtain ⟨n, hn, hsteps⟩ := h.exists_steps hp.steps hmem hle
  exact Nat.le_trans (hq.le_of_steps n hsteps) hn

/-- A queued state was found from a yielded one, and that is no farther than any queued state. -/
theorem le_succ_of_mem_queue (h : graph.FoundInOrder origin yielded queue)
    (hyielded : ∀ z ∈ yielded, graph.Reaches origin z) (hqueued : q ∉ yielded)
    (hpmem : p ∈ yielded ++ queue) (hpo : p ≠ origin) (hq : graph.IsDistance origin q d)
    (hp : graph.IsDistance origin p e) : e ≤ d + 1 := by
  obtain ⟨z, hz, hedge⟩ := (h.mem_iff.1 hpmem).resolve_left hpo
  obtain ⟨c, hc⟩ := (hyielded z hz).exists_isDistance
  have hbefore : (yielded ++ queue).idxOf z ≤ (yielded ++ queue).idxOf q := by
    have hlt : yielded.idxOf z < yielded.length := List.idxOf_lt_length_iff.2 hz
    rw [List.idxOf_append_of_mem hz, List.idxOf_append_of_notMem hqueued]
    omega
  have hcd : c ≤ d := h.le_of_idxOf_le hc hq (List.mem_append_left _ hz) hbefore
  have hec : e ≤ c + 1 := hp.le_of_steps (c + 1) (hc.steps.more hedge)
  omega

end Adjacency.FoundInOrder

namespace Traversal

variable {graph : Adjacency} {origin : Nat} {yielded : List Nat} {t : Traversal}

/-- The state of a traversal that has yielded these states so far. -/
structure Underway (graph : Adjacency) (origin : Nat) (yielded : List Nat) (t : Traversal) :
    Prop where
  mem_marked : ∀ q, q ∈ t.marked ↔ q ∈ yielded ∨ q ∈ t.queue
  disjoint : yielded.Disjoint t.queue
  nodup_yielded : yielded.Nodup
  nodup_queue : t.queue.Nodup
  reached : ∀ q ∈ t.marked, graph.Reaches origin q
  closed : ∀ q ∈ yielded, ∀ p, graph.Edge q p → p ∈ t.marked
  distances : ∃ ds, List.Forall₂ (graph.IsDistance origin) t.queue ds ∧
    ds.Pairwise fun d e => d ≤ e ∧ e ≤ d + 1
  bounded : yielded.length + t.queue.length ≤ graph.size

section

variable (h : t.Finds graph origin yielded) {i j : Nat}

include h

theorem Finds.idxOf_queue (hi : i < t.queue.length) :
    (yielded ++ t.queue).idxOf t.queue[i] = yielded.length + i := by
  refine idxOf_of_getElem? h.nodup ?_
  rw [List.getElem?_append_right (by omega), Nat.add_sub_cancel_left, List.getElem?_eq_getElem hi]

/-- The origin has nothing before it, in the queue neither. -/
theorem Finds.queue_ne_origin (hij : i < j) (hj : j < t.queue.length) : t.queue[j] ≠ origin := by
  have hi : i < t.queue.length := Nat.lt_trans hij hj
  intro horigin
  have hne : t.queue[i] ≠ origin := by
    intro heq
    have hsame := h.idxOf_queue hi
    rw [heq, ← horigin, h.idxOf_queue hj] at hsame
    omega
  have hfirst := h.in_order.idxOf_origin_lt hne
  rw [← horigin, h.idxOf_queue hi, h.idxOf_queue hj] at hfirst
  omega

/-- The distances along the queue do not fall, and no two of them are more than one apart. -/
theorem Finds.exists_distances : ∃ ds, List.Forall₂ (graph.IsDistance origin) t.queue ds ∧
    ds.Pairwise fun d e => d ≤ e ∧ e ≤ d + 1 := by
  have hreached {q : Nat} (hq : q ∈ yielded ++ t.queue) : graph.Reaches origin q :=
    h.reached q ((h.mem_marked q).2 (List.mem_append.1 hq))
  obtain ⟨ds, hds⟩ : ∃ ds, List.Forall₂ (graph.IsDistance origin) t.queue ds :=
    exists_forall₂ fun q hq => (hreached (List.mem_append_right _ hq)).exists_isDistance
  refine ⟨ds, hds, ?_⟩
  have hlength : t.queue.length = ds.length := hds.length_eq
  rw [List.pairwise_iff_getElem]
  intro i j hi hj hij
  rw [← hlength] at hi hj
  have hd : graph.IsDistance origin t.queue[i] ds[i] := List.Forall₂.get hds hi _
  have he : graph.IsDistance origin t.queue[j] ds[j] := List.Forall₂.get hds hj _
  have hmem {k : Nat} (hk : k < t.queue.length) : t.queue[k] ∈ yielded ++ t.queue :=
    List.mem_append_right _ (List.getElem_mem hk)
  have hqueued : t.queue[i] ∉ yielded := by
    intro hy
    exact (List.nodup_append.1 h.nodup).2.2 _ hy _ (List.getElem_mem hi) rfl
  have hbefore : (yielded ++ t.queue).idxOf t.queue[i] ≤ (yielded ++ t.queue).idxOf t.queue[j] := by
    rw [h.idxOf_queue hi, h.idxOf_queue hj]
    omega
  constructor
  · exact h.in_order.le_of_idxOf_le hd he (hmem hi) hbefore
  · exact h.in_order.le_succ_of_mem_queue (fun z hz => hreached (List.mem_append_left _ hz))
      hqueued (hmem hj) (h.queue_ne_origin hij hj) hd he

theorem Finds.underway (hclosed : graph.Closed) (ho : origin < graph.size) :
    t.Underway graph origin yielded := by
  obtain ⟨hyielded, hqueue, hdisjoint⟩ := List.nodup_append.1 h.nodup
  constructor
  case mem_marked => exact h.mem_marked
  case disjoint =>
    intro q hy hq
    exact hdisjoint q hy q hq rfl
  case nodup_yielded => exact hyielded
  case nodup_queue => exact hqueue
  case reached => exact h.reached
  case closed =>
    intro q hq p hedge
    obtain ⟨ps, hps, hall⟩ := h.closed q hq
    obtain ⟨ps', hps', hp⟩ := hedge
    rw [hps] at hps'
    cases hps'
    exact hall p hp
  case distances => exact h.exists_distances
  case bounded =>
    rw [← List.length_append]
    refine length_le_of_nodup h.nodup fun q hq => ?_
    exact hclosed.lt_of_reaches ho (h.reached q ((h.mem_marked q).2 (List.mem_append.1 hq)))

end

/-- The answer to a call, and the traversal that is left. A traversal that is finished answers that
there is no state and stays as it is; one that breaks off does not answer. -/
def call? (graph : Adjacency) (t : Traversal) : Option (Option Nat × Traversal) :=
  match t.next graph with
  | .finished => some (none, t)
  | .yielded q rest => some (some q, rest)
  | .outOfRange => none

/-- The answers to so many calls, and the traversal that is left after them. -/
def calls? (graph : Adjacency) : Nat → Traversal → Option (List (Option Nat) × Traversal)
  | 0, t => some ([], t)
  | k + 1, t => do
    let (answer, rest) ← t.call? graph
    let (answers, last) ← calls? graph k rest
    return (answer :: answers, last)

/-- The first answers of a traversal that yields these states: one state after the other, and from
then on that there is none. -/
def answers (order : List Nat) (k : Nat) : List (Option Nat) :=
  (order.take k).map some ++ List.replicate (k - order.length) none

/-- A traversal whose walk comes to its end answers every call. What every step keeps holds between
any two calls. -/
theorem exists_calls?_of_step {inv : List Nat → Traversal → Prop}
    (hstep : ∀ {yielded t q rest}, inv yielded t → t.next graph = .yielded q rest →
      inv (yielded ++ [q]) rest) (h : inv yielded t) (hc : (t.walk graph).completed = true)
    (k : Nat) : ∃ last, calls? graph k t = some (answers (t.walk graph).order k, last) ∧
      inv (yielded ++ (t.walk graph).order.take k) last := by
  induction k generalizing yielded t with
  | zero => exact ⟨t, by simp [calls?, answers], by simpa using h⟩
  | succ k ih =>
    cases hn : t.next graph with
    | outOfRange =>
      rw [walk_of_outOfRange hn] at hc
      cases hc
    | finished =>
      have hcall : t.call? graph = some (none, t) := by simp only [call?, hn]
      obtain ⟨last, hcalls, hlast⟩ := ih h hc
      rw [walk_of_finished hn] at hcalls hlast ⊢
      refine ⟨last, ?_, by simpa using hlast⟩
      simp [calls?, hcall, hcalls, answers, List.replicate_succ]
    | yielded q rest =>
      have hcall : t.call? graph = some (some q, rest) := by simp only [call?, hn]
      rw [walk_of_yielded hn] at hc ⊢
      obtain ⟨last, hcalls, hlast⟩ := ih (hstep h hn) hc
      refine ⟨last, ?_, by simpa [List.append_assoc] using hlast⟩
      simp [calls?, hcall, hcalls, answers]

end Traversal

namespace Adjacency

variable {graph : Adjacency} {origin : Nat}

/-- On a graph whose lists stay in it, a traversal from a state of the graph answers any number of
calls. It yields no more states than the graph has and then says that there is none, each time it
is called, and after every call the states that it has yielded and queued are as they should be. -/
theorem calls_keep_invariant (hclosed : graph.Closed) (ho : origin < graph.size) :
    (graph.walkFrom origin).order.length ≤ graph.size ∧
    ∀ k, ∃ t, Traversal.calls? graph k (.start origin) =
        some (Traversal.answers (graph.walkFrom origin).order k, t) ∧
      t.Underway graph origin ((graph.walkFrom origin).order.take k) := by
  refine ⟨length_walkFrom_le graph origin, fun k => ?_⟩
  obtain ⟨t, hcalls, hfinds⟩ := Traversal.exists_calls?_of_step (fun h hn => h.next hn)
    (Traversal.finds_start graph origin) (hclosed.completed_walkFrom ho) k
  exact ⟨t, hcalls, Traversal.Finds.underway hfinds hclosed ho⟩

/-- After three calls a state two steps away is queued before one three steps away, and seven calls
are two more than there are states. -/
theorem fiveStates_keep_invariant : fiveStates.Closed ∧ 4 < fiveStates.size ∧
    Traversal.calls? fiveStates 3 (.start 4) =
      some ([some 4, some 0, some 1], ⟨[3, 2, 1, 0, 4], [2, 3]⟩) ∧
    Traversal.Underway fiveStates 4 [4, 0, 1] ⟨[3, 2, 1, 0, 4], [2, 3]⟩ ∧
    ∃ t, Traversal.calls? fiveStates 7 (.start 4) =
      some ([some 4, some 0, some 1, some 2, some 3, none, none], t) := by
  have hclosed : fiveStates.Closed := closed_iff_lists.2 (by decide)
  have hsize : 4 < fiveStates.size := by decide
  have hwalk : fiveStates.walkFrom 4 = ⟨[4, 0, 1, 2, 3], true⟩ := by cbv
  have hthree : Traversal.calls? fiveStates 3 (.start 4) =
      some ([some 4, some 0, some 1], ⟨[3, 2, 1, 0, 4], [2, 3]⟩) := by decide
  obtain ⟨-, hcalls⟩ := calls_keep_invariant hclosed hsize
  rw [hwalk] at hcalls
  obtain ⟨t, hanswers, hunderway⟩ := hcalls 3
  obtain ⟨last, hseven, -⟩ := hcalls 7
  rw [hthree] at hanswers
  cases hanswers
  exact ⟨hclosed, hsize, hthree, hunderway, last, hseven⟩

end Adjacency

end AutomatonCheck
