import Mathlib.Data.Finset.Dedup
import Mathlib.Data.Finset.Range
import Mathlib.Data.List.TakeWhile
import AutomatonCheck.Graph.BoundedWalk
import AutomatonCheck.Proofs.BreadthFirst

/-!
# The order of a walk

A traversal queues states in the order in which it finds them, so a walk that comes to
its end has yielded its states in breadth-first order. On a graph whose lists lead out of
it, a walk takes the steps that it would take if the states out of range had no
successors, and it breaks off when the first of them would be yielded. Where all indices
can be marked, bounded marks change none of this.
-/
namespace AutomatonCheck

namespace Traversal

variable {graph : Adjacency} {origin q p : Nat} {yielded ps found : List Nat} {t rest : Traversal}

theorem append_queue_mark (h : t.Parts yielded) (hfound : yielded ++ t.queue = found.eraseDups) :
    yielded ++ (t.mark p).queue = (found ++ [p]).eraseDups := by
  have hmarked : p ∈ t.marked ↔ p ∈ found := by
    rw [h.mem_marked, ← List.mem_append, hfound, List.mem_eraseDups]
  rw [eraseDups_concat, mark]
  by_cases hp : p ∈ t.marked
  · rw [if_pos hp, if_pos (hmarked.1 hp), hfound]
  · rw [if_neg hp, if_neg (mt hmarked.2 hp), ← List.append_assoc, hfound]

theorem append_queue_foldl_mark (h : t.Parts yielded)
    (hfound : yielded ++ t.queue = found.eraseDups) :
    yielded ++ (ps.foldl mark t).queue = (found ++ ps).eraseDups := by
  induction ps generalizing t found with
  | nil => rw [List.append_nil, List.foldl_nil, hfound]
  | cons p ps ih =>
    rw [List.foldl_cons, ih h.mark (append_queue_mark h hfound), List.append_assoc,
      List.singleton_append]

/-- The invariant with the order in which the states were marked. -/
structure Finds (graph : Adjacency) (origin : Nat) (yielded : List Nat) (t : Traversal) : Prop
    extends Explores graph origin yielded t where
  in_order : graph.FoundInOrder origin yielded t.queue

theorem finds_start (graph : Adjacency) (origin : Nat) : (start origin).Finds graph origin [] :=
  ⟨explores_start graph origin, by simp [Adjacency.FoundInOrder, start, List.eraseDups_cons]⟩

theorem Finds.next (h : t.Finds graph origin yielded) (hn : t.next graph = .yielded q rest) :
    rest.Finds graph origin (yielded ++ [q]) := by
  refine ⟨h.toExplores.next hn, ?_⟩
  obtain ⟨queue, ps, hq, hps, rfl⟩ := next_eq_yielded_iff.1 hn
  have hfound : (yielded ++ [q]) ++ queue =
      (origin :: yielded.flatMap graph.successorsOf).eraseDups := by
    rw [← h.in_order, hq, List.append_assoc, List.singleton_append]
  have hsuccessors : graph.successorsOf q = ps := by
    rw [Adjacency.successorsOf, hps, Option.getD_some]
  rw [Adjacency.FoundInOrder, List.flatMap_append, List.flatMap_singleton, hsuccessors,
    ← List.cons_append]
  exact append_queue_foldl_mark (h.yield_head hq) hfound

end Traversal

namespace Adjacency

variable {graph : Adjacency} {origin q p n : Nat}

theorem walkFrom_finds (graph : Adjacency) (origin : Nat) :
    ∃ last : Traversal, last.Finds graph origin (graph.walkFrom origin).order ∧
      last.next graph = if (graph.walkFrom origin).completed then .finished else .outOfRange :=
  Traversal.exists_last_of_step (fun h hn => h.next hn) (Traversal.finds_start graph origin)

theorem foundInOrder_of_completed (h : (graph.walkFrom origin).completed = true) :
    graph.FoundInOrder origin (graph.walkFrom origin).order [] := by
  obtain ⟨last, hlast, hend⟩ := walkFrom_finds graph origin
  rw [h, if_pos rfl, Traversal.next_eq_finished_iff] at hend
  rw [← hend]
  exact hlast.in_order

/-- On a graph whose lists stay in it, a walk from a state of the graph comes to its end and yields
the states that can be reached in breadth-first order. -/
theorem walkFrom_breadthFirst (hclosed : graph.Closed) (ho : origin < graph.size) :
    (graph.walkFrom origin).completed = true ∧
      graph.BreadthFirst origin (graph.walkFrom origin).order ∧
      ∀ order, graph.BreadthFirst origin order → order = (graph.walkFrom origin).order := by
  have hcompleted : (graph.walkFrom origin).completed = true := hclosed.completed_walkFrom ho
  have horder : graph.BreadthFirst origin (graph.walkFrom origin).order :=
    (foundInOrder_of_completed hcompleted).breadthFirst fun _ => reaches_of_mem_walkFrom
  exact ⟨hcompleted, horder, fun _ hother => hother.unique horder⟩

/-- Five states, the last of which nothing leads to. -/
def fiveStates : Adjacency := ⟨[[1, 2], [1, 3], [0], [], [0]]⟩

theorem fiveStates_breadthFirst : fiveStates.Closed ∧ 4 < fiveStates.size ∧
    fiveStates.BreadthFirst 4 [4, 0, 1, 2, 3] := by
  have hclosed : fiveStates.Closed := closed_iff_lists.2 (by decide)
  have hsize : 4 < fiveStates.size := by decide
  have hwalk : fiveStates.walkFrom 4 = ⟨[4, 0, 1, 2, 3], true⟩ := by cbv
  obtain ⟨-, horder, -⟩ := walkFrom_breadthFirst hclosed hsize
  rw [hwalk] at horder
  exact ⟨hclosed, hsize, horder⟩

/-- The graph with some more states, which have no successors. -/
def padded (graph : Adjacency) (n : Nat) : Adjacency := ⟨graph.lists ++ List.replicate n []⟩

theorem size_padded : (graph.padded n).size = graph.size + n := by
  simp [padded, size]

theorem successors?_padded_of_lt (hq : q < graph.size) :
    (graph.padded n).successors? q = graph.successors? q :=
  List.getElem?_append_left hq

theorem successorsOf_padded : (graph.padded n).successorsOf = graph.successorsOf := by
  funext q
  unfold successorsOf
  by_cases hq : q < graph.size
  · rw [successors?_padded_of_lt hq]
  · have hnone : graph.successors? q = none := successors?_eq_none_iff.2 (Nat.le_of_not_lt hq)
    have hpad : (graph.padded n).successors? q = (List.replicate n [])[q - graph.size]? :=
      List.getElem?_append_right (Nat.le_of_not_lt hq)
    rw [hnone, hpad, List.getElem?_replicate]
    split <;> rfl

theorem edge_padded : (graph.padded n).Edge = graph.Edge := by
  funext q p
  rw [← mem_successorsOf, ← mem_successorsOf, successorsOf_padded]

theorem reaches_padded : (graph.padded n).Reaches = graph.Reaches := by
  rw [Reaches, edge_padded, Reaches]

end Adjacency

namespace Traversal

variable {graph : Adjacency} {q n : Nat} {t rest : Traversal}

/-- As long as the states that a traversal yields are the graph's, it takes the steps that it would
take with more states. -/
theorem next_of_padded (h : t.next (graph.padded n) = .yielded q rest) :
    t.next graph = if q < graph.size then .yielded q rest else .outOfRange := by
  obtain ⟨queue, ps, hqueue, hps, hrest⟩ := next_eq_yielded_iff.1 h
  by_cases hq : q < graph.size
  · rw [if_pos hq, next_eq_yielded_iff]
    exact ⟨queue, ps, hqueue, by rw [← Adjacency.successors?_padded_of_lt hq, hps], hrest⟩
  · rw [if_neg hq, next_eq_outOfRange_iff]
    exact ⟨q, queue, hqueue, Nat.le_of_not_lt hq⟩

theorem walk_of_padded (graph : Adjacency) (n : Nat) (t : Traversal) :
    t.walk graph = ⟨(t.walk (graph.padded n)).order.takeWhile (· < graph.size),
      (t.walk (graph.padded n)).completed &&
        (t.walk (graph.padded n)).order.all (· < graph.size)⟩ := by
  induction t using Traversal.walk.induct (graph.padded n) with
  | case1 t hn =>
    rw [walk_of_finished hn, walk_of_finished (next_eq_finished_iff.2 (next_eq_finished_iff.1 hn))]
    rfl
  | case2 t hn =>
    obtain ⟨q, queue, hqueue, hge⟩ := next_eq_outOfRange_iff.1 hn
    rw [Adjacency.size_padded] at hge
    have hout : t.next graph = .outOfRange :=
      next_eq_outOfRange_iff.2 ⟨q, queue, hqueue, by omega⟩
    rw [walk_of_outOfRange hn, walk_of_outOfRange hout]
    rfl
  | case3 t q rest hn ih =>
    have hstep := next_of_padded hn
    rw [walk_of_yielded hn]
    by_cases hq : q < graph.size
    · rw [if_pos hq] at hstep
      rw [walk_of_yielded hstep, ih]
      simp [hq]
    · rw [if_neg hq] at hstep
      rw [walk_of_outOfRange hstep]
      simp [hq]

end Traversal

namespace Adjacency

variable {graph : Adjacency} {origin q p n : Nat}

/-- With enough states no index is out of range. -/
theorem exists_padded_completed (graph : Adjacency) (origin : Nat) :
    ∃ n, ((graph.padded n).walkFrom origin).completed = true := by
  obtain ⟨n, hn⟩ := (origin :: graph.lists.flatten).toFinset.exists_nat_subset_range
  have hlt {q : Nat} (hq : q ∈ origin :: graph.lists.flatten) : q < n :=
    Finset.mem_range.1 (hn (List.mem_toFinset.2 hq))
  refine ⟨n, Closed.completed_walkFrom ?_ ?_⟩
  · intro q p hedge
    rw [edge_padded] at hedge
    obtain ⟨ps, hps, hp⟩ := hedge
    have hp : p < n := hlt (List.mem_cons_of_mem _ (subset_flatten_of_successors? hps hp))
    rw [size_padded]
    omega
  · have ho : origin < n := hlt List.mem_cons_self
    rw [size_padded]
    omega

/-- Every graph has one breadth-first order from an origin. A walk yields the states of the order up
to the first that is out of range. -/
theorem exists_breadthFirst_walkFrom (graph : Adjacency) (origin : Nat) :
    ∃ order, (∀ other, graph.BreadthFirst origin other ↔ other = order) ∧
      graph.walkFrom origin =
        ⟨order.takeWhile (· < graph.size), order.all (· < graph.size)⟩ := by
  obtain ⟨n, hn⟩ := exists_padded_completed graph origin
  have hfound : graph.FoundInOrder origin ((graph.padded n).walkFrom origin).order [] := by
    have hpadded := foundInOrder_of_completed hn
    rwa [FoundInOrder, successorsOf_padded] at hpadded
  have horder : graph.BreadthFirst origin ((graph.padded n).walkFrom origin).order := by
    apply hfound.breadthFirst
    intro q hq
    rw [← reaches_padded (n := n)]
    exact reaches_of_mem_walkFrom hq
  refine ⟨((graph.padded n).walkFrom origin).order, ?_, ?_⟩
  · intro other
    constructor
    · intro hother
      exact hother.unique horder
    · intro heq
      rwa [heq]
  · have hwalk : ((Traversal.start origin).walk (graph.padded n)).completed = true := hn
    rw [walkFrom, Traversal.walk_of_padded graph n, hwalk, Bool.true_and]
    rfl

/-- Whether a walk yields every state is answered if it comes to its end, by its states. -/
theorem reachesAll?_iff (graph : Adjacency) (origin : Nat) :
    (graph.reachesAll? origin = some true ↔ (graph.walkFrom origin).completed = true ∧
      ∀ q < graph.size, graph.Reaches origin q) ∧
    (graph.reachesAll? origin = some false ↔ (graph.walkFrom origin).completed = true ∧
      ∃ q < graph.size, ¬ graph.Reaches origin q) ∧
    (graph.reachesAll? origin = none ↔ (graph.walkFrom origin).completed = false) := by
  unfold reachesAll? coveredBy? Walk.count?
  cases hcompleted : (graph.walkFrom origin).completed with
  | false => simp
  | true =>
    have hle := length_walkFrom_le graph origin
    have hlt : (graph.walkFrom origin).order.length < graph.size ↔
        ∃ q < graph.size, ¬ graph.Reaches origin q := by
      rw [length_walkFrom_lt_iff]
      simp only [mem_walkFrom_iff hcompleted]
    have hall : (∀ q < graph.size, graph.Reaches origin q) ↔
        ¬ (graph.walkFrom origin).order.length < graph.size := by
      rw [hlt]
      push Not
      rfl
    rw [← hlt, hall]
    simp only [if_true, Option.map_some, Option.some.injEq, beq_iff_eq, beq_eq_false_iff_ne,
      true_and, reduceCtorEq, Bool.true_eq_false, ne_eq, and_true]
    omega

/-- A walk over arbitrary lists comes to its end if and only if all indices that can be reached are
states of the graph. Otherwise it breaks off where the breadth-first order, in which an index out of
range has no successors, comes to the first such index, after it has yielded the states before. -/
theorem walkFrom_of_any_lists (graph : Adjacency) (origin : Nat) :
    ((graph.walkFrom origin).completed = true ↔
      ∀ q, graph.Reaches origin q → q < graph.size) ∧
    (∃ order, (∀ other, graph.BreadthFirst origin other ↔ other = order) ∧
      ((graph.walkFrom origin).completed = true → (graph.walkFrom origin).order = order) ∧
      ((graph.walkFrom origin).completed = false → ∃ q after,
        order = (graph.walkFrom origin).order ++ q :: after ∧ graph.size ≤ q)) ∧
    (∀ q ∈ (graph.walkFrom origin).order, q < graph.size) ∧
    (graph.walkFrom origin).order.Nodup ∧
    (graph.reachesAll? origin = some true ↔ (graph.walkFrom origin).completed = true ∧
      ∀ q < graph.size, graph.Reaches origin q) ∧
    (graph.reachesAll? origin = some false ↔ (graph.walkFrom origin).completed = true ∧
      ∃ q < graph.size, ¬ graph.Reaches origin q) ∧
    (graph.reachesAll? origin = none ↔ (graph.walkFrom origin).completed = false) := by
  obtain ⟨order, hunique, hwalk⟩ := exists_breadthFirst_walkFrom graph origin
  refine ⟨completed_walkFrom_iff, ⟨order, hunique, ?_, ?_⟩, fun q => lt_of_mem_walkFrom,
    nodup_walkFrom graph origin, reachesAll?_iff graph origin⟩
  · rw [hwalk]
    intro hcompleted
    exact List.takeWhile_eq_self_iff.2 (List.all_eq_true.1 hcompleted)
  · rw [hwalk]
    intro hbroken
    cases hrest : order.dropWhile (· < graph.size) with
    | nil =>
      have hall : order.all (· < graph.size) = true :=
        List.all_eq_true.2 (List.dropWhile_eq_nil_iff.1 hrest)
      rw [hall] at hbroken
      cases hbroken
    | cons q after =>
      have hq := List.head?_dropWhile_not (· < graph.size) order
      rw [hrest] at hq
      refine ⟨q, after, ?_, by simpa using hq⟩
      rw [← hrest, List.takeWhile_append_dropWhile]

/-- Two states, the first of which leads out of range before it leads to the second. -/
def strayStates : Adjacency := ⟨[[7, 1], [0]]⟩

example : strayStates.walkFrom 0 = ⟨[0], false⟩ := by cbv

/-- Bounded marks make no difference where every index can be marked. -/
theorem walkWithin?_of_forall_lt {bound : Nat} (h : ∀ ps ∈ graph.lists, ∀ p ∈ ps, p < bound)
    (ho : origin < bound) : graph.walkWithin? bound origin = some (graph.walkFrom origin) := by
  have hmark : ∀ q ∈ (graph.walkFrom origin).order, graph.canMark bound q = true :=
    fun q _ => canMark_of_forall_lt h q
  simp only [walkWithin?, if_pos ho, List.takeWhile_eq_self_iff.2 hmark,
    List.all_eq_true.2 hmark, Bool.and_true]

end Adjacency

end AutomatonCheck
