import AutomatonCheck.Graph.Adjacency

/-!
# Breadth-first traversal

A traversal holds the states it has marked and the queue of marked states that it has
not yielded yet. A step takes the first state of the queue, marks its unmarked
successors, puts them at the end of the queue and then yields the state. If the state
is none of the graph's, its successors cannot be read and the traversal breaks off.

Each step shortens the queue by one state and lengthens it only by states marked for
the first time, and these occur in the graph's lists. Hence a walk to the end halts.
-/
namespace AutomatonCheck

@[ext] structure Traversal where
  marked : List Nat
  queue : List Nat
  deriving DecidableEq

/-- What a step of a traversal leads to. -/
inductive Advance where
  | finished
  | yielded (q : Nat) (rest : Traversal)
  | outOfRange
  deriving DecidableEq

namespace Traversal

/-- A traversal that starts with one state. -/
def start (origin : Nat) : Traversal := ⟨[origin], [origin]⟩

/-- Mark and queue a state, unless it is marked already. -/
def mark (t : Traversal) (p : Nat) : Traversal :=
  if p ∈ t.marked then t else ⟨p :: t.marked, t.queue ++ [p]⟩

def next (graph : Adjacency) (t : Traversal) : Advance :=
  match t.queue with
  | [] => .finished
  | q :: queue =>
    match graph.successors? q with
    | none => .outOfRange
    | some ps => .yielded q (ps.foldl mark ⟨t.marked, queue⟩)

/-- The queued states and the places in a list of states that are not marked yet. -/
def potential (pool : List Nat) (t : Traversal) : Nat :=
  t.queue.length + (pool.filter (· ∉ t.marked)).length

theorem potential_mark_le {pool : List Nat} {t : Traversal} {p : Nat} (hp : p ∈ pool) :
    (t.mark p).potential pool ≤ t.potential pool := by
  simp only [mark]
  split
  · exact Nat.le_refl _
  · next hm =>
    simp only [potential, List.length_append, List.length_singleton]
    have h : (pool.filter (· ∉ p :: t.marked)).length < (pool.filter (· ∉ t.marked)).length := by
      have hlt : ((pool.filter (· ∉ t.marked)).filter (· ≠ p)).length <
          (pool.filter (· ∉ t.marked)).length :=
        List.length_filter_lt_length_iff_exists.2 ⟨p, by simp [hp, hm], by simp⟩
      simpa [List.filter_filter, List.mem_cons] using hlt
    omega

theorem potential_foldl_mark_le {pool ps : List Nat} (t : Traversal) (h : ps ⊆ pool) :
    (ps.foldl mark t).potential pool ≤ t.potential pool := by
  induction ps generalizing t with
  | nil => exact Nat.le_refl _
  | cons p ps ih =>
    rw [List.cons_subset] at h
    exact Nat.le_trans (ih (t.mark p) h.2) (potential_mark_le h.1)

theorem potential_next_lt {graph : Adjacency} {t rest : Traversal} {q : Nat}
    (h : t.next graph = .yielded q rest) :
    rest.potential graph.lists.flatten < t.potential graph.lists.flatten := by
  simp only [next] at h
  split at h
  · cases h
  · next q' queue hq =>
    split at h
    · cases h
    · next ps hps =>
      cases h
      refine Nat.lt_of_le_of_lt
        (potential_foldl_mark_le _ (Adjacency.subset_flatten_of_successors? hps)) ?_
      simp [potential, hq]

end Traversal

/-- A walk: the states that were yielded, and whether it came to its end. -/
structure Walk where
  order : List Nat
  completed : Bool
  deriving DecidableEq

/-- Continue a traversal for as long as it yields states. -/
def Traversal.walk (graph : Adjacency) (t : Traversal) : Walk :=
  match _h : t.next graph with
  | .finished => ⟨[], true⟩
  | .outOfRange => ⟨[], false⟩
  | .yielded q rest =>
    let later := rest.walk graph
    ⟨q :: later.order, later.completed⟩
termination_by t.potential graph.lists.flatten
decreasing_by exact potential_next_lt ‹_›

/-- The number of states that a walk yields, if it comes to its end. -/
def Walk.count? (walk : Walk) : Option Nat :=
  if walk.completed then some walk.order.length else none

namespace Adjacency

/-- The walk through all states that can be reached from an origin. -/
def walkFrom (graph : Adjacency) (origin : Nat) : Walk := (Traversal.start origin).walk graph

/-- The number of states that can be reached from an origin, if the walk comes to its end. -/
def reachCount? (graph : Adjacency) (origin : Nat) : Option Nat := (graph.walkFrom origin).count?

/-- Whether a walk yields every state, if it comes to its end. -/
def coveredBy? (graph : Adjacency) (walk : Walk) : Option Bool :=
  walk.count?.map (· == graph.size)

/-- Whether every state can be reached from an origin, if the walk comes to its end. -/
def reachesAll? (graph : Adjacency) (origin : Nat) : Option Bool :=
  graph.coveredBy? (graph.walkFrom origin)

end Adjacency

end AutomatonCheck
