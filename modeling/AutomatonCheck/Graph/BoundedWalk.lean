import AutomatonCheck.Graph.Traversal

/-!
# Walks with bounded marks

Marks are kept in a table with a place for every index up to the largest one marked.
The length of the table is a word of 64 bits, so the index `2 ^ 64 - 1` has no place in
any table and cannot be marked.

With bounded marks no walk starts from an index that cannot be marked, and a walk breaks
off at the first state that has such a successor, before it yields the state. Up to
there it takes the same steps as a walk without a bound. If all indices of a graph can
be marked, the bound makes no difference.
-/
namespace AutomatonCheck

/-- The indices below this one can be marked. -/
def markBound : Nat := UInt64.size - 1

namespace Adjacency

/-- Whether all successors of a state can be marked. -/
def canMark (graph : Adjacency) (bound q : Nat) : Bool :=
  (graph.successors? q).all fun ps => ps.all (· < bound)

/-- The walk from an origin with bounded marks, if the origin can be marked. -/
def walkWithin? (graph : Adjacency) (bound origin : Nat) : Option Walk :=
  if origin < bound then
    let walk := graph.walkFrom origin
    some ⟨walk.order.takeWhile (graph.canMark bound),
      walk.completed && walk.order.all (graph.canMark bound)⟩
  else none

theorem canMark_of_forall_lt {graph : Adjacency} {bound : Nat}
    (h : ∀ ps ∈ graph.lists, ∀ p ∈ ps, p < bound) (q : Nat) : graph.canMark bound q = true := by
  cases hq : graph.successors? q with
  | none => simp [canMark, hq]
  | some ps => simpa [canMark, hq] using h ps (List.mem_of_getElem? hq)

end Adjacency

end AutomatonCheck
