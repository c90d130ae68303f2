/-!
# Searching a finite graph

A search lists what can be reached from some starting nodes, each node once, in the order in which it is taken up.
Only the nodes of a finite list have links; any other node is listed where it is met and leads nowhere. The order of
taking up nodes is a parameter: breadth first appends the links of a node to the work that waits, depth first puts
them in front of it.

The search ends because every step either takes up a node with links for the first time, which uses up that node's
share of the unexplored links, or shortens the work that waits.
-/

namespace Bytecode

/-- Where the links of a node go relative to the nodes that already wait. -/
inductive SearchOrder where
  | breadthFirst
  | depthFirst
deriving DecidableEq

def SearchOrder.enqueue {α : Type} (order : SearchOrder) (fresh waiting : List α) : List α :=
  match order with
  | .breadthFirst => waiting ++ fresh
  | .depthFirst => fresh ++ waiting

@[simp] theorem SearchOrder.length_enqueue {α : Type} (order : SearchOrder) (fresh waiting : List α) :
    (order.enqueue fresh waiting).length = waiting.length + fresh.length := by
  cases order <;> simp [enqueue, Nat.add_comm]

namespace Graph

variable {α : Type} [DecidableEq α]

/-- The links of the known nodes that were not seen yet, each node counting for one more. -/
def unexplored (known : List α) (links : α → List α) (seen : List α) : Nat :=
  (known.filter (· ∉ seen)).foldr (fun node rest => (links node).length + 1 + rest) 0

theorem unexplored_cons_le (known : List α) (links : α → List α) (seen : List α) (node : α) :
    unexplored known links (node :: seen) ≤ unexplored known links seen := by
  induction known with
  | nil => simp [unexplored]
  | cons head rest ih =>
    unfold unexplored at ih ⊢
    by_cases hseen : head ∈ seen
    · simpa [hseen] using ih
    · by_cases hhead : head = node
      · subst hhead
        simp only [List.mem_cons, true_or, not_true_eq_false, decide_false, Bool.false_eq_true,
          not_false_eq_true, List.filter_cons_of_neg, hseen, decide_true, List.filter_cons_of_pos,
          List.foldr_cons] at ih ⊢
        omega
      · simp only [List.mem_cons, hhead, hseen, or_self, not_false_eq_true, decide_true,
          List.filter_cons_of_pos, List.foldr_cons] at ih ⊢
        omega

/-- Taking up a known node uses up its share. -/
theorem unexplored_cons_lt {known : List α} (links : α → List α) {seen : List α} {node : α}
    (hknown : node ∈ known) (hfresh : node ∉ seen) :
    unexplored known links (node :: seen) + (links node).length < unexplored known links seen := by
  induction known with
  | nil => exact absurd hknown List.not_mem_nil
  | cons head rest ih =>
    have hle := unexplored_cons_le rest links seen node
    by_cases hhead : head = node
    · subst hhead
      unfold unexplored at hle ⊢
      simp only [List.mem_cons, true_or, not_true_eq_false, decide_false, Bool.false_eq_true,
        not_false_eq_true, List.filter_cons_of_neg, hfresh, decide_true, List.filter_cons_of_pos,
        List.foldr_cons] at hle ⊢
      omega
    · have hrest : node ∈ rest := by
        rcases List.mem_cons.1 hknown with h | h
        · exact absurd h.symm hhead
        · exact h
      have hlt := ih hrest
      unfold unexplored at hlt ⊢
      by_cases hseen : head ∈ seen
      · simpa [hseen] using hlt
      · simp only [List.mem_cons, hhead, hseen, or_self, not_false_eq_true, decide_true,
          List.filter_cons_of_pos, List.foldr_cons] at hlt ⊢
        omega

/-- The nodes reached from those that wait, without the ones seen before, in the order in which they are taken up. -/
def searchFrom (order : SearchOrder) (known : List α) (links : α → List α) :
    (waiting seen : List α) → List α
  | [], _ => []
  | node :: waiting, seen =>
    if node ∈ seen then searchFrom order known links waiting seen
    else if node ∈ known then
      node :: searchFrom order known links (order.enqueue (links node) waiting) (node :: seen)
    else node :: searchFrom order known links waiting (node :: seen)
termination_by waiting seen => waiting.length + unexplored known links seen
decreasing_by
  · simp
  · next hfresh hknown =>
    have := unexplored_cons_lt links hknown hfresh
    simp only [SearchOrder.length_enqueue, List.length_cons]
    omega
  · have := unexplored_cons_le known links seen node
    simp only [List.length_cons]
    omega

def search (order : SearchOrder) (known : List α) (links : α → List α) (start : List α) : List α :=
  searchFrom order known links start []

end Graph

end Bytecode
