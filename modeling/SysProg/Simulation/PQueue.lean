import Mathlib.Data.List.Perm.Basic
import Mathlib.Data.List.Basic
import Mathlib.Tactic

/-!
# The lists of `pqueue.c`

A queue is a linked list of nodes, each with a value and a priority.

* `pushQueue`, `pushQueueEnd`, `popQueue`, `sizeQueue`: the operations of `pqueue.c`;
* `pushQueue_perm`: a push adds one node, wherever it puts it;
* `pushQueue_cons`: a priority that is not below the others does not displace the head;
* `pushQueue_eq_append`: when a push puts its node at the end.
-/

namespace Simulation

variable {α : Type*}

/-- `struct node`, without the link to the next one. -/
@[ext] structure Node (α : Type*) where
  val : α
  priority : ℤ
  deriving DecidableEq, Repr

/-- The loop of `push_queue` behind the head: the node goes before the first one whose priority is
not smaller. -/
def insertNode (node : Node α) : List (Node α) → List (Node α)
  | [] => [node]
  | next :: rest =>
      if next.priority < node.priority then next :: insertNode node rest
      else node :: next :: rest

/-- Push to the appropriate position.  Only a greater priority of the head lets the node go before
it. -/
def pushQueue (head : List (Node α)) (val : α) (priority : ℤ) : List (Node α) :=
  match head with
  | [] => [⟨val, priority⟩]
  | start :: next =>
      if start.priority > priority then ⟨val, priority⟩ :: start :: next
      else start :: insertNode ⟨val, priority⟩ next

/-- Insert to the end of the queue, with priority `0`. -/
def pushQueueEnd (head : List (Node α)) (val : α) : List (Node α) := head ++ [⟨val, 0⟩]

/-- Remove the head.  There must be one: the code reads `(*head)->next`. -/
def popQueue : List (Node α) → Option (List (Node α))
  | [] => none
  | _ :: next => some next

/-- The number of nodes (the code counts in an `int`). -/
def sizeQueue (head : List (Node α)) : ℕ := head.length

/-! ### Where a push puts its node -/

variable {q : List (Node α)} {v : α} {p : ℤ}

theorem insertNode_perm (node : Node α) (q : List (Node α)) :
    (insertNode node q).Perm (node :: q) := by
  induction q with
  | nil => rfl
  | cons next rest ih =>
    rw [insertNode]
    split_ifs
    · exact (ih.cons next).trans (List.Perm.swap node next rest)
    · rfl

theorem pushQueue_perm (q : List (Node α)) (v : α) (p : ℤ) :
    (pushQueue q v p).Perm (⟨v, p⟩ :: q) := by
  cases q with
  | nil => rfl
  | cons start next =>
    rw [pushQueue]
    split_ifs
    · rfl
    · exact ((insertNode_perm _ next).cons start).trans (List.Perm.swap _ start next)

@[simp] theorem length_pushQueue : (pushQueue q v p).length = q.length + 1 :=
  (pushQueue_perm q v p).length_eq

/-- The values in the queue after a push. -/
theorem map_val_pushQueue_perm (q : List (Node α)) (v : α) (p : ℤ) :
    ((pushQueue q v p).map Node.val).Perm (v :: q.map Node.val) :=
  (pushQueue_perm q v p).map Node.val

/-- A head of no greater priority stays the head. -/
theorem pushQueue_cons {start : Node α} (h : start.priority ≤ p) :
    pushQueue (start :: q) v p = start :: insertNode ⟨v, p⟩ q := by
  rw [pushQueue, if_neg h.not_gt]

theorem insertNode_eq_append {node : Node α} (h : ∀ n ∈ q, n.priority < node.priority) :
    insertNode node q = q ++ [node] := by
  induction q with
  | nil => rfl
  | cons next rest ih =>
    rw [insertNode, if_pos (h next List.mem_cons_self),
      ih fun n hn => h n (List.mem_cons_of_mem next hn), List.cons_append]

/-- **Where a push is first in, first out**: behind the head there is no priority as great. -/
theorem pushQueue_eq_append (hhead : ∀ n ∈ q, n.priority ≤ p) (htail : ∀ n ∈ q.tail, n.priority < p) :
    pushQueue q v p = q ++ [⟨v, p⟩] := by
  cases q with
  | nil => rfl
  | cons start next =>
    rw [pushQueue_cons (hhead start List.mem_cons_self), insertNode_eq_append htail,
      List.cons_append]

end Simulation
