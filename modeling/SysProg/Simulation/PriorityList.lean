import SysProg.Lib.Runs
import SysProg.Simulation.PQueue

/-!
# Calls of `push_queue` and `pop_queue`

Any sequence of the two from the empty queue on, with a `pop_queue` only where there is a node.

* `Operate`: one call; a pop is labelled with the node that it removes;
* `Sorted`: the priorities do not decrease along the list;
* `countNodes`: the loop of `size_queue`, which counts in an `int`;
* `priority_list`: the list stays sorted, and holds what was pushed and not popped.
-/

namespace Simulation

open Runs
open scoped List

variable {α : Type*}

/-- A call. -/
inductive Call (α : Type*)
  | push (val : α) (priority : ℤ)
  | pop (node : Node α)

/-- What a call does to the list. -/
inductive Operate : List (Node α) → Call α → List (Node α) → Prop
  | push {q : List (Node α)} {v : α} {p : ℤ} : Operate q (.push v p) (pushQueue q v p)
  | pop {q q' : List (Node α)} {n : Node α} : q.head? = some n → popQueue q = some q' →
      Operate q (.pop n) q'

/-- The node that a call pushes. -/
def Call.pushed : Call α → Option (Node α)
  | .push v p => some ⟨v, p⟩
  | .pop _ => none

/-- The node that a call pops. -/
def Call.popped : Call α → Option (Node α)
  | .push _ _ => none
  | .pop n => some n

/-- The priorities do not decrease. -/
def Sorted (q : List (Node α)) : Prop := q.Pairwise fun n m => n.priority ≤ m.priority

/-- The loop of `size_queue`; the overflow of `size` is `none`. -/
def countNodes : List (Node α) → ℤ → Option ℤ
  | [], size => some size
  | _ :: next, size => if size + 1 < 2 ^ 31 then countNodes next (size + 1) else none

variable {q q' : List (Node α)} {n node : Node α} {v : α} {p : ℤ} {cs : List (Call α)}

/-! ### Sorted lists -/

theorem mem_insertNode : n ∈ insertNode node q ↔ n = node ∨ n ∈ q := by
  rw [(insertNode_perm node q).mem_iff, List.mem_cons]

/-- The node goes before the first one whose priority is not smaller. -/
theorem Sorted.insertNode (h : Sorted q) (node : Node α) : Sorted (insertNode node q) := by
  induction q with
  | nil => exact List.pairwise_singleton _ node
  | cons next rest ih =>
    obtain ⟨hnext, hrest⟩ := List.pairwise_cons.1 h
    rw [Simulation.insertNode]
    split_ifs with hlt
    · refine List.pairwise_cons.2 ⟨fun n hn => ?_, ih hrest⟩
      rcases mem_insertNode.1 hn with rfl | hn
      · exact hlt.le
      · exact hnext n hn
    · refine List.pairwise_cons.2 ⟨fun n hn => ?_, h⟩
      rcases List.mem_cons.1 hn with rfl | hn
      · exact not_lt.1 hlt
      · exact (not_lt.1 hlt).trans (hnext n hn)

/-- A push keeps the list sorted: before the head if its priority is smaller, else behind it. -/
theorem Sorted.pushQueue (h : Sorted q) (v : α) (p : ℤ) : Sorted (pushQueue q v p) := by
  cases q with
  | nil => exact List.pairwise_singleton _ _
  | cons start next =>
    obtain ⟨hstart, hnext⟩ := List.pairwise_cons.1 h
    rw [Simulation.pushQueue]
    split_ifs with hlt
    · refine List.pairwise_cons.2 ⟨fun n hn => ?_, h⟩
      rcases List.mem_cons.1 hn with rfl | hn
      · exact hlt.le
      · exact hlt.le.trans (hstart n hn)
    · have hins : Sorted (Simulation.insertNode ⟨v, p⟩ next) := Sorted.insertNode hnext ⟨v, p⟩
      refine List.pairwise_cons.2 ⟨fun n hn => ?_, hins⟩
      rcases mem_insertNode.1 hn with rfl | hn
      · exact not_lt.1 hlt
      · exact hstart n hn

/-- The head has the least priority. -/
theorem Sorted.head_le (h : Sorted q) (hn : q.head? = some n) : ∀ m ∈ q, n.priority ≤ m.priority := by
  cases q with
  | nil => cases hn
  | cons start next =>
    obtain rfl : start = n := Option.some.inj hn
    intro m hm
    rcases List.mem_cons.1 hm with rfl | hm
    · exact le_rfl
    · exact (List.pairwise_cons.1 h).1 m hm

/-! ### One call, and any number of calls -/

/-- A pop takes the head off. -/
theorem popped_eq (hn : q.head? = some n) (hq : popQueue q = some q') : q = n :: q' := by
  cases q with
  | nil => cases hn
  | cons start next =>
    obtain rfl : start = n := Option.some.inj hn
    obtain rfl : next = q' := Option.some.inj hq
    rfl

theorem Sorted.operate {c : Call α} (h : Sorted q) (hc : Operate q c q') : Sorted q' := by
  cases hc with
  | push => exact h.pushQueue _ _
  | pop hn hq =>
    rw [popped_eq hn hq] at h
    exact (List.pairwise_cons.1 h).2

/-- What a call pushes, or pops, is the difference between the lists. -/
theorem operate_perm {c : Call α} (hc : Operate q c q') :
    (q ++ c.pushed.toList).Perm (c.popped.toList ++ q') := by
  cases hc with
  | push => exact (List.perm_append_singleton _ q).trans (pushQueue_perm q _ _).symm
  | pop hn hq =>
    rw [popped_eq hn hq]
    simp [Call.pushed, Call.popped]

/-- The nodes pushed so far are those popped and those in the list. -/
theorem run_perm (h : Run Operate [] cs q) :
    (cs.filterMap Call.pushed).Perm (cs.filterMap Call.popped ++ q) := by
  have hstep : ∀ (seen : List (Call α)) s c t,
      (seen.filterMap Call.pushed).Perm (seen.filterMap Call.popped ++ s) → Operate s c t →
      ((seen ++ [c]).filterMap Call.pushed).Perm ((seen ++ [c]).filterMap Call.popped ++ t) := by
    intro seen s c t hseen hc
    have hsnoc : ∀ f : Call α → Option (Node α),
        (seen ++ [c]).filterMap f = seen.filterMap f ++ (f c).toList := by
      intro f
      rw [List.filterMap_append]
      cases hf : f c <;> simp [hf]
    rw [hsnoc, hsnoc]
    calc seen.filterMap Call.pushed ++ c.pushed.toList
      _ ~ (seen.filterMap Call.popped ++ s) ++ c.pushed.toList := hseen.append_right _
      _ ~ seen.filterMap Call.popped ++ (s ++ c.pushed.toList) := by rw [List.append_assoc]
      _ ~ seen.filterMap Call.popped ++ (c.popped.toList ++ t) := (operate_perm hc).append_left _
      _ ~ _ := by rw [List.append_assoc]
  have hstart : (([] : List (Call α)).filterMap Call.pushed).Perm
      (([] : List (Call α)).filterMap Call.popped ++ []) := List.Perm.refl []
  exact h.trace (P := fun seen s => (seen.filterMap Call.pushed).Perm
    (seen.filterMap Call.popped ++ s)) hstep hstart

/-- The loop of `size_queue` adds the number of nodes. -/
theorem countNodes_eq {size : ℤ} (h : size + q.length < 2 ^ 31) :
    countNodes q size = some (size + q.length) := by
  induction q generalizing size with
  | nil => simp [countNodes]
  | cons next rest ih =>
    rw [List.length_cons, Nat.cast_succ] at h
    rw [countNodes, if_pos (by omega), ih (by omega), List.length_cons, Nat.cast_succ]
    congr 1
    omega

/-- **The priority list.** After any calls the list is sorted and holds what was pushed and not yet
popped; it can be popped unless it is empty, a pop removes a node of least priority, and `size_queue`
counts the nodes. -/
theorem priority_list (h : Run Operate [] cs q) :
    Sorted q ∧ (cs.filterMap Call.pushed).Perm (cs.filterMap Call.popped ++ q) ∧
      (q ≠ [] → ∃ n q', Operate q (.pop n) q') ∧
      (∀ n q', Operate q (.pop n) q' → ∀ m ∈ q, n.priority ≤ m.priority) ∧
      ((cs.filterMap Call.pushed).length < (cs.filterMap Call.popped).length + 2 ^ 31 →
        countNodes q 0 =
          some ((cs.filterMap Call.pushed).length - (cs.filterMap Call.popped).length : ℤ)) := by
  have hsorted : Sorted q := h.invariant (fun _ _ _ hs hc => hs.operate hc) List.Pairwise.nil
  have hperm := run_perm h
  refine ⟨hsorted, hperm, fun hne => ?_, fun n q' hc => ?_, fun hlt => ?_⟩
  · obtain ⟨n, q', rfl⟩ := List.exists_cons_of_ne_nil hne
    exact ⟨n, q', .pop rfl rfl⟩
  · cases hc with
    | pop hn _ => exact hsorted.head_le hn
  · have hlen := hperm.length_eq
    rw [List.length_append] at hlen
    rw [countNodes_eq (by omega)]
    congr 1
    omega

/-- Three calls: the second node comes first, and is popped. -/
theorem priority_list_three : Sorted [(⟨'a', 2⟩ : Node Char)] ∧
    countNodes [(⟨'a', 2⟩ : Node Char)] 0 = some 1 := by
  have hrun : Run Operate [] [.push 'a' 2, .push 'b' (-1), .pop ⟨'b', -1⟩] [(⟨'a', 2⟩ : Node Char)] :=
    .cons .push (.cons .push (.cons (.pop rfl rfl) (.nil _)))
  have h := priority_list hrun
  exact ⟨h.1, h.2.2.2.2 (by decide)⟩

end Simulation
