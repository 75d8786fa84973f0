import SysProg.Lib.CInt
import SysProg.Lib.Monitor
import Mathlib.Data.List.ReduceOption

/-!
# `ConsumerProducerQueue`

The queue of the spell checker, with its mutex and its condition variable: `add` waits for a slot and
pushes, `consume` waits for work and pops.  Any number of threads may call them, in any order.

* `consumerProducerQueue maxsize`: the queue as an object under a monitor;
* `popped`, `pushed`: the values popped and pushed in a run, in their order;
* `queue_linearizable`: first in, first out, within its bound, each value for one consumer;
* `queue_no_lost_wakeup`: no thread waits in vain.
-/

namespace Spellchecker

open CInt Runs Monitor

variable {T : Type*}

/-- The operations of the queue. -/
inductive Op (T : Type*)
  | add (request : T)
  | consume

/-- `ConsumerProducerQueue(mxsz)`.  The condition of `add` compares a `size_t` with an `int`, and `0`
means unlimited; `front` and `pop` on an empty queue are undefined. -/
def consumerProducerQueue (T : Type*) (maxsize : ℤ) : Object (List T) (Op T) (Option T) where
  ready
    | .add _, queue => maxsize = 0 ∨ queue.length < toSize maxsize
    | .consume, queue => queue.length ≠ 0
  act
    | .add request, queue => some (none, queue ++ [request])
    | .consume, request :: queue => some (some request, queue)
    | .consume, [] => none

/-! ### What the operations do to the queue -/

/-- The value that a step pushes. -/
def pushed {τ : Type*} : τ × Event (Op T) (Option T) → Option T
  | (_, .act (.add request) _) => some request
  | _ => none

/-- The value that a step pops. -/
def popped {τ : Type*} : τ × Event (Op T) (Option T) → Option T
  | (_, .act .consume request) => request
  | _ => none

/-- The value that the thread pops with a step. -/
def poppedBy {τ : Type*} [DecidableEq τ] (t : τ) (a : τ × Event (Op T) (Option T)) : Option T :=
  if a.1 = t then popped a else none

/-- The value that `consume` returns to the thread with a step. -/
def received {τ : Type*} [DecidableEq τ] (t : τ) : τ × Event (Op T) (Option T) → Option T
  | (u, .ret request) => if u = t then request else none
  | _ => none

section Sequential

variable {maxsize : ℤ} {queue queue' : List T} {o : Op T} {r : Option T}

/-- What an act can do: a push behind the queue, or a pop of its head. -/
theorem act_cases (h : (consumerProducerQueue T maxsize).act o queue = some (r, queue')) :
    (∃ request, o = .add request ∧ r = none ∧ queue' = queue ++ [request]) ∨
      ∃ request, o = .consume ∧ r = some request ∧ queue = request :: queue' := by
  cases o with
  | add request =>
    rw [consumerProducerQueue, Option.some.injEq, Prod.mk.injEq] at h
    exact Or.inl ⟨request, rfl, h.1.symm, h.2.symm⟩
  | consume =>
    cases queue with
    | nil => exact nomatch h
    | cons request queue =>
      rw [consumerProducerQueue, Option.some.injEq, Prod.mk.injEq] at h
      exact Or.inr ⟨request, rfl, h.1.symm, by rw [h.2]⟩

/-- An act that is ready keeps the queue within its bound. -/
theorem act_length_le (hmax : maxsize < 2 ^ 31) (hpos : 0 < maxsize)
    (hready : (consumerProducerQueue T maxsize).ready o queue)
    (h : (consumerProducerQueue T maxsize).act o queue = some (r, queue'))
    (hlen : (queue.length : ℤ) ≤ maxsize) : (queue'.length : ℤ) ≤ maxsize := by
  obtain ⟨request, rfl, -, rfl⟩ | ⟨request, rfl, -, rfl⟩ := act_cases h
  · have hsize : toSize maxsize = maxsize.toNat := toSize_of_nonneg hpos.le (by omega)
    have hslot : queue.length < maxsize.toNat := hsize ▸ hready.resolve_left hpos.ne'
    rw [List.length_append, List.length_singleton]
    omega
  · rw [List.length_cons] at hlen
    omega

end Sequential

/-! ### Runs of the threads -/

section Runs

variable {τ : Type*} [DecidableEq τ] {maxsize : ℤ}
  {s s' : State τ (List T) (Op T) (Option T)} {ls : List (τ × Event (Op T) (Option T))}

/-- First in, first out: what is popped, followed by the queue, is what was pushed. -/
theorem run_fifo (h : Run (Step (consumerProducerQueue T maxsize)) s ls s') :
    s.shared ++ ls.filterMap pushed = ls.filterMap popped ++ s'.shared := by
  refine h.balance (f := State.shared) fun s a s' hstep => ?_
  cases hstep with
  | act _ hact =>
    obtain ⟨request, rfl, rfl, rfl⟩ | ⟨request, rfl, rfl, hqueue⟩ := act_cases hact
    · simp [pushed, popped]
    · simp [pushed, popped, hqueue]
  | _ => simp [pushed, popped]

/-- What a thread has popped is what it has received, and what it has in hand. -/
theorem run_received (h : Run (Step (consumerProducerQueue T maxsize)) s ls s') (t : τ) :
    (s.pc t).inHand.reduceOption ++ ls.filterMap (poppedBy t) =
      ls.filterMap (received t) ++ (s'.pc t).inHand.reduceOption := by
  refine h.balance (f := fun s => (s.pc t).inHand.reduceOption) fun s a s' hstep => ?_
  obtain ⟨u, e⟩ := a
  by_cases htu : t = u
  · subst htu
    cases hstep with
    | act hpc hact =>
      obtain ⟨request, rfl, rfl, -⟩ | ⟨request, rfl, rfl, -⟩ := act_cases hact
      · simp [poppedBy, received, popped, hpc, Pc.inHand]
      · simp [poppedBy, received, popped, hpc, Pc.inHand]
    | @ret _ r hpc =>
      cases r <;> simp [poppedBy, received, popped, hpc, Pc.inHand]
    | _ => simp_all [poppedBy, received, popped, Pc.inHand]
  · rw [hstep.frame Pc.inHand_woken htu]
    cases e <;> simp [poppedBy, received, Ne.symm htu]

/-- The queue stays within its bound. -/
theorem run_length_le (hmax : maxsize < 2 ^ 31) (hpos : 0 < maxsize)
    (h : Run (Step (consumerProducerQueue T maxsize)) (start [] : State τ _ _ _) ls s) :
    (s.shared.length : ℤ) ≤ maxsize :=
  (run_acts (inv_start _ _) h).invariant (P := fun queue => (queue.length : ℤ) ≤ maxsize)
    (fun _ _ _ hlen hact => act_length_le hmax hpos hact.1 hact.2 hlen) hpos.le

/-- **The queue is a linearizable bounded FIFO**, for any number of threads and any order of their
steps: its acts are a sequential run, each between the call and the return of its operation; what is
popped, followed by the queue, is what was pushed; no pop runs on an empty queue; the queue stays
within its bound; and each value goes to the one thread that has popped it. -/
theorem queue_linearizable (hmax : maxsize < 2 ^ 31)
    (h : Run (Step (consumerProducerQueue T maxsize)) (start []) ls s) :
    Run (consumerProducerQueue T maxsize).Seq [] (ls.filterMap acted) s.shared ∧
      (∀ t, ls.filterMap (called t) = ls.filterMap (performed t) ++ (s.pc t).pending) ∧
      (∀ t, ls.filterMap (obtained t) = ls.filterMap (returned t) ++ (s.pc t).inHand) ∧
      ls.filterMap popped ++ s.shared = ls.filterMap pushed ∧
      (∀ t, s.pc t = .acting .consume → s.shared ≠ []) ∧
      (0 < maxsize → (s.shared.length : ℤ) ≤ maxsize) ∧
      ∀ t, ls.filterMap (poppedBy t) =
        ls.filterMap (received t) ++ (s.pc t).inHand.reduceOption := by
  have hstart : Inv (consumerProducerQueue T maxsize) (start [] : State τ _ _ _) := inv_start _ _
  refine ⟨run_acts hstart h, run_calls h, run_returns h, (run_fifo h).symm, fun t ht => ?_,
    fun hpos => run_length_le hmax hpos h, run_received h⟩
  have hready : s.shared.length ≠ 0 := (run_inv h hstart).acting t .consume ht
  exact fun hempty => hready (by rw [hempty, List.length_nil])

/-- A consumer parks on the empty queue, a producer pushes and wakes it, and it pops. -/
def handoverRun : List (Bool × Event (Op ℕ) (Option ℕ)) :=
  [(false, .call .consume), (false, .lock), (false, .test), (false, .wait), (true, .call (.add 7)),
    (true, .lock), (true, .test), (true, .act (.add 7) none), (true, .unlock), (true, .notify),
    (false, .lock), (false, .test), (false, .act .consume (some 7))]

/-- The consumer is parked, and what it waits for has been pushed. -/
theorem parkedRun_run : ∃ s : State Bool (List ℕ) (Op ℕ) (Option ℕ),
    Run (Step (consumerProducerQueue ℕ 1)) (start []) (handoverRun.take 8) s ∧
      s.pc false = .parked .consume ∧ s.pc true = .unlocking none ∧ s.shared = [7] := by
  refine Run.exists_cons (.call Op.consume rfl) ?_
  refine Run.exists_cons (.lock rfl rfl) ?_
  refine Run.exists_cons (.unready rfl fun h => h rfl) ?_
  refine Run.exists_cons (.wait rfl) ?_
  refine Run.exists_cons (.call (Op.add 7) rfl) ?_
  refine Run.exists_cons (.lock rfl rfl) ?_
  refine Run.exists_cons (.ready rfl (Or.inr Nat.zero_lt_one)) ?_
  refine Run.exists_cons (.act rfl rfl) ?_
  exact ⟨_, .nil _, rfl, rfl, rfl⟩

/-- The producer wakes the consumer, which tests the queue again. -/
theorem handoverRun_run : ∃ s : State Bool (List ℕ) (Op ℕ) (Option ℕ),
    Run (Step (consumerProducerQueue ℕ 1)) (start []) handoverRun s ∧ s.shared = [] := by
  obtain ⟨s, hparked, hconsumer, hproducer, hshared⟩ := parkedRun_run
  have hready : s.shared.length ≠ 0 := by
    rw [hshared]
    exact Nat.one_ne_zero
  have hact : (consumerProducerQueue ℕ 1).act .consume s.shared = some (some 7, []) := by
    rw [hshared]
    rfl
  have hwoken : ((s.goto true (.notifying none)).pc false).woken = .waking .consume := by
    rw [State.goto_pc_of_ne _ _ Bool.false_ne_true, hconsumer]
    rfl
  obtain ⟨s', hhandover, hempty⟩ : ∃ s', Run (Step (consumerProducerQueue ℕ 1)) s
      (handoverRun.drop 8) s' ∧ s'.shared = [] := by
    refine Run.exists_cons (.unlock hproducer) ?_
    refine Run.exists_cons (.notify (State.goto_pc_self _ _ _)) ?_
    refine Run.exists_cons (.relock hwoken rfl) ?_
    refine Run.exists_cons (.ready (State.goto_pc_self _ _ _) hready) ?_
    refine Run.exists_cons (.act (State.goto_pc_self _ _ _) hact) ?_
    exact ⟨_, .nil _, rfl⟩
  exact ⟨s', hparked.append hhandover, hempty⟩

theorem queue_linearizable_handover : ∃ s : State Bool (List ℕ) (Op ℕ) (Option ℕ),
    Run (Step (consumerProducerQueue ℕ 1)) (start []) handoverRun s ∧ s.shared = [] ∧
      handoverRun.filterMap popped ++ s.shared = handoverRun.filterMap pushed := by
  obtain ⟨s, hrun, hshared⟩ := handoverRun_run
  exact ⟨s, hrun, hshared, (queue_linearizable (by norm_num) hrun).2.2.2.1⟩

/-- **No lost wakeup**: a thread that is parked while its condition holds was parked before another
thread changed the queue, and that one has still to execute its `notify_all`. -/
theorem queue_no_lost_wakeup {t : τ} {o : Op T}
    (h : Run (Step (consumerProducerQueue T maxsize)) (start []) ls s) (hpark : s.pc t = .parked o)
    (hready : (consumerProducerQueue T maxsize).ready o s.shared) :
    ∃ pre post, ls = pre ++ (t, .wait) :: post ∧ (∀ a ∈ post, a.1 ≠ t) ∧
      ∃ u, u ≠ t ∧ (s.pc u).Owes ∧ ∃ before o' r after,
        post = before ++ (u, .act o' r) :: after ∧ (u, .notify) ∉ after := by
  obtain ⟨pre, post, hls, hpost, hawaits⟩ := run_awaited h hpark
  exact ⟨pre, post, hls, hpost, hawaits hready⟩

theorem queue_no_lost_wakeup_parked : ∃ s : State Bool (List ℕ) (Op ℕ) (Option ℕ),
    Run (Step (consumerProducerQueue ℕ 1)) (start []) (handoverRun.take 8) s ∧
      s.pc false = .parked .consume ∧ s.shared = [7] ∧ ∃ u, u ≠ false ∧ (s.pc u).Owes := by
  obtain ⟨s, hrun, hparked, -, hshared⟩ := parkedRun_run
  obtain ⟨-, -, -, -, u, hu, howes, -⟩ := queue_no_lost_wakeup hrun hparked (by
    simp [consumerProducerQueue, hshared])
  exact ⟨s, hrun, hparked, hshared, u, hu, howes⟩

end Runs

end Spellchecker
