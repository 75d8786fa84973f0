import SysProg.Lib.Work
import SysProg.Spellchecker.Sessions

/-!
# The server at rest

Without a new connection and without anything delivered on an old one, the server comes to rest after
a bounded number of steps, in whatever order its threads take them.  Then no accepted connection waits
while a worker is free, and all that has been logged is in the file.

* `Label.Internal`: the steps that need nobody else;
* `Server.Resting`, `resting_of_stuck`: where the threads are if there is no such step;
* `Server.work`, `Server.Ordered.work_lt`: each such step lowers the work that is left;
* `server_rests`: the result for runs.
-/

namespace Spellchecker

open ByteFile Runs Monitor

variable {W : Type*}

/-- The steps of the server by itself: not a connection, not a result of `recv`, and not a wakeup
without a reason. -/
def Label.Internal : Label W → Prop
  | .accept _ | .recv _ _ _ | .sockets (_, .wake) | .log_queue (_, .wake) => False
  | _ => True

/-- `main` is in `accept`, each worker waits for its client or for a connection, and no connection
waits for such a worker; the logger waits, and all that has been logged is in the file. -/
structure Server.Resting (s : Server W) : Prop where
  main : s.sockets.pc .main = .outside
  workers : ∀ w, (∃ fd c, s.workers w = .responding fd c) ∨
    s.workers w = .idle ∧ s.sockets.pc (.worker w) = .parked .consume ∧ s.sockets.shared = []
  logger : s.log_queue.pc .logger = .parked .consume
  unwritten : s.unwritten = []
  unpushed : ∀ w, s.unpushed w = []

section Stuck

variable {T : Type*} {maxsize : ℤ} {o : Op T} {queue : List T}

/-- An operation that is ready can act. -/
theorem exists_act (hready : (consumerProducerQueue T maxsize).ready o queue) :
    ∃ a, (consumerProducerQueue T maxsize).act o queue = some a := by
  cases o with
  | add request => exact ⟨_, rfl⟩
  | consume =>
    cases queue with
    | nil => exact absurd rfl hready
    | cons request queue => exact ⟨_, rfl⟩

/-- Without a bound, an operation that is not ready is a `consume` on an empty queue. -/
theorem consume_of_unready (hready : ¬(consumerProducerQueue T 0).ready o queue) :
    o = .consume ∧ queue = [] := by
  cases o with
  | add request => exact absurd (Or.inl rfl) hready
  | consume =>
    cases queue with
    | nil => exact ⟨rfl, rfl⟩
    | cons request queue => exact absurd (Nat.succ_ne_zero _) hready

end Stuck

variable [DecidableEq W] {dict : Finset (List Byte)} {s t : Server W} {a : Label W}
  {ls : List (Label W)}

/-- If the server takes no step by itself, it is at rest. -/
theorem resting_of_stuck (h : Run (Server.Step dict) (.start W) ls s)
    (hstuck : ∀ a t, a.Internal → ¬Server.Step dict s a t) : s.Resting := by
  have hord := run_ordered h Server.ordered_start
  have hsockets := settled_of_stuck (run_sockets h) (fun _ _ => exists_act) (by
    rintro ⟨u, e, q, hq, he, hwake⟩
    refine hstuck (.sockets (u, e)) _ ?_ (.sockets he hq)
    cases e <;> trivial)
  have hlog := settled_of_stuck (run_log h) (fun _ _ => exists_act) (by
    rintro ⟨u, e, q, hq, he, hwake⟩
    refine hstuck (.log_queue (u, e)) _ ?_ (.log_queue he hq)
    cases e <;> trivial)
  have houtside : ∀ w, s.log_queue.pc (.worker w) = .outside := by
    intro w
    rcases hlog (.worker w) with hout | ⟨r, hret⟩ | ⟨o, hpark, hready⟩
    · exact hout
    · obtain ⟨fd, c, more, hw⟩ := (hord.logging w).1 (by simp [hret])
      have hr : logResults (.worker w) r := (hord.log _).2 r (by simp [hret, Pc.inHand])
      cases r with
      | none => exact absurd (.logged hw (.ret hret)) (hstuck (.logged w) _ trivial)
      | some logtxt => exact hr.elim
    · have hop : logOps (.worker w) o := (hord.log _).1 o (by simp [hpark, Pc.pending])
      rw [(consume_of_unready hready).1] at hop
      exact hop.elim
  have hlogger : s.log_queue.pc .logger = .parked .consume ∧ s.log_queue.shared = [] := by
    rcases hlog .logger with hout | ⟨r, hret⟩ | ⟨o, hpark, hready⟩
    · cases hlogtxt : s.logtxt with
      | none => exact absurd (.fetch hlogtxt (.call _ hout)) (hstuck .fetch _ trivial)
      | some logtxt => exact absurd (.write hlogtxt) (hstuck (.write logtxt) _ trivial)
    · have hr : logResults .logger r := (hord.log _).2 r (by simp [hret, Pc.inHand])
      cases r with
      | none => exact hr.elim
      | some logtxt => exact absurd (.take (.ret hret)) (hstuck (.take logtxt) _ trivial)
    · obtain ⟨rfl, hempty⟩ := consume_of_unready hready
      exact ⟨hpark, hempty⟩
  refine ⟨?_, fun w => ?_, hlogger.1, ?_, fun w => ?_⟩
  · rcases hsockets .main with hout | ⟨r, hret⟩ | ⟨o, hpark, hready⟩
    · exact hout
    · have hr : socketResults .main r := (hord.sockets _).2 r (by simp [hret, Pc.inHand])
      cases r with
      | none => exact absurd (.accepted (.ret hret)) (hstuck .accepted _ trivial)
      | some fd => exact hr.elim
    · have hop : socketOps .main o := (hord.sockets _).1 o (by simp [hpark, Pc.pending])
      rw [(consume_of_unready hready).1] at hop
      exact hop.elim
  · cases hw : s.workers w with
    | responding fd c => exact Or.inl ⟨fd, c, rfl⟩
    | logging fd c more => exact absurd (houtside w) ((hord.logging w).2 ⟨fd, c, more, hw⟩)
    | closing fd c => exact absurd (.close hw) (hstuck (.close w fd) _ trivial)
    | idle =>
      rcases hsockets (.worker w) with hout | ⟨r, hret⟩ | ⟨o, hpark, hready⟩
      · exact absurd (.consume hw (.call _ hout)) (hstuck (.consume w) _ trivial)
      · have hr : socketResults (.worker w) r := (hord.sockets _).2 r (by simp [hret, Pc.inHand])
        cases r with
        | none => exact hr.elim
        | some fd => exact absurd (.serve (.ret hret)) (hstuck (.serve w fd) _ trivial)
      · obtain ⟨rfl, hempty⟩ := consume_of_unready hready
        exact Or.inr ⟨rfl, hpark, hempty⟩
  · rw [Server.unwritten, hord.writing (by simp [hlogger.1]), hlogger.1, hlogger.2]
    rfl
  · rw [Server.unpushed, houtside w]
    rfl

/-! ### The work that is left -/

/-- What is left to do for a worker outside of `log_queue`, and outside of `sockets` too if it is
idle; `n` is the work of a call. -/
def Worker.work (n : ℕ) : Worker → Pc (Op ℕ) (Option ℕ) → ℕ
  | .idle, .outside => n + 1
  | .logging _ _ _, _ => n + 3
  | .closing _ _, _ => n + 2
  | _, _ => 0

/-- What is left to do for the logger before its next call. -/
def loggerWork (n : ℕ) : Option (List Byte) → Pc (Op (List Byte)) (Option (List Byte)) → ℕ
  | none, .outside => n + 1
  | _, _ => 0

theorem Worker.work_congr (n : ℕ) (x : Worker) {p q : Pc (Op ℕ) (Option ℕ)}
    (h : p = .outside ↔ q = .outside) : x.work n p = x.work n q := by
  cases x <;> cases p <;> cases q <;> simp_all [Worker.work]

theorem loggerWork_congr (n : ℕ) (logtxt : Option (List Byte))
    {p q : Pc (Op (List Byte)) (Option (List Byte))} (h : p = .outside ↔ q = .outside) :
    loggerWork n logtxt p = loggerWork n logtxt q := by
  cases logtxt <;> cases p <;> cases q <;> simp_all [loggerWork]

theorem Worker.work_idle_le (n : ℕ) (p : Pc (Op ℕ) (Option ℕ)) : Worker.idle.work n p ≤ n + 1 := by
  cases p <;> simp [Worker.work]

theorem Worker.work_idle {n : ℕ} {p : Pc (Op ℕ) (Option ℕ)} (h : p ≠ .outside) :
    Worker.idle.work n p = 0 := by
  cases p <;> first | rfl | exact absurd rfl h

theorem loggerWork_le (n : ℕ) (logtxt : Option (List Byte))
    (p : Pc (Op (List Byte)) (Option (List Byte))) : loggerWork n logtxt p ≤ n + 1 := by
  cases logtxt <;> cases p <;> simp [loggerWork]

theorem loggerWork_inside {n : ℕ} {logtxt : Option (List Byte)}
    {p : Pc (Op (List Byte)) (Option (List Byte))} (h : p ≠ .outside) :
    loggerWork n logtxt p = 0 := by
  cases logtxt <;> cases p <;> first | rfl | exact absurd rfl h

variable [Fintype W]

/-- The work of a call. -/
def callWork (W : Type*) [Fintype W] : ℕ := 3 * Fintype.card (Thread W) + 6

/-- What is left to do for the workers, outside of the queues. -/
def Server.workersWork (s : Server W) : ℕ :=
  ∑ w, (s.workers w).work (callWork W) (s.sockets.pc (.worker w))

/-- How many texts are on their way to the file. -/
def Server.texts (s : Server W) : ℕ := s.unwritten.length + ∑ w, (s.unpushed w).length

/-- The work that is left.  Each text costs a round of the logger. -/
def Server.work (s : Server W) : ℕ :=
  Monitor.work s.sockets + Monitor.work s.log_queue + s.workersWork +
    loggerWork (callWork W) s.logtxt (s.log_queue.pc .logger) + (callWork W + 2) * s.texts

omit [DecidableEq W] in
theorem workersWork_congr (hworkers : ∀ w, t.workers w = s.workers w)
    (hpc : ∀ w, t.sockets.pc (.worker w) = .outside ↔ s.sockets.pc (.worker w) = .outside) :
    t.workersWork = s.workersWork :=
  Finset.sum_congr rfl fun w _ => by rw [hworkers w, Worker.work_congr _ _ (hpc w)]

theorem workersWork_of_ne {w : W} (hworkers : ∀ v, v ≠ w → t.workers v = s.workers v)
    (hpc : ∀ v, v ≠ w → (t.sockets.pc (.worker v) = .outside ↔ s.sockets.pc (.worker v) = .outside)) :
    t.workersWork + (s.workers w).work (callWork W) (s.sockets.pc (.worker w)) =
      s.workersWork + (t.workers w).work (callWork W) (t.sockets.pc (.worker w)) :=
  sum_add_of_ne (f := fun v => (s.workers v).work (callWork W) (s.sockets.pc (.worker v)))
    (g := fun v => (t.workers v).work (callWork W) (t.sockets.pc (.worker v))) (Finset.mem_univ w)
    fun v hv => by rw [hworkers v hv, Worker.work_congr _ _ (hpc v hv)]

/-- A text leaves when it is written, and none comes in without `recv`. -/
theorem Server.Ordered.texts_step (h : s.Ordered) (hstep : Server.Step dict s a t)
    (ha : a.Internal) : a.written.toList.length + t.texts = s.texts := by
  have hunwritten := congrArg List.length (h.unwritten_step hstep)
  have hunpushed := fun w => congrArg List.length (h.unpushed_step hstep w)
  have hlogged : ∀ w, a.loggedBy w = none := by
    intro w
    cases a with
    | recv _ _ _ => exact ha.elim
    | _ => rfl
  have hpush : ∑ w, (a.push.bind fun p => if p.1 = w then some p.2 else none).toList.length =
      (a.push.map Prod.snd).toList.length := by
    cases a.push with
    | none => simp
    | some p => simp [apply_ite Option.toList, apply_ite List.length]
  have hsum := Finset.sum_congr rfl fun w (_ : w ∈ Finset.univ) => hunpushed w
  simp only [hlogged, List.length_append, Option.toList_none, List.length_nil, Nat.add_zero,
    Finset.sum_add_distrib, hpush] at hsum hunwritten
  rw [Server.texts, Server.texts]
  omega

omit [DecidableEq W] in
/-- If no text is written, each text costs what it did before. -/
theorem work_lt_of_texts (htexts : t.texts = s.texts)
    (h : Monitor.work t.sockets + Monitor.work t.log_queue + t.workersWork +
      loggerWork (callWork W) t.logtxt (t.log_queue.pc .logger) <
        Monitor.work s.sockets + Monitor.work s.log_queue + s.workersWork +
          loggerWork (callWork W) s.logtxt (s.log_queue.pc .logger)) : t.work < s.work := by
  rw [Server.work, Server.work, htexts]
  exact Nat.add_lt_add_right h _

/-- **Each step of the server by itself lowers the work that is left.** -/
theorem Server.Ordered.work_lt (h : s.Ordered) (hstep : Server.Step dict s a t) (ha : a.Internal) :
    t.work < s.work := by
  have htexts := h.texts_step hstep ha
  cases hstep with
  | accept _ _ => exact ha.elim
  | recv _ _ _ => exact ha.elim
  | @accepted q hq =>
    have hmonitor : Monitor.work q < Monitor.work s.sockets := hq.work_lt (by simp) (by simp)
    have hworkers : (s.setSockets q).workersWork = s.workersWork :=
      workersWork_congr (fun _ => rfl) fun w => hq.outside_iff (Or.inl (by simp))
    refine work_lt_of_texts ((Nat.zero_add _).symm.trans htexts) ?_
    simp only [Server.setSockets] at hworkers ⊢
    omega
  | @consume w q hidle hq =>
    have hmonitor : Monitor.work q = Monitor.work s.sockets + callWork W := hq.work_call
    have hworkers := workersWork_of_ne (s := s) (t := s.setSockets q) (w := w) (fun _ _ => rfl)
      fun v hv => hq.outside_iff (Or.inl (by simpa using hv))
    have hbefore : (s.workers w).work (callWork W) (s.sockets.pc (.worker w)) = callWork W + 1 := by
      rw [hidle, hq.call_view.2.1]
      rfl
    have hbehind : (s.workers w).work (callWork W) (q.pc (.worker w)) = 0 := by
      rw [hidle]
      exact Worker.work_idle hq.ne_outside_of_call
    refine work_lt_of_texts ((Nat.zero_add _).symm.trans htexts) ?_
    simp only [Server.setSockets] at hworkers ⊢
    omega
  | @serve w fd q hq =>
    have hmonitor : Monitor.work q < Monitor.work s.sockets := hq.work_lt (by simp) (by simp)
    have hworkers := workersWork_of_ne (s := s)
      (t := (s.setSockets q).setWorker w (.responding fd .fresh)) (w := w)
      (fun v hv => Server.setWorker_of_ne _ hv _)
      fun v hv => hq.outside_iff (Or.inl (by simpa using hv))
    have hbehind : ∀ p, (((s.setSockets q).setWorker w (.responding fd .fresh)).workers w).work
        (callWork W) p = 0 := by
      rw [Server.setWorker_self]
      exact fun _ => rfl
    rw [hbehind] at hworkers
    refine work_lt_of_texts ((Nat.zero_add _).symm.trans htexts) ?_
    simp only [Server.setSockets, Server.setWorker] at hworkers ⊢
    omega
  | @logged w fd c more q hat hq =>
    have hmonitor : Monitor.work q < Monitor.work s.log_queue := hq.work_lt (by simp) (by simp)
    have hworkers := workersWork_of_ne (s := s)
      (t := (s.setLog q).setWorker w (if more then .responding fd c else .closing fd c)) (w := w)
      (fun v hv => Server.setWorker_of_ne _ hv _) fun _ _ => Iff.rfl
    have hbefore : ∀ p, (s.workers w).work (callWork W) p = callWork W + 3 := by
      rw [hat]
      exact fun _ => rfl
    have hbehind : ∀ p, (((s.setLog q).setWorker w
        (if more then .responding fd c else .closing fd c)).workers w).work (callWork W) p ≤
          callWork W + 2 := by
      rw [Server.setWorker_self]
      cases more
      · exact fun _ => le_rfl
      · exact fun _ => Nat.zero_le _
    have hlogger : loggerWork (callWork W) s.logtxt (q.pc .logger) =
        loggerWork (callWork W) s.logtxt (s.log_queue.pc .logger) :=
      loggerWork_congr _ _ (hq.outside_iff (Or.inl (by simp)))
    have hle := hbehind (s.sockets.pc (.worker w))
    rw [hbefore] at hworkers
    refine work_lt_of_texts ((Nat.zero_add _).symm.trans htexts) ?_
    simp only [Server.setLog, Server.setWorker] at hworkers hle ⊢
    omega
  | @close w fd c hat =>
    have hworkers := workersWork_of_ne (s := s)
      (t := { s.setWorker w .idle with opened := s.opened \ {fd} }) (w := w)
      (fun v hv => Server.setWorker_of_ne s hv _) fun _ _ => Iff.rfl
    have hbefore : ∀ p, (s.workers w).work (callWork W) p = callWork W + 2 := by
      rw [hat]
      exact fun _ => rfl
    have hbehind : ((s.setWorker w .idle).workers w).work (callWork W) (s.sockets.pc (.worker w)) ≤
        callWork W + 1 := by
      rw [Server.setWorker_self]
      exact Worker.work_idle_le _ _
    rw [hbefore] at hworkers
    refine work_lt_of_texts ((Nat.zero_add _).symm.trans htexts) ?_
    simp only [Server.setWorker] at hworkers hbehind ⊢
    omega
  | @fetch q hnone hq =>
    have hmonitor : Monitor.work q = Monitor.work s.log_queue + callWork W := hq.work_call
    have hbefore : loggerWork (callWork W) s.logtxt (s.log_queue.pc .logger) = callWork W + 1 := by
      rw [hnone, hq.call_view.2.1]
      rfl
    have hbehind : loggerWork (callWork W) s.logtxt (q.pc .logger) = 0 :=
      loggerWork_inside hq.ne_outside_of_call
    have hworkers : (s.setLog q).workersWork = s.workersWork := rfl
    refine work_lt_of_texts ((Nat.zero_add _).symm.trans htexts) ?_
    simp only [Server.setLog] at hworkers ⊢
    omega
  | @take logtxt q hq =>
    have hmonitor : Monitor.work q < Monitor.work s.log_queue := hq.work_lt (by simp) (by simp)
    have hbehind : loggerWork (callWork W) (some logtxt) (q.pc .logger) = 0 := rfl
    have hworkers : Server.workersWork { s.setLog q with logtxt := some logtxt } = s.workersWork := rfl
    refine work_lt_of_texts ((Nat.zero_add _).symm.trans htexts) ?_
    simp only [Server.setLog] at hworkers ⊢
    omega
  | @write logtxt hsome =>
    -- the text pays for the next round of the logger
    have hbehind := loggerWork_le (callWork W) none (s.log_queue.pc .logger)
    have hworkers : Server.workersWork { s with logFile := s.logFile ++ logtxt, logtxt := none } =
        s.workersWork := rfl
    have hcost : (callWork W + 2) * s.texts = (callWork W + 2) *
        Server.texts { s with logFile := s.logFile ++ logtxt, logtxt := none } + (callWork W + 2) := by
      rw [← htexts, ← Nat.mul_succ]
      exact congrArg _ (Nat.add_comm 1 _)
    rw [Server.work, Server.work, hcost]
    simp only at hworkers ⊢
    omega
  | @sockets u e q he hq =>
    have hmonitor : Monitor.work q < Monitor.work s.sockets := hq.work_lt
      (by rintro o rfl; exact he) (by rintro rfl; exact ha)
    have hworkers : (s.setSockets q).workersWork = s.workersWork :=
      workersWork_congr (fun _ => rfl) fun w => hq.outside_iff (Or.inr he)
    refine work_lt_of_texts ((Nat.zero_add _).symm.trans htexts) ?_
    simp only [Server.setSockets] at hworkers ⊢
    omega
  | @log_queue u e q he hq =>
    have hmonitor : Monitor.work q < Monitor.work s.log_queue := hq.work_lt
      (by rintro o rfl; exact he) (by rintro rfl; exact ha)
    have hlogger : loggerWork (callWork W) s.logtxt (q.pc .logger) =
        loggerWork (callWork W) s.logtxt (s.log_queue.pc .logger) :=
      loggerWork_congr _ _ (hq.outside_iff (Or.inr he))
    have hworkers : (s.setLog q).workersWork = s.workersWork := rfl
    refine work_lt_of_texts ((Nat.zero_add _).symm.trans htexts) ?_
    simp only [Server.setLog] at hworkers ⊢
    omega

/-- The steps of the server by itself, from states in which its threads may be. -/
def InternalStep (dict : Finset (List Byte)) (s : Server W) (a : Label W) (t : Server W) : Prop :=
  (Server.Step dict s a t ∧ a.Internal) ∧ s.Ordered

theorem internalStep_work_lt (dict : Finset (List Byte)) (s : Server W) (a : Label W) (t : Server W)
    (hstep : InternalStep dict s a t) : t.work < s.work :=
  hstep.2.work_lt hstep.1.1 hstep.1.2

omit [Fintype W] in
theorem run_internal {ms : List (Label W)} (h : Run (Server.Step dict) s ms t)
    (hms : ∀ a ∈ ms, a.Internal) (hs : s.Ordered) : Run (InternalStep dict) s ms t :=
  (h.restrict hms).with_invariant (fun _ _ _ hord hstep => hord.step hstep.1) hs

/-- From each state the server can come to where it takes no step by itself. -/
theorem exists_internal (dict : Finset (List Byte)) (hs : s.Ordered) : ∃ ms t,
    Run (Server.Step dict) s ms t ∧ (∀ a ∈ ms, a.Internal) ∧
      ∀ a u, a.Internal → ¬Server.Step dict t a u := by
  obtain ⟨ms, t, hrun, hstuck⟩ := exists_stuck (internalStep_work_lt dict) s
  have hplain : Run (Server.Step dict) s ms t := hrun.mono fun _ _ _ hstep => hstep.1.1
  exact ⟨ms, t, hplain, hrun.forall_mem fun _ _ _ hstep => hstep.1.2,
    fun a u ha hstep => hstuck a u ⟨⟨hstep, ha⟩, run_ordered hplain hs⟩⟩

/-- **The server comes to rest.**  Whatever has happened, it can come to where it takes no step by
itself, and however it goes on by itself, it does so for a bounded number of steps; and when it can go
on no more, no connection waits for a free worker, and what has been logged on all connections is in
the file. -/
theorem server_rests (h : Run (Server.Step dict) (.start W) ls s) :
    (∃ ms t, Run (Server.Step dict) s ms t ∧ (∀ a ∈ ms, a.Internal) ∧
      ∀ a u, a.Internal → ¬Server.Step dict t a u) ∧
    ∀ ms t, Run (Server.Step dict) s ms t → (∀ a ∈ ms, a.Internal) →
      ms.length + t.work ≤ s.work ∧
      ((∀ a u, a.Internal → ¬Server.Step dict t a u) → t.Resting ∧
        t.logFile = (((ls ++ ms).filterMap Label.push).map Prod.snd).flatten ∧
        ∀ w, ((sessions w (ls ++ ms)).flatMap fun p => logs dict p.2) =
          pushedBy w ((ls ++ ms).filterMap Label.push)) := by
  have hord := run_ordered h Server.ordered_start
  refine ⟨exists_internal dict hord, fun ms t hrun hms => ⟨?_, fun hstuck => ?_⟩⟩
  · exact (run_internal hrun hms hord).length_add_le (internalStep_work_lt dict)
  · have hall := h.append hrun
    have hrest := resting_of_stuck hall hstuck
    have hpush := run_push hall
    rw [hrest.unwritten, List.append_nil] at hpush
    refine ⟨hrest, ?_, fun w => ?_⟩
    · rw [run_logFile hall, hpush]
    · have hworker := run_pushedBy hall w
      rwa [hrest.unpushed w, List.append_nil] at hworker

/-- After a connection has come in, the server comes to rest. -/
theorem server_rests_arrival : ∃ s ms t,
    Run (Server.Step {text "yes"}) (.start Unit) (arrival () 4) s ∧
      Run (Server.Step {text "yes"}) s ms t ∧ (∀ a ∈ ms, a.Internal) ∧ t.Resting := by
  obtain ⟨s, harrival, -⟩ := exists_arrival {text "yes"} (s := .start Unit) ()
    ⟨rfl, fun _ => rfl⟩ rfl (Set.notMem_empty 4) rfl
  obtain ⟨⟨ms, t, hrun, hms, hstuck⟩, hrests⟩ := server_rests harrival
  exact ⟨s, ms, t, harrival, hrun, hms, ((hrests ms t hrun hms).2 hstuck).1⟩

end Spellchecker
