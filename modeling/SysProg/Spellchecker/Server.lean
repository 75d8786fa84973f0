import Mathlib.Data.Finset.Insert
import Mathlib.Data.List.ModifyLast
import Mathlib.Tactic.DeriveFintype
import SysProg.Lib.Clients
import SysProg.Spellchecker.Queue
import SysProg.Spellchecker.Respond
import SysProg.Spellchecker.Sockets

/-!
# The server

The threads of `server.cpp`: the main thread accepts connections and passes their sockets to the
workers, each worker responds to one connection after another, and the logger writes what the
workers log.  They share two queues, `sockets` and `log_queue`, and take their steps in any order; a
step inside of a queue is one of its monitor.

* `Server`, `Label`, `Server.Step`: the state, the steps and what they do.  A call of a queue belongs
  to the step of the code before it, and a return to the step of the code behind it;
* `Server.Ordered`, `run_ordered`: who is inside of which queue;
* `Server.view`, `run_view`: where the open sockets are, a step of theirs for a step of the server;
* `server_sockets`: each open socket is in one place, and in the hands of one thread at most.
-/

namespace Spellchecker

open ByteFile Runs Monitor Tokens

/-- The threads: `main`, the ones in `worker_handler` and the one in `logger_handler`. -/
inductive Thread (W : Type*)
  | main
  | worker (w : W)
  | logger
  deriving DecidableEq, Fintype

/-- What a worker does: it is in `sockets.consume` or before it, in `respond` at `recv`, in `respond`
at `log_queue.add` (where `more` says that `recv` has delivered something), or before `close`. -/
inductive Worker
  | idle
  | responding (socket : ℕ) (c : Connection)
  | logging (socket : ℕ) (c : Connection) (more : Bool)
  | closing (socket : ℕ) (c : Connection)

/-- The socket of a worker. -/
def Worker.socket : Worker → Option ℕ
  | idle => none
  | responding fd _ | logging fd _ _ | closing fd _ => some fd

/-- `sockets(0)`. -/
abbrev socketQueue : Object (List ℕ) (Op ℕ) (Option ℕ) := consumerProducerQueue ℕ 0

/-- `log_queue(0)`. -/
abbrev logQueue : Object (List (List Byte)) (Op (List Byte)) (Option (List Byte)) :=
  consumerProducerQueue (List Byte) 0

/-- The two queues, the local states of the workers, `logtxt` of the logger, the file, and the
descriptors of the sockets that are open. -/
structure Server (W : Type*) where
  sockets : State (Thread W) (List ℕ) (Op ℕ) (Option ℕ)
  log_queue : State (Thread W) (List (List Byte)) (Op (List Byte)) (Option (List Byte))
  workers : W → Worker
  logtxt : Option (List Byte)
  logFile : List Byte
  opened : Set ℕ

/-- The steps of the server. -/
inductive Label (W : Type*)
  | accept (fd : ℕ)
  | accepted
  | consume (w : W)
  | serve (w : W) (fd : ℕ)
  | recv (w : W) (r : Recv) (log_txt : List Byte)
  | logged (w : W)
  | close (w : W) (fd : ℕ)
  | fetch
  | take (logtxt : List Byte)
  | write (logtxt : List Byte)
  | sockets (a : Thread W × Event (Op ℕ) (Option ℕ))
  | log_queue (a : Thread W × Event (Op (List Byte)) (Option (List Byte)))

/-- No thread has called anything. -/
def Server.start (W : Type*) : Server W where
  sockets := Monitor.start []
  log_queue := Monitor.start []
  workers _ := .idle
  logtxt := none
  logFile := []
  opened := ∅

/-- One round of the loop of `respond`, up to `log_queue.add(log_txt)`. -/
def Connection.round (dict : Finset (List Byte)) (c : Connection) : Recv → Option Connection
  | .data bytes microseconds => receive dict c bytes microseconds
  | .disconnected => some (c.append (closing .disconnected))
  | .failed => some (c.append (closing .failed))

/-- `recv` has delivered something, and the loop goes on. -/
def Recv.more : Recv → Bool
  | .data _ _ => true
  | _ => false

section Steps

variable {W : Type*}

/-- The step of the queue of sockets that belongs to a step of the server. -/
def Label.ofSockets : Label W → Option (Thread W × Event (Op ℕ) (Option ℕ))
  | .accept fd => some (.main, .call (.add fd))
  | .accepted => some (.main, .ret none)
  | .consume w => some (.worker w, .call .consume)
  | .serve w fd => some (.worker w, .ret (some fd))
  | .sockets a => some a
  | _ => none

/-- The step of the log queue that belongs to a step of the server. -/
def Label.ofLog : Label W → Option (Thread W × Event (Op (List Byte)) (Option (List Byte)))
  | .recv w _ log_txt => some (.worker w, .call (.add log_txt))
  | .logged w => some (.worker w, .ret none)
  | .fetch => some (.logger, .call .consume)
  | .take logtxt => some (.logger, .ret (some logtxt))
  | .log_queue a => some a
  | _ => none

/-- The operations that the threads call on the queue of sockets. -/
def socketOps : Thread W → Op ℕ → Prop
  | .main, .add _ => True
  | .worker _, .consume => True
  | _, _ => False

/-- The results that they get from it. -/
def socketResults : Thread W → Option ℕ → Prop
  | .main, none => True
  | .worker _, some _ => True
  | _, _ => False

/-- The operations that the threads call on the log queue. -/
def logOps : Thread W → Op (List Byte) → Prop
  | .worker _, .add _ => True
  | .logger, .consume => True
  | _, _ => False

/-- The results that they get from it. -/
def logResults : Thread W → Option (List Byte) → Prop
  | .worker _, none => True
  | .logger, some _ => True
  | _, _ => False

theorem socketResults_of_act (u : Thread W) (o : Op ℕ) (x : List ℕ) (r : Option ℕ) (y : List ℕ)
    (ho : socketOps u o) (h : socketQueue.act o x = some (r, y)) : socketResults u r := by
  obtain ⟨request, rfl, rfl, -⟩ | ⟨request, rfl, rfl, -⟩ := act_cases h
  · cases u with
    | main => trivial
    | _ => exact ho
  · cases u with
    | worker => trivial
    | _ => exact ho

theorem logResults_of_act (u : Thread W) (o : Op (List Byte)) (x : List (List Byte))
    (r : Option (List Byte)) (y : List (List Byte)) (ho : logOps u o)
    (h : logQueue.act o x = some (r, y)) : logResults u r := by
  obtain ⟨request, rfl, rfl, -⟩ | ⟨request, rfl, rfl, -⟩ := act_cases h
  · cases u with
    | worker => trivial
    | _ => exact ho
  · cases u with
    | logger => trivial
    | _ => exact ho

/-- Who is inside of which queue. -/
structure Server.Ordered (s : Server W) : Prop where
  sockets : Typed socketOps socketResults s.sockets
  log : Typed logOps logResults s.log_queue
  idle : ∀ w, s.sockets.pc (.worker w) ≠ .outside → s.workers w = .idle
  logging : ∀ w, s.log_queue.pc (.worker w) ≠ .outside ↔ ∃ fd c more, s.workers w = .logging fd c more
  writing : s.log_queue.pc .logger ≠ .outside → s.logtxt = none

theorem Server.ordered_start : (Server.start W).Ordered where
  sockets _ := ⟨by simp [Server.start, Monitor.start, Pc.pending],
    by simp [Server.start, Monitor.start, Pc.inHand]⟩
  log _ := ⟨by simp [Server.start, Monitor.start, Pc.pending],
    by simp [Server.start, Monitor.start, Pc.inHand]⟩
  idle _ _ := rfl
  logging _ := by simp [Server.start, Monitor.start]
  writing _ := rfl

namespace Server

/-- The queue of sockets after a step of its monitor. -/
def setSockets (s : Server W) (q : State (Thread W) (List ℕ) (Op ℕ) (Option ℕ)) : Server W :=
  { s with sockets := q }

/-- The log queue after a step of its monitor. -/
def setLog (s : Server W)
    (q : State (Thread W) (List (List Byte)) (Op (List Byte)) (Option (List Byte))) : Server W :=
  { s with log_queue := q }

variable [DecidableEq W]

/-- What a worker does next. -/
def setWorker (s : Server W) (w : W) (next : Worker) : Server W :=
  { s with workers := Function.update s.workers w next }

@[simp] theorem setWorker_self (s : Server W) (w : W) (next : Worker) :
    (s.setWorker w next).workers w = next := by
  unfold setWorker
  exact Function.update_self w next s.workers

theorem setWorker_of_ne (s : Server W) {v w : W} (h : v ≠ w) (next : Worker) :
    (s.setWorker w next).workers v = s.workers v := by
  unfold setWorker
  exact Function.update_of_ne h next s.workers

end Server

variable {s t : Server W}

/-- The value that an operation adds. -/
def Op.added {T : Type*} : Op T → Option T
  | .add request => some request
  | .consume => none

/-- The sockets that are open, and where they are. -/
def Server.view (s : Server W) : Sockets W where
  opened := s.opened
  places
    | .accepted => (s.sockets.pc .main).pending.filterMap Op.added
    | .queued => s.sockets.shared
    | .handed w => (s.sockets.pc (.worker w)).inHand.reduceOption
    | .served w => (s.workers w).socket.toList

/-- How a socket moves on with a step. -/
def Label.travel : Label W → Option (Travel W)
  | .accept fd => some (.enter fd)
  | .serve w fd => some (.serve w fd)
  | .close w fd => some (.leave w fd)
  | .sockets (_, .act (.add fd) _) => some (.queue fd)
  | .sockets (.worker w, .act .consume (some fd)) => some (.take w fd)
  | _ => none

/-- The sockets stay where they are. -/
theorem view_congr (hopened : t.opened = s.opened)
    (hmain : (t.sockets.pc .main).pending = (s.sockets.pc .main).pending)
    (hshared : t.sockets.shared = s.sockets.shared)
    (hhanded : ∀ w, (t.sockets.pc (.worker w)).inHand = (s.sockets.pc (.worker w)).inHand)
    (hserved : ∀ w, (t.workers w).socket = (s.workers w).socket) : t.view = s.view := by
  refine Sockets.ext hopened (funext fun k => ?_)
  cases k with
  | accepted => exact congrArg _ hmain
  | queued => exact hshared
  | handed w => exact congrArg _ (hhanded w)
  | served w => exact congrArg Option.toList (hserved w)

/-- What a worker that is inside of the queue, or comes in, has in its hands. -/
theorem Server.Ordered.served_nil (h : s.Ordered) {w : W}
    (hw : s.sockets.pc (.worker w) ≠ .outside) : s.view.places (.served w) = [] := by
  show (s.workers w).socket.toList = []
  rw [h.idle w hw]
  rfl

variable [DecidableEq W] (dict : Finset (List Byte))

/-- One step of one thread. -/
inductive Server.Step : Server W → Label W → Server W → Prop
  /-- `accept` returns a descriptor that is not open, and `addsocket` calls `sockets.add`. -/
  | accept {s : Server W} {fd : ℕ} {q} : fd ∉ s.opened →
      Monitor.Step socketQueue s.sockets (.main, .call (.add fd)) q →
      Step s (.accept fd) { s.setSockets q with opened := insert fd s.opened }
  | accepted {s : Server W} {q} : Monitor.Step socketQueue s.sockets (.main, .ret none) q →
      Step s .accepted (s.setSockets q)
  | consume {s : Server W} {w : W} {q} : s.workers w = .idle →
      Monitor.Step socketQueue s.sockets (.worker w, .call .consume) q →
      Step s (.consume w) (s.setSockets q)
  /-- `respond(socket)` begins. -/
  | serve {s : Server W} {w : W} {fd : ℕ} {q} :
      Monitor.Step socketQueue s.sockets (.worker w, .ret (some fd)) q →
      Step s (.serve w fd) ((s.setSockets q).setWorker w (.responding fd .fresh))
  /-- `recv` returns, the reply is written, and `log_queue.add` is called. -/
  | recv {s : Server W} {w : W} {fd : ℕ} {c c' : Connection} {r : Recv} {q} :
      s.workers w = .responding fd c → c.round dict r = some c' →
      Monitor.Step logQueue s.log_queue (.worker w, .call (.add c'.log_txt)) q →
      Step s (.recv w r c'.log_txt) ((s.setLog q).setWorker w (.logging fd c'.log r.more))
  | logged {s : Server W} {w : W} {fd : ℕ} {c : Connection} {more : Bool} {q} :
      s.workers w = .logging fd c more →
      Monitor.Step logQueue s.log_queue (.worker w, .ret none) q →
      Step s (.logged w)
        ((s.setLog q).setWorker w (if more then .responding fd c else .closing fd c))
  /-- `close(socket)`. -/
  | close {s : Server W} {w : W} {fd : ℕ} {c : Connection} : s.workers w = .closing fd c →
      Step s (.close w fd) { s.setWorker w .idle with opened := s.opened \ {fd} }
  | fetch {s : Server W} {q} : s.logtxt = none →
      Monitor.Step logQueue s.log_queue (.logger, .call .consume) q → Step s .fetch (s.setLog q)
  | take {s : Server W} {logtxt : List Byte} {q} :
      Monitor.Step logQueue s.log_queue (.logger, .ret (some logtxt)) q →
      Step s (.take logtxt) { s.setLog q with logtxt := some logtxt }
  /-- `logFile << logtxt`. -/
  | write {s : Server W} {logtxt : List Byte} : s.logtxt = some logtxt →
      Step s (.write logtxt) { s with logFile := s.logFile ++ logtxt, logtxt := none }
  | sockets {s : Server W} {t : Thread W} {e : Event (Op ℕ) (Option ℕ)} {q} : e.Within →
      Monitor.Step socketQueue s.sockets (t, e) q → Step s (.sockets (t, e)) (s.setSockets q)
  | log_queue {s : Server W} {t : Thread W} {e : Event (Op (List Byte)) (Option (List Byte))} {q} :
      e.Within → Monitor.Step logQueue s.log_queue (t, e) q →
      Step s (.log_queue (t, e)) (s.setLog q)

variable {dict} {ls : List (Label W)}

/-! ### The two queues -/

/-- A step of the server is a step of the queue of sockets, or leaves it as it is. -/
theorem Server.Step.onSockets {a : Label W} (h : Server.Step dict s a t) :
    (a.ofSockets = none ∧ t.sockets = s.sockets) ∨ ∃ u e, a.ofSockets = some (u, e) ∧
      Monitor.Step socketQueue s.sockets (u, e) t.sockets ∧ ∀ o, e = .call o → socketOps u o := by
  cases h with
  | accept _ hq => exact Or.inr ⟨_, _, rfl, hq, by rintro o ⟨⟩; trivial⟩
  | accepted hq => exact Or.inr ⟨_, _, rfl, hq, by rintro o ⟨⟩⟩
  | consume _ hq => exact Or.inr ⟨_, _, rfl, hq, by rintro o ⟨⟩; trivial⟩
  | serve hq => exact Or.inr ⟨_, _, rfl, hq, by rintro o ⟨⟩⟩
  | sockets he hq => exact Or.inr ⟨_, _, rfl, hq, by rintro o rfl; exact he.elim⟩
  | _ => exact Or.inl ⟨rfl, rfl⟩

/-- A step of the server is a step of the log queue, or leaves it as it is. -/
theorem Server.Step.onLog {a : Label W} (h : Server.Step dict s a t) :
    (a.ofLog = none ∧ t.log_queue = s.log_queue) ∨ ∃ u e, a.ofLog = some (u, e) ∧
      Monitor.Step logQueue s.log_queue (u, e) t.log_queue ∧ ∀ o, e = .call o → logOps u o := by
  cases h with
  | recv _ _ hq => exact Or.inr ⟨_, _, rfl, hq, by rintro o ⟨⟩; trivial⟩
  | logged _ hq => exact Or.inr ⟨_, _, rfl, hq, by rintro o ⟨⟩⟩
  | fetch _ hq => exact Or.inr ⟨_, _, rfl, hq, by rintro o ⟨⟩; trivial⟩
  | take hq => exact Or.inr ⟨_, _, rfl, hq, by rintro o ⟨⟩⟩
  | log_queue he hq => exact Or.inr ⟨_, _, rfl, hq, by rintro o rfl; exact he.elim⟩
  | _ => exact Or.inl ⟨rfl, rfl⟩

theorem run_sockets (h : Run (Server.Step dict) s ls t) :
    Run (Monitor.Step socketQueue) s.sockets (ls.filterMap Label.ofSockets) t.sockets :=
  h.project (f := Server.sockets) fun _ _ _ hstep =>
    hstep.onSockets.imp id (by rintro ⟨u, e, hsome, hq, -⟩; exact ⟨(u, e), hsome, hq⟩)

theorem run_log (h : Run (Server.Step dict) s ls t) :
    Run (Monitor.Step logQueue) s.log_queue (ls.filterMap Label.ofLog) t.log_queue :=
  h.project (f := Server.log_queue) fun _ _ _ hstep =>
    hstep.onLog.imp id (by rintro ⟨u, e, hsome, hq, -⟩; exact ⟨(u, e), hsome, hq⟩)

/-! ### Who is where -/

omit [DecidableEq W] in
/-- A worker inside of the queue of sockets is not the one that does something. -/
theorem Server.Ordered.ne_of_busy (h : s.Ordered) {v w : W}
    (hw : s.sockets.pc (.worker w) ≠ .outside) (hv : s.workers v ≠ .idle) : w ≠ v := by
  rintro rfl
  exact hv (h.idle w hw)

/-- The local states of the threads follow their calls and returns. -/
theorem Server.Ordered.step {a : Label W} (h : s.Ordered) (hstep : Server.Step dict s a t) :
    t.Ordered where
  sockets := by
    rcases hstep.onSockets with ⟨-, heq⟩ | ⟨u, e, -, hq, hcall⟩
    · rw [heq]
      exact h.sockets
    · exact h.sockets.step socketResults_of_act hq hcall
  log := by
    rcases hstep.onLog with ⟨-, heq⟩ | ⟨u, e, -, hq, hcall⟩
    · rw [heq]
      exact h.log
    · exact h.log.step logResults_of_act hq hcall
  idle w hw := by
    cases hstep with
    | accept _ hq => exact h.idle w (mt (hq.outside_iff (Or.inl (by simp))).2 hw)
    | accepted hq => exact h.idle w (mt (hq.outside_iff (Or.inl (by simp))).2 hw)
    | @consume w' _ hidle hq =>
      by_cases hww : w = w'
      · rw [hww]
        exact hidle
      · exact h.idle w (mt (hq.outside_iff (Or.inl (by simpa using hww))).2 hw)
    | @serve w' _ _ hq =>
      by_cases hww : w = w'
      · subst hww
        exact absurd hq.ret_view.2.2.2 hw
      · rw [setWorker_of_ne _ hww]
        exact h.idle w (mt (hq.outside_iff (Or.inl (by simpa using hww))).2 hw)
    | @recv w' _ _ _ _ _ hat _ _ =>
      have hww : w ≠ w' := h.ne_of_busy hw (by rw [hat]; exact Worker.noConfusion)
      rw [setWorker_of_ne _ hww]
      exact h.idle w hw
    | @logged w' _ _ _ _ hat _ =>
      have hww : w ≠ w' := h.ne_of_busy hw (by rw [hat]; exact Worker.noConfusion)
      rw [setWorker_of_ne _ hww]
      exact h.idle w hw
    | @close w' _ _ hat =>
      by_cases hww : w = w'
      · exact hww ▸ s.setWorker_self w' .idle
      · rw [setWorker_of_ne _ hww]
        exact h.idle w hw
    | sockets he hq => exact h.idle w (mt (hq.outside_iff (Or.inr he)).2 hw)
    | _ => exact h.idle w hw
  logging w := by
    cases hstep with
    | @serve w' _ _ hq =>
      by_cases hww : w = w'
      · subst hww
        have hidle := h.idle w hq.ne_outside_of_ret
        rw [setWorker_self]
        exact iff_of_false (mt (h.logging w).1 (by simp [hidle])) (by simp)
      · rw [setWorker_of_ne _ hww]
        exact h.logging w
    | @recv w' fd _ c' r _ _ _ hq =>
      by_cases hww : w = w'
      · subst hww
        rw [setWorker_self]
        exact iff_of_true hq.ne_outside_of_call ⟨fd, c'.log, r.more, rfl⟩
      · rw [setWorker_of_ne _ hww]
        exact (not_congr (hq.outside_iff (Or.inl (by simpa using hww)))).trans (h.logging w)
    | @logged w' fd c more _ _ hq =>
      by_cases hww : w = w'
      · subst hww
        rw [setWorker_self]
        refine ⟨fun hin => absurd hq.ret_view.2.2.2 hin, ?_⟩
        rintro ⟨fd', c', more', heq⟩
        cases more <;> cases heq
      · rw [setWorker_of_ne _ hww]
        exact (not_congr (hq.outside_iff (Or.inl (by simpa using hww)))).trans (h.logging w)
    | @close w' _ _ hat =>
      by_cases hww : w = w'
      · subst hww
        rw [setWorker_self]
        exact iff_of_false (mt (h.logging w).1 (by simp [hat])) (by simp)
      · rw [setWorker_of_ne _ hww]
        exact h.logging w
    | fetch _ hq =>
      exact (not_congr (hq.outside_iff (Or.inl (by simp)))).trans (h.logging w)
    | take hq =>
      exact (not_congr (hq.outside_iff (Or.inl (by simp)))).trans (h.logging w)
    | log_queue he hq =>
      exact (not_congr (hq.outside_iff (Or.inr he))).trans (h.logging w)
    | _ => exact h.logging w
  writing hw := by
    cases hstep with
    | recv _ _ hq => exact h.writing (mt (hq.outside_iff (Or.inl (by simp))).2 hw)
    | logged _ hq => exact h.writing (mt (hq.outside_iff (Or.inl (by simp))).2 hw)
    | fetch hnone _ => exact hnone
    | take hq => exact absurd hq.ret_view.2.2.2 hw
    | write _ => rfl
    | log_queue he hq => exact h.writing (mt (hq.outside_iff (Or.inr he)).2 hw)
    | _ => exact h.writing hw

theorem run_ordered (h : Run (Server.Step dict) s ls t) (hs : s.Ordered) : t.Ordered :=
  h.invariant (fun _ _ _ hord hstep => hord.step hstep) hs

/-! ### Where the sockets are -/

theorem setWorker_socket {w : W} {next : Worker} (h : next.socket = (s.workers w).socket) (v : W) :
    ((s.setWorker w next).workers v).socket = (s.workers v).socket := by
  by_cases hv : v = w
  · rw [hv, Server.setWorker_self, h]
  · rw [Server.setWorker_of_ne _ hv]

/-- **A step of the server is a step of a socket on its way**, or leaves the sockets where they
are. -/
theorem Server.Ordered.view_step {a : Label W} (h : s.Ordered) (hstep : Server.Step dict s a t) :
    (a.travel = none ∧ t.view = s.view) ∨
      ∃ m, a.travel = some m ∧ Sockets.Step s.view m t.view := by
  cases hstep with
  | @accept fd q hnew hq =>
    obtain ⟨hshared, hout, hpending, -⟩ := hq.call_view
    have hplace : s.view.places .accepted = [] := congrArg (fun p => (Pc.pending p).filterMap _) hout
    refine Or.inr ⟨.enter fd, rfl, ?_⟩
    rw [Sockets.eq_put (S := s.view)
      (T := Server.view { s.setSockets q with opened := insert fd s.opened }) (i := .accepted) rfl
      (congrArg (List.filterMap _) hpending) fun k hk => ?_]
    · exact .enter hnew hplace
    · cases k with
      | accepted => exact absurd rfl hk
      | queued => exact hshared
      | handed w => exact congrArg _ (hq.view_of_ne (by simp)).2
      | served w => rfl
  | @accepted q hq =>
    obtain ⟨hshared, hpending, -, hout⟩ := hq.ret_view
    have hmain : (q.pc .main).pending = (s.sockets.pc .main).pending := by rw [hpending, hout]; rfl
    exact Or.inl ⟨rfl, view_congr rfl hmain hshared (fun w => (hq.view_of_ne (by simp)).2) fun _ => rfl⟩
  | @consume w q _ hq =>
    obtain ⟨hshared, hout, -, hhand⟩ := hq.call_view
    refine Or.inl ⟨rfl, view_congr rfl (hq.view_of_ne (by simp)).1 hshared (fun v => ?_) fun _ => rfl⟩
    by_cases hv : v = w
    · rw [hv, hout]
      exact hhand
    · exact (hq.view_of_ne (by simpa using hv)).2
  | @serve w fd q hq =>
    obtain ⟨hshared, -, hhand, hout⟩ := hq.ret_view
    refine Or.inr ⟨.serve w fd, rfl, ?_⟩
    rw [Sockets.eq_put_put (S := s.view)
      (T := ((s.setSockets q).setWorker w (.responding fd .fresh)).view)
      (i := .handed w) (j := .served w) rfl
      (congrArg (fun p => (Pc.inHand p).reduceOption) hout)
      (congrArg (fun x => x.socket.toList) (Server.setWorker_self _ w _)) fun k hki hkj => ?_]
    · exact .serve (congrArg List.reduceOption hhand) (h.served_nil hq.ne_outside_of_ret)
    · cases k with
      | accepted => exact congrArg _ (hq.view_of_ne (by simp)).1
      | queued => exact hshared
      | handed v =>
        have hv : v ≠ w := fun hv => hki (by rw [hv])
        exact congrArg _ (hq.view_of_ne (by simpa using hv)).2
      | served v =>
        have hv : v ≠ w := fun hv => hkj (by rw [hv])
        exact congrArg (fun x => x.socket.toList) (Server.setWorker_of_ne _ hv _)
  | @recv w fd c c' r q hat _ _ =>
    have hsocket : (Worker.logging fd c'.log r.more).socket = (s.workers w).socket := by
      rw [hat]
      rfl
    exact Or.inl ⟨rfl, view_congr rfl rfl rfl (fun _ => rfl)
      (setWorker_socket (s := s.setLog q) hsocket)⟩
  | @logged w fd c more q hat _ =>
    have hsocket : (if more then Worker.responding fd c else .closing fd c).socket =
        (s.workers w).socket := by
      rw [hat]
      cases more <;> rfl
    exact Or.inl ⟨rfl, view_congr rfl rfl rfl (fun _ => rfl)
      (setWorker_socket (s := s.setLog q) hsocket)⟩
  | @close w fd c hat =>
    refine Or.inr ⟨.leave w fd, rfl, ?_⟩
    rw [Sockets.eq_put (S := s.view)
      (T := Server.view { s.setWorker w .idle with opened := s.opened \ {fd} }) (i := .served w) rfl
      (congrArg (fun x => x.socket.toList) (Server.setWorker_self s w _)) fun k hk => ?_]
    · exact .leave (congrArg (fun x => x.socket.toList) hat)
    · cases k with
      | served v =>
        have hv : v ≠ w := fun hv => hk (by rw [hv])
        exact congrArg (fun x => x.socket.toList) (Server.setWorker_of_ne _ hv _)
      | _ => rfl
  | @sockets u e q he hq =>
    rcases he.cases with hin | ⟨o, r, rfl⟩
    · obtain ⟨hshared, hview⟩ := hq.inside hin
      refine Or.inl ⟨?_, view_congr rfl (hview .main).1 hshared (fun w => (hview _).2) fun _ => rfl⟩
      cases e with
      | act _ _ => exact hin.elim
      | _ => rfl
    · obtain ⟨hact, hpending, hhand, hpending', hhand'⟩ := hq.act_view
      have hop : socketOps u o := (h.sockets u).1 o (by rw [hpending]; exact List.mem_singleton_self o)
      cases u with
      | main =>
        obtain ⟨fd, rfl, rfl, hshared⟩ | ⟨fd, rfl, -⟩ := act_cases hact
        · refine Or.inr ⟨.queue fd, rfl, ?_⟩
          rw [Sockets.eq_put_put (S := s.view) (T := (s.setSockets q).view)
            (i := .accepted) (j := .queued) rfl
            (congrArg (List.filterMap _) hpending') hshared fun k hki hkj => ?_]
          · exact .queue (congrArg (List.filterMap _) hpending)
          · cases k with
            | accepted => exact absurd rfl hki
            | queued => exact absurd rfl hkj
            | handed w => exact congrArg _ (hq.view_of_ne (by simp)).2
            | served w => rfl
        · exact hop.elim
      | worker w =>
        obtain ⟨fd, rfl, -⟩ | ⟨fd, rfl, rfl, hshared⟩ := act_cases hact
        · exact hop.elim
        · have hin : s.sockets.pc (.worker w) ≠ .outside := fun hout => by
            rw [hout] at hpending
            cases hpending
          refine Or.inr ⟨.take w fd, rfl, ?_⟩
          rw [Sockets.eq_put_put (S := s.view) (T := (s.setSockets q).view)
            (i := .queued) (j := .handed w) rfl rfl
            (congrArg List.reduceOption hhand') fun k hki hkj => ?_]
          · exact .take hshared (congrArg List.reduceOption hhand) (h.served_nil hin)
          · cases k with
            | accepted => exact congrArg _ (hq.view_of_ne (by simp)).1
            | queued => exact absurd rfl hki
            | handed v =>
              have hv : v ≠ w := fun hv => hkj (by rw [hv])
              exact congrArg _ (hq.view_of_ne (by simpa using hv)).2
            | served w => rfl
      | logger => exact hop.elim
  | _ => exact Or.inl ⟨rfl, rfl⟩

theorem run_view (h : Run (Server.Step dict) (.start W) ls s) :
    Run Sockets.Step (.start W) (ls.filterMap Label.travel) s.view := by
  have hrun := (h.with_invariant (fun _ _ _ hord hstep => hord.step hstep)
    Server.ordered_start).project (f := Server.view) (g := Label.travel)
      fun s a t hstep => hstep.2.view_step hstep.1
  have hstart : (Server.start W).view = .start W := by
    refine Sockets.ext rfl (funext fun k => ?_)
    cases k <;> rfl
  rwa [hstart] at hrun

/-- **Each connection is served once**, by one worker, whatever the order of the steps: the server
takes each socket on its way; an open socket is in one place, once, so no two workers serve the same
one; the workers get the sockets in the order in which they were accepted; and a worker closes what
it has got, one socket after another. -/
theorem server_sockets [Fintype W] (h : Run (Server.Step dict) (.start W) ls s) :
    Run Sockets.Step (.start W) (ls.filterMap Label.travel) s.view ∧
      Settled (· ∈ s.opened) s.view.places ∧
      (∀ v w fd, (s.workers v).socket = some fd → (s.workers w).socket = some fd → v = w) ∧
      (ls.filterMap Label.travel).filterMap Travel.incoming =
        (ls.filterMap Label.travel).filterMap Travel.outgoing ++
          (s.sockets.shared ++ s.view.places .accepted) ∧
      ∀ w, (ls.filterMap Label.travel).filterMap (Travel.takenBy w) =
        (ls.filterMap Label.travel).filterMap (Travel.leftBy w) ++
          ((s.workers w).socket.toList ++ s.view.places (.handed w)) := by
  have hrun := run_view h
  have hsettled := run_settled hrun
  refine ⟨hrun, hsettled, fun v w fd hv hw => ?_, run_first_in_first_out hrun, run_served hrun⟩
  have hplace : Place.served v = Place.served w := hsettled.place_unique (a := fd)
    (Option.mem_toList.2 hv) (Option.mem_toList.2 hw)
  cases hplace
  rfl

/-! ### A connection -/

variable (dict)

/-- Steps inside of the queue of sockets are steps of the server. -/
theorem run_within_sockets {as : List (Thread W × Event (Op ℕ) (Option ℕ))}
    {q q' : State (Thread W) (List ℕ) (Op ℕ) (Option ℕ)}
    (h : Run (Monitor.Step socketQueue) q as q') (has : ∀ a ∈ as, a.2.Within) (s : Server W) :
    Run (Server.Step dict) (s.setSockets q) (as.map .sockets) (s.setSockets q') := by
  induction h with
  | nil q => exact .nil _
  | @cons q₀ q₁ q₂ a as hstep _ ih =>
    obtain ⟨u, e⟩ := a
    exact .cons (.sockets (s := s.setSockets q₀) (has _ List.mem_cons_self) hstep)
      (ih fun b hb => has b (List.mem_cons_of_mem _ hb))

/-- A connection is accepted, and handed to a worker. -/
def arrival (w : W) (fd : ℕ) : List (Label W) :=
  .accept fd :: ((operation .main (.add fd) none).map .sockets ++ [.accepted, .consume w] ++
    (operation (.worker w) .consume (some fd)).map .sockets ++ [.serve w fd])

/-- If nobody else is inside of the queue, a connection gets to a worker. -/
theorem exists_arrival (w : W) {fd : ℕ} (hidle : Idle s.sockets) (hempty : s.sockets.shared = [])
    (hfd : fd ∉ s.opened) (hw : s.workers w = .idle) : ∃ t,
      Run (Server.Step dict) s (arrival w fd) t ∧ t.workers w = .responding fd .fresh ∧
        t.log_queue = s.log_queue ∧ t.logtxt = s.logtxt ∧ t.logFile = s.logFile := by
  obtain ⟨q₁, q₂, q₃, hcall, hadd, hret, hidle', hshared⟩ := hidle.exists_operation (M := socketQueue)
    (o := .add fd) .main (Or.inl rfl) rfl
  rw [hempty, List.nil_append] at hshared
  obtain ⟨q₄, q₅, q₆, hcall', hconsume, hret', -, -⟩ := hidle'.exists_operation (M := socketQueue)
    (o := .consume) (r := some fd) (x := []) (.worker w) (by rw [hshared]; exact Nat.one_ne_zero)
    (by rw [hshared]; rfl)
  let u : Server W := { s with opened := insert fd s.opened }
  have hfirst := run_within_sockets dict hadd (within_operation _ _ _) u
  have hsecond := run_within_sockets dict hconsume (within_operation _ _ _) u
  refine ⟨(u.setSockets q₆).setWorker w (.responding fd .fresh), .cons (.accept hfd hcall) ?_,
    Server.setWorker_self _ _ _, rfl, rfl, rfl⟩
  rw [List.append_assoc, List.append_assoc]
  exact hfirst.append (.cons (.accepted (s := u.setSockets q₂) hret)
    (.cons (.consume (s := u.setSockets q₃) hw hcall')
      (hsecond.append (.cons (.serve (s := u.setSockets q₅) hret') (.nil _)))))

end Steps

/-- A connection that is being served. -/
theorem server_sockets_arrival : ∃ s,
    Run (Server.Step {text "yes"}) (.start Unit) (arrival () 4) s ∧
      s.workers () = .responding 4 .fresh ∧ Settled (· ∈ s.opened) s.view.places := by
  obtain ⟨s, hrun, hw, -⟩ := exists_arrival {text "yes"} (s := .start Unit) ()
    ⟨rfl, fun _ => rfl⟩ rfl (Set.notMem_empty 4) rfl
  exact ⟨s, hrun, hw, (server_sockets hrun).2.1⟩

end Spellchecker
