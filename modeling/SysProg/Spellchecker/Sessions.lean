import SysProg.Spellchecker.Server

/-!
# What the server logs

The workers log at the same time, and one thread writes the file.  Still each connection is logged as
if it were the only one.

* `sessions`: the connections of a worker, each with what `recv` has delivered on it;
* `Follows`, `run_follows`: a worker goes through `respond` on each of them;
* `server_log`: the file holds what has been pushed to the log queue, in that order, up to what is
  still on its way, and what a worker has pushed is what `respond` logs on its connections.
-/

namespace Spellchecker

open ByteFile Runs Monitor

variable {dict : Finset (List Byte)} {c c' : Connection} {rs : List Recv} {r : Recv}

/-! ### `respond`, one round at a time -/

theorem more_iff : r.more = true ↔ ¬r.Ends := by cases r <;> simp [Recv.more, Recv.Ends]

theorem round_logged (h : c.round dict r = some c') : c'.logged = c.logged := by
  cases r with
  | data bytes us =>
    obtain ⟨-, rfl⟩ := receive_eq_some_iff.1 h
    rfl
  | disconnected =>
    rw [← Option.some.inj h]
    rfl
  | failed =>
    rw [← Option.some.inj h]
    rfl

/-- The last round of `respond`. -/
theorem respond_snoc (hrs : ∀ r ∈ rs, ¬r.Ends) : respond dict c (rs ++ [r]) =
    (respond dict c rs).bind fun c' => (c'.round dict r).map Connection.log := by
  induction rs generalizing c with
  | nil =>
    cases r with
    | data bytes us => cases hc : receive dict c bytes us <;> simp [respond, Connection.round, hc]
    | disconnected => rfl
    | failed => rfl
  | cons r' rs ih =>
    cases r' with
    | data bytes us =>
      have hrs' : ∀ r ∈ rs, ¬r.Ends := fun r hr => hrs r (List.mem_cons_of_mem _ hr)
      cases hc : receive dict c bytes us with
      | none => simp [respond, hc]
      | some c₁ => simpa [respond, hc] using ih hrs'
    | disconnected => exact absurd trivial (hrs _ List.mem_cons_self)
    | failed => exact absurd trivial (hrs _ List.mem_cons_self)

/-- What `respond` passes to the log queue. -/
def logs (dict : Finset (List Byte)) (rs : List Recv) : List (List Byte) :=
  (respond dict .fresh rs).elim [] Connection.logged

theorem logs_of_respond (h : respond dict .fresh rs = some c) : logs dict rs = c.logged := by
  rw [logs, h]
  rfl

/-! ### The connections of a worker -/

/-- The connection of a worker. -/
def Worker.connection : Worker → Option (ℕ × Connection)
  | idle => none
  | responding fd c | logging fd c _ | closing fd c => some (fd, c)

/-- The connection goes on. -/
def Worker.GoesOn : Worker → Prop
  | responding _ _ => True
  | logging _ _ more => more = true
  | _ => False

section Runs

variable {W : Type*} [DecidableEq W] {w : W} {s t : Server W} {a : Label W} {ls : List (Label W)}

/-- A step begins a connection, or delivers something on the last one. -/
def follow (w : W) (all : List (ℕ × List Recv)) : Label W → List (ℕ × List Recv)
  | .serve v fd => if v = w then all ++ [(fd, [])] else all
  | .recv v r _ => if v = w then all.modifyLast (fun p => (p.1, p.2 ++ [r])) else all
  | _ => all

/-- The connections of a worker, each with the results of `recv`. -/
def sessions (w : W) (ls : List (Label W)) : List (ℕ × List Recv) := ls.foldl (follow w) []

/-- What the worker passes to `log_queue.add`. -/
def Label.loggedBy (w : W) : Label W → Option (List Byte)
  | .recv v _ log_txt => if v = w then some log_txt else none
  | _ => none

/-- `recv` has said that the connection is over. -/
def Ended (rs : List Recv) : Prop := ∃ r ∈ rs, r.Ends

theorem not_ended_iff : ¬Ended rs ↔ ∀ r ∈ rs, ¬r.Ends := by simp [Ended]

/-- What has been logged so far comes from `respond`, and the worker is in it on the last of its
connections, with the ones before it served to their ends. -/
structure Follows (dict : Finset (List Byte)) (all : List (ℕ × List Recv))
    (texts : List (List Byte)) (x : Worker) : Prop where
  defined : ∀ p ∈ all, (respond dict .fresh p.2).isSome
  texts : texts = all.flatMap fun p => logs dict p.2
  idle : x = .idle → ∀ p ∈ all, Ended p.2
  last : ∀ fd c, x.connection = some (fd, c) → ∃ done rs, all = done ++ [(fd, rs)] ∧
    (∀ p ∈ done, Ended p.2) ∧ respond dict .fresh rs = some c ∧ (x.GoesOn ↔ ¬Ended rs)

theorem follows_nil : Follows dict [] [] .idle :=
  ⟨by simp, rfl, by simp, by simp [Worker.connection]⟩

variable {all : List (ℕ × List Recv)} {texts : List (List Byte)} {x y : Worker} {fd : ℕ}

/-- A connection begins. -/
theorem Follows.serve (h : Follows dict all texts .idle) :
    Follows dict (all ++ [(fd, [])]) texts (.responding fd .fresh) where
  defined p hp := by
    rcases List.mem_append.1 hp with hp | hp
    · exact h.defined p hp
    · rw [List.mem_singleton.1 hp]
      rfl
  texts := by
    rw [List.flatMap_append, ← h.texts, List.flatMap_singleton]
    exact (List.append_nil texts).symm
  idle hx := by cases hx
  last fd' c hc := by
    cases hc
    exact ⟨all, [], rfl, h.idle rfl, rfl, iff_of_true trivial (by simp [Ended])⟩

/-- A round of `respond`. -/
theorem Follows.recv (h : Follows dict all texts (.responding fd c))
    (hround : c.round dict r = some c') :
    Follows dict (all.modifyLast fun p => (p.1, p.2 ++ [r])) (texts ++ [c'.log_txt])
      (.logging fd c'.log r.more) := by
  obtain ⟨done, rs, rfl, hdone, hc, hrs⟩ := h.last fd c rfl
  have hgoes : ∀ r ∈ rs, ¬r.Ends := not_ended_iff.1 (hrs.1 trivial)
  have hrespond : respond dict .fresh (rs ++ [r]) = some c'.log := by
    rw [respond_snoc hgoes, hc, Option.bind_some, hround]
    rfl
  have htexts := h.texts
  rw [List.modifyLast_concat]
  constructor
  · intro p hp
    rcases List.mem_append.1 hp with hp | hp
    · exact h.defined p (List.mem_append_left _ hp)
    · rw [List.mem_singleton.1 hp, hrespond]
      rfl
  · rw [List.flatMap_append, List.flatMap_singleton, logs_of_respond hc] at htexts
    rw [List.flatMap_append, List.flatMap_singleton, logs_of_respond hrespond, Connection.log,
      round_logged hround, htexts, List.append_assoc]
  · intro hx
    cases hx
  · intro fd' c₁ hc₁
    cases hc₁
    refine ⟨done, rs ++ [r], rfl, hdone, hrespond, more_iff.trans (not_congr ⟨fun hr => ?_, ?_⟩)⟩
    · exact ⟨r, List.mem_append_right _ (List.mem_singleton_self r), hr⟩
    · rintro ⟨r', hr', hends⟩
      rcases List.mem_append.1 hr' with hr' | hr'
      · exact absurd hends (hgoes r' hr')
      · rwa [List.mem_singleton.1 hr'] at hends

/-- `log_queue.add` returns. -/
theorem Follows.logged {more : Bool} (h : Follows dict all texts (.logging fd c more)) :
    Follows dict all texts (if more then .responding fd c else .closing fd c) where
  defined := h.defined
  texts := h.texts
  idle hx := by cases more <;> cases hx
  last fd' c' hc := by
    obtain ⟨done, rs, hall, hdone, hrespond, hrs⟩ := h.last fd' c' (by cases more <;> exact hc)
    refine ⟨done, rs, hall, hdone, hrespond, ?_⟩
    rw [← hrs]
    cases more <;> simp [Worker.GoesOn]

/-- The connection is closed. -/
theorem Follows.close (h : Follows dict all texts (.closing fd c)) : Follows dict all texts .idle where
  defined := h.defined
  texts := h.texts
  idle _ p hp := by
    obtain ⟨done, rs, rfl, hdone, -, hrs⟩ := h.last fd c rfl
    rcases List.mem_append.1 hp with hp | hp
    · exact hdone p hp
    · rw [List.mem_singleton.1 hp]
      exact not_not.1 (mt hrs.2 False.elim)
  last _ _ hc := by cases hc

/-- All connections of a worker but the last one have been served to their ends. -/
theorem Follows.ended (h : Follows dict all texts x) : ∀ p ∈ all.dropLast, Ended p.2 := by
  intro p hp
  cases hx : x.connection with
  | none =>
    have hidle : x = .idle := by
      cases x with
      | idle => rfl
      | _ => cases hx
    exact h.idle hidle p (List.mem_of_mem_dropLast hp)
  | some q =>
    obtain ⟨done, rs, rfl, hdone, -⟩ := h.last q.1 q.2 hx
    rw [List.dropLast_concat] at hp
    exact hdone p hp

/-- **What one step does** for a worker. -/
theorem Follows.step (h : Follows dict all texts (s.workers w)) (hord : s.Ordered)
    (hstep : Server.Step dict s a t) :
    Follows dict (follow w all a) (texts ++ (a.loggedBy w).toList) (t.workers w) := by
  cases hstep with
  | @serve v fd q hq =>
    rw [show (Label.serve v fd).loggedBy w = none from rfl, Option.toList_none, List.append_nil]
    by_cases hv : v = w
    · subst hv
      rw [hord.idle v hq.ne_outside_of_ret] at h
      rw [Server.setWorker_self, follow, if_pos rfl]
      exact h.serve
    · rw [Server.setWorker_of_ne _ (Ne.symm hv), follow, if_neg hv]
      exact h
  | @recv v fd c c' r q hat hround _ =>
    by_cases hv : v = w
    · subst hv
      rw [hat] at h
      rw [Server.setWorker_self, follow, if_pos rfl, Label.loggedBy, if_pos rfl]
      exact h.recv hround
    · rw [Server.setWorker_of_ne _ (Ne.symm hv), follow, if_neg hv, Label.loggedBy, if_neg hv,
        Option.toList_none, List.append_nil]
      exact h
  | @logged v fd c more q hat _ =>
    rw [show (Label.logged v).loggedBy w = none from rfl, Option.toList_none, List.append_nil]
    by_cases hv : v = w
    · subst hv
      rw [hat] at h
      rw [Server.setWorker_self]
      exact h.logged
    · rw [Server.setWorker_of_ne _ (Ne.symm hv)]
      exact h
  | @close v fd c hat =>
    rw [show (Label.close v fd).loggedBy w = none from rfl, Option.toList_none, List.append_nil]
    by_cases hv : v = w
    · subst hv
      rw [hat] at h
      rw [Server.setWorker_self]
      exact h.close
    · rw [Server.setWorker_of_ne _ (Ne.symm hv)]
      exact h
  | _ => simpa [follow, Label.loggedBy, Server.setSockets, Server.setLog] using h

theorem filterMap_snoc {α β : Type*} (g : α → Option β) (as : List α) (b : α) :
    (as ++ [b]).filterMap g = as.filterMap g ++ (g b).toList := by
  rw [List.filterMap_append]
  cases hb : g b <;> simp [hb]

/-- A worker goes through `respond` on one connection after another. -/
theorem run_follows (h : Run (Server.Step dict) (.start W) ls s) (w : W) :
    Follows dict (sessions w ls) (ls.filterMap (Label.loggedBy w)) (s.workers w) := by
  have hstart : Follows dict (sessions w []) ([].filterMap (Label.loggedBy w))
      ((Server.start W).workers w) := follows_nil
  have hall := (h.with_invariant (fun _ _ _ hord hstep => hord.step hstep)
    Server.ordered_start).trace (P := fun seen s =>
      Follows dict (sessions w seen) (seen.filterMap (Label.loggedBy w)) (s.workers w))
    (fun seen s a t hseen hstep => ?_) hstart
  · exact hall
  · rw [sessions, List.foldl_concat, filterMap_snoc]
    exact hseen.step hstep.2 hstep.1

/-! ### The log queue and the file -/

/-- A step pushes a text of a worker to the log queue. -/
def Label.push : Label W → Option (W × List Byte)
  | .log_queue (.worker w, .act (.add log_txt) _) => some (w, log_txt)
  | _ => none

/-- A step writes a text to the file. -/
def Label.written : Label W → Option (List Byte)
  | .write logtxt => some logtxt
  | _ => none

/-- What one worker has pushed. -/
def pushedBy (w : W) (pushes : List (W × List Byte)) : List (List Byte) :=
  pushes.filterMap fun p => if p.1 = w then some p.2 else none

/-- What has been pushed and is not written yet: what the logger has got, and the queue. -/
def Server.unwritten (s : Server W) : List (List Byte) :=
  s.logtxt.toList ++ ((s.log_queue.pc .logger).inHand.reduceOption ++ s.log_queue.shared)

/-- What a worker has passed to `log_queue.add` and is not pushed yet. -/
def Server.unpushed (s : Server W) (w : W) : List (List Byte) :=
  (s.log_queue.pc (.worker w)).pending.filterMap Op.added

omit [DecidableEq W] in
theorem unwritten_congr (hlogtxt : t.logtxt = s.logtxt)
    (hhand : (t.log_queue.pc .logger).inHand = (s.log_queue.pc .logger).inHand)
    (hshared : t.log_queue.shared = s.log_queue.shared) : t.unwritten = s.unwritten := by
  rw [Server.unwritten, Server.unwritten, hlogtxt, hhand, hshared]

/-- A text that is pushed comes in at the end, and the first one is written. -/
theorem Server.Ordered.unwritten_step (h : s.Ordered) (hstep : Server.Step dict s a t) :
    s.unwritten ++ (a.push.map Prod.snd).toList = a.written.toList ++ t.unwritten := by
  have hsame : a.push = none → a.written = none → t.unwritten = s.unwritten →
      s.unwritten ++ (a.push.map Prod.snd).toList = a.written.toList ++ t.unwritten := by
    intro hpush hwritten heq
    rw [hpush, hwritten, heq]
    exact List.append_nil _
  cases hstep with
  | recv _ _ hq =>
    exact hsame rfl rfl (unwritten_congr rfl (hq.view_of_ne (by simp)).2 hq.call_view.1)
  | logged _ hq =>
    exact hsame rfl rfl (unwritten_congr rfl (hq.view_of_ne (by simp)).2 hq.ret_view.1)
  | fetch _ hq =>
    obtain ⟨hshared, hout, -, hhand⟩ := hq.call_view
    refine hsame rfl rfl (unwritten_congr rfl (hhand.trans ?_) hshared)
    rw [hout]
    rfl
  | @take logtxt q hq =>
    obtain ⟨hshared, -, hhand, hout⟩ := hq.ret_view
    have hnone : s.logtxt = none := h.writing hq.ne_outside_of_ret
    have hs : s.unwritten = logtxt :: s.log_queue.shared := by
      rw [Server.unwritten, hnone, hhand]
      rfl
    have ht : Server.unwritten { s.setLog q with logtxt := some logtxt } = logtxt :: q.shared := by
      show [logtxt] ++ ((q.pc .logger).inHand.reduceOption ++ q.shared) = _
      rw [hout]
      rfl
    refine hsame rfl rfl ?_
    rw [hs, ht, hshared]
  | @write logtxt hsome =>
    refine (List.append_nil _).trans ?_
    rw [Server.unwritten, hsome]
    rfl
  | @log_queue u e q he hq =>
    rcases he.cases with hin | ⟨o, r, rfl⟩
    · obtain ⟨hshared, hview⟩ := hq.inside hin
      refine hsame ?_ rfl (unwritten_congr rfl (hview _).2 hshared)
      cases e with
      | act _ _ => exact hin.elim
      | _ => cases u <;> rfl
    · obtain ⟨hact, hpending, hhand, -, hhand'⟩ := hq.act_view
      have hop : logOps u o := (h.log u).1 o (by rw [hpending]; exact List.mem_singleton_self o)
      cases u with
      | main => exact hop.elim
      | worker w =>
        obtain ⟨request, rfl, rfl, hshared⟩ | ⟨request, rfl, -⟩ := act_cases hact
        · show s.unwritten ++ [request] = Server.unwritten (s.setLog q)
          have hother : (q.pc .logger).inHand = (s.log_queue.pc .logger).inHand :=
            (hq.view_of_ne (by simp)).2
          rw [Server.unwritten, Server.unwritten, Server.setLog, hother, hshared, List.append_assoc,
            List.append_assoc]
        · exact hop.elim
      | logger =>
        obtain ⟨request, rfl, -⟩ | ⟨request, rfl, rfl, hshared⟩ := act_cases hact
        · exact hop.elim
        · refine hsame rfl rfl ?_
          rw [Server.unwritten, Server.unwritten, Server.setLog, hhand', hhand, hshared]
          rfl
  | _ => exact hsame rfl rfl rfl

/-- A worker pushes what it has passed to `log_queue.add`. -/
theorem Server.Ordered.unpushed_step (h : s.Ordered) (hstep : Server.Step dict s a t) (w : W) :
    s.unpushed w ++ (a.loggedBy w).toList =
      (a.push.bind fun p => if p.1 = w then some p.2 else none).toList ++ t.unpushed w := by
  have hsame : a.push = none → a.loggedBy w = none →
      (t.log_queue.pc (.worker w)).pending = (s.log_queue.pc (.worker w)).pending →
      s.unpushed w ++ (a.loggedBy w).toList =
        (a.push.bind fun p => if p.1 = w then some p.2 else none).toList ++ t.unpushed w := by
    intro hpush hlogged heq
    rw [hpush, hlogged, Server.unpushed, Server.unpushed, heq]
    exact List.append_nil _
  cases hstep with
  | @recv v fd c c' r q _ _ hq =>
    by_cases hv : v = w
    · subst hv
      obtain ⟨-, hout, hpending, -⟩ := hq.call_view
      have hs : s.unpushed v = [] := by
        rw [Server.unpushed, hout]
        rfl
      have ht : ((s.setLog q).setWorker v (.logging fd c'.log r.more)).unpushed v = [c'.log_txt] := by
        show (q.pc (.worker v)).pending.filterMap _ = _
        rw [hpending]
        rfl
      rw [hs, ht, Label.loggedBy, if_pos rfl]
      rfl
    · exact hsame rfl (if_neg hv) (hq.view_of_ne (by simpa using Ne.symm hv)).1
  | @logged v fd c more q _ hq =>
    refine hsame rfl rfl ?_
    by_cases hv : v = w
    · subst hv
      obtain ⟨-, hpending, -, hout⟩ := hq.ret_view
      show (q.pc (.worker v)).pending = _
      rw [hout, hpending]
      rfl
    · exact (hq.view_of_ne (by simpa using Ne.symm hv)).1
  | fetch _ hq => exact hsame rfl rfl (hq.view_of_ne (by simp)).1
  | take hq => exact hsame rfl rfl (hq.view_of_ne (by simp)).1
  | @log_queue u e q he hq =>
    rcases he.cases with hin | ⟨o, r, rfl⟩
    · refine hsame ?_ rfl ((hq.inside hin).2 _).1
      cases e with
      | act _ _ => exact hin.elim
      | _ => cases u <;> rfl
    · obtain ⟨hact, hpending, -, hpending', -⟩ := hq.act_view
      have hop : logOps u o := (h.log u).1 o (by rw [hpending]; exact List.mem_singleton_self o)
      cases u with
      | main => exact hop.elim
      | worker v =>
        obtain ⟨request, rfl, -, -⟩ | ⟨request, rfl, -⟩ := act_cases hact
        · by_cases hv : v = w
          · subst hv
            rw [Server.unpushed, Server.unpushed, Server.setLog, hpending, hpending', Label.push,
              Option.bind_some, if_pos rfl]
            rfl
          · rw [Server.unpushed, Server.unpushed, Server.setLog, Label.push, Option.bind_some,
              if_neg hv, (hq.view_of_ne (by simpa using Ne.symm hv)).1]
            exact List.append_nil _
        · exact hop.elim
      | logger => exact hsame (by cases o <;> rfl) rfl (hq.view_of_ne (by simp)).1
  | _ => exact hsame rfl rfl rfl

theorem Server.Step.logFile (hstep : Server.Step dict s a t) :
    t.logFile = s.logFile ++ a.written.toList.flatten := by
  cases hstep with
  | write _ => simp [Label.written]
  | _ => simp [Label.written, Server.setSockets, Server.setLog, Server.setWorker]

theorem run_logFile (h : Run (Server.Step dict) (.start W) ls s) :
    s.logFile = (ls.filterMap Label.written).flatten := by
  have hstart : (Server.start W).logFile = (([] : List (Label W)).filterMap Label.written).flatten :=
    rfl
  refine h.trace (P := fun seen s => s.logFile = (seen.filterMap Label.written).flatten)
    (fun seen s a t hseen hstep => ?_) hstart
  rw [hstep.logFile, hseen, filterMap_snoc, List.flatten_append]

/-- What has been pushed is written in this order, up to what the logger has not written yet. -/
theorem run_push (h : Run (Server.Step dict) (.start W) ls s) :
    (ls.filterMap Label.push).map Prod.snd = ls.filterMap Label.written ++ s.unwritten := by
  have hbalance : (Server.start W).unwritten ++ ls.filterMap (fun a => a.push.map Prod.snd) =
      ls.filterMap Label.written ++ s.unwritten :=
    (h.with_invariant (fun _ _ _ hord hstep => hord.step hstep) Server.ordered_start).balance
      (f := Server.unwritten) fun s a t hstep => hstep.2.unwritten_step hstep.1
  rw [List.map_filterMap]
  exact hbalance

/-- What a worker has pushed is what `respond` logs on its connections, up to the text that it is just
adding. -/
theorem run_pushedBy (h : Run (Server.Step dict) (.start W) ls s) (w : W) :
    ((sessions w ls).flatMap fun p => logs dict p.2) =
      pushedBy w (ls.filterMap Label.push) ++ s.unpushed w := by
  have hbalance : (Server.start W).unpushed w ++ ls.filterMap (Label.loggedBy w) =
      ls.filterMap (fun a => a.push.bind fun p => if p.1 = w then some p.2 else none) ++
        s.unpushed w :=
    (h.with_invariant (fun _ _ _ hord hstep => hord.step hstep) Server.ordered_start).balance
      (f := fun s => s.unpushed w) fun s a t hstep => hstep.2.unpushed_step hstep.1 w
  rw [← (run_follows h w).texts, pushedBy, List.filterMap_filterMap]
  exact hbalance

/-- **Each connection is logged as if it were the only one**: the file holds what has been pushed, in
that order, up to what the logger has not written yet; and what a worker has pushed is what `respond`
logs on its connections, one after the other, up to the text that it is just adding. -/
theorem server_log (h : Run (Server.Step dict) (.start W) ls s) :
    (∃ written, s.logFile = written.flatten ∧
      (ls.filterMap Label.push).map Prod.snd = written ++ s.unwritten) ∧
    ∀ w, (∀ p ∈ sessions w ls, (respond dict .fresh p.2).isSome) ∧
      (∀ p ∈ (sessions w ls).dropLast, Ended p.2) ∧
      ((sessions w ls).flatMap fun p => logs dict p.2) =
        pushedBy w (ls.filterMap Label.push) ++ s.unpushed w :=
  ⟨⟨_, run_logFile h, run_push h⟩, fun w =>
    ⟨(run_follows h w).defined, (run_follows h w).ended, run_pushedBy h w⟩⟩

/-! ### A text on its way -/

variable (dict)

/-- Steps inside of the log queue are steps of the server. -/
theorem run_within_log
    {as : List (Thread W × Event (Op (List Byte)) (Option (List Byte)))}
    {q q' : State (Thread W) (List (List Byte)) (Op (List Byte)) (Option (List Byte))}
    (h : Run (Monitor.Step logQueue) q as q') (has : ∀ a ∈ as, a.2.Within) (s : Server W) :
    Run (Server.Step dict) (s.setLog q) (as.map .log_queue) (s.setLog q') := by
  induction h with
  | nil q => exact .nil _
  | @cons q₀ q₁ q₂ a as hstep _ ih =>
    obtain ⟨u, e⟩ := a
    exact .cons (.log_queue (s := s.setLog q₀) (has _ List.mem_cons_self) hstep)
      (ih fun b hb => has b (List.mem_cons_of_mem _ hb))

/-- A round of `respond`, and the logger writes its text. -/
def delivery (w : W) (r : Recv) (log_txt : List Byte) : List (Label W) :=
  .recv w r log_txt :: ((operation (.worker w) (.add log_txt) none).map .log_queue ++
    [.logged w, .fetch] ++ (operation .logger .consume (some log_txt)).map .log_queue ++
    [.take log_txt, .write log_txt])

/-- If nobody else is inside of the log queue, the text gets to the file. -/
theorem exists_delivery (hidle : Idle s.log_queue) (hempty : s.log_queue.shared = [])
    (hlogtxt : s.logtxt = none) (hw : s.workers w = .responding fd c)
    (hround : c.round dict r = some c') : ∃ t,
      Run (Server.Step dict) s (delivery w r c'.log_txt) t ∧ t.logFile = s.logFile ++ c'.log_txt := by
  obtain ⟨q₁, q₂, q₃, hcall, hadd, hret, hidle', hshared⟩ := hidle.exists_operation (M := logQueue)
    (o := .add c'.log_txt) (.worker w) (Or.inl rfl) rfl
  rw [hempty, List.nil_append] at hshared
  obtain ⟨q₄, q₅, q₆, hcall', hconsume, hret', -, -⟩ := hidle'.exists_operation (M := logQueue)
    (o := .consume) (r := some c'.log_txt) (x := []) .logger
    (by rw [hshared]; exact Nat.one_ne_zero) (by rw [hshared]; rfl)
  let u : Server W := s.setWorker w (.logging fd c'.log r.more)
  let v : Server W := u.setWorker w (if r.more then .responding fd c'.log else .closing fd c'.log)
  have hfirst := run_within_log dict hadd (within_operation _ _ _) u
  have hsecond := run_within_log dict hconsume (within_operation _ _ _) v
  have hlogged : Server.Step dict (u.setLog q₂) (.logged w) (v.setLog q₃) :=
    .logged (s := u.setLog q₂) (Server.setWorker_self _ _ _) hret
  refine ⟨{ v.setLog q₆ with logFile := s.logFile ++ c'.log_txt, logtxt := none },
    .cons (.recv hw hround hcall) ?_, rfl⟩
  rw [List.append_assoc, List.append_assoc]
  exact hfirst.append (.cons hlogged (.cons (.fetch (s := v.setLog q₃) hlogtxt hcall')
    (hsecond.append (.cons (.take (s := v.setLog q₅) hret')
      (.cons (.write (s := { v.setLog q₆ with logtxt := some c'.log_txt }) rfl) (.nil _))))))

end Runs

/-- A lookup that is logged. -/
theorem server_log_delivery : ∃ s ls, Run (Server.Step {text "yes"}) (.start Unit) ls s ∧
    s.logFile = record {text "yes"} (text "yes\n", 2) ∧
    ((sessions () ls).flatMap fun p => logs {text "yes"} p.2) =
      pushedBy () (ls.filterMap Label.push) ++ s.unpushed () := by
  obtain ⟨s, harrival, hw, hlog, hlogtxt, hfile⟩ := exists_arrival {text "yes"} (s := .start Unit) ()
    ⟨rfl, fun _ => rfl⟩ rfl (Set.notMem_empty 4) rfl
  have hidle : Idle s.log_queue := by
    rw [hlog]
    exact ⟨rfl, fun _ => rfl⟩
  obtain ⟨t, hdelivery, hfile'⟩ := exists_delivery {text "yes"} (w := ())
    (r := .data (text "yes\n") 2) hidle (by rw [hlog]; rfl) hlogtxt hw rfl
  refine ⟨t, _, harrival.append hdelivery, ?_,
    ((server_log (harrival.append hdelivery)).2 ()).2.2⟩
  rw [hfile', hfile]
  decide

end Spellchecker
