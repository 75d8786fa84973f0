import SysProg.Simulation.Deadlock

/-!
# First in, first out

Each device serves its jobs in the order of their arrivals, as long as no two jobs reach the same
disk in the same tick.  `push_queue` puts a job before the first one behind the head that has the
same priority, so a job that the CPU sends to a disk overtakes one that a swap has put there in the
same tick.

* `State.arrivals`, `State.departures`: the history of a device in the log;
* `Fifo`: the arrivals at a device are its departures, followed by its queue;
* `overtakes`: the condition of a tick in which a job overtakes another one;
* `ticks_fifo`: runs without such a tick; `overtaking_run`: a run with one.
-/

namespace Simulation

open CInt Tokens Runs

variable {env : Env} {s t : State}

/-! ### Histories -/

/-- The job that an event puts in the queue of the device. -/
def Event.arrival (dev : Dev) : Event → Option ℕ
  | .arrivedAt d j => if d = dev then some j else none
  | .returnedFrom _ j => if dev = .cpu then some j else none
  | _ => none

/-- The job that leaves the device with an event: a job arrives at a disk from the CPU. -/
def Event.departure (dev : Dev) : Event → Option ℕ
  | .arrivedAt (.disk _) j => if dev = .cpu then some j else none
  | .terminated j => if dev = .cpu then some j else none
  | .returnedFrom i j => if dev = .disk i then some j else none
  | _ => none

namespace State

/-- The jobs that were put in the queue of the device, in this order. -/
def arrivals (s : State) (dev : Dev) : List ℕ := s.events.filterMap fun e => e.2.arrival dev

/-- The jobs that have left the device, in this order. -/
def departures (s : State) (dev : Dev) : List ℕ := s.events.filterMap fun e => e.2.departure dev

end State

/-- The arrivals at a device are its departures, followed by its queue. -/
def Fifo (s : State) : Prop := ∀ dev, s.arrivals dev = s.departures dev ++ s.ids dev

/-- The jobs leave a device in the order in which they were put in its queue. -/
theorem Fifo.departures_prefix (h : Fifo s) (dev : Dev) : s.departures dev <+: s.arrivals dev :=
  ⟨s.ids dev, (h dev).symm⟩

section Log

variable {l : List (ℕ × Event)} {dev : Dev}

theorem State.arrivals_of_events (h : t.events = s.events ++ l) :
    t.arrivals dev = s.arrivals dev ++ l.filterMap fun e => e.2.arrival dev := by
  rw [State.arrivals, h, List.filterMap_append, State.arrivals]

theorem State.departures_of_events (h : t.events = s.events ++ l) :
    t.departures dev = s.departures dev ++ l.filterMap fun e => e.2.departure dev := by
  rw [State.departures, h, List.filterMap_append, State.departures]

end Log

/-- Events that neither put a job in a queue nor remove one. -/
theorem Fifo.congr {l : List (ℕ × Event)} (h : Fifo s) (hids : t.ids = s.ids)
    (hevents : t.events = s.events ++ l)
    (hl : ∀ e ∈ l, ∀ dev, e.2.arrival dev = none ∧ e.2.departure dev = none) : Fifo t := by
  intro dev
  have harrival : (l.filterMap fun e => e.2.arrival dev) = [] :=
    List.filterMap_eq_nil_iff.2 fun e he => (hl e he dev).1
  have hdeparture : (l.filterMap fun e => e.2.departure dev) = [] :=
    List.filterMap_eq_nil_iff.2 fun e he => (hl e he dev).2
  rw [State.arrivals_of_events hevents, State.departures_of_events hevents, harrival, hdeparture,
    hids, List.append_nil, List.append_nil]
  exact h dev

/-- **A transfer is first in, first out** if the job goes to the end of the queue, and if the log
says that it left one device and came to the other. -/
theorem Fifo.transfer {a b : Dev} {n : Node ℕ} {rest q : List (Node ℕ)} {e : Event} (h : Fifo s)
    (ht : Transfer s t a b n rest q)
    (hq : q.map Node.val = s.ids b ++ [n.val]) (hevents : t.events = s.events ++ [(s.simTime, e)])
    (harrival : ∀ dev, e.arrival dev = if dev = b then some n.val else none)
    (hdeparture : ∀ dev, e.departure dev = if dev = a then some n.val else none) : Fifo t := by
  intro dev
  obtain ⟨tel, hsource⟩ := ht.source
  have hdev := h dev
  rw [State.arrivals_of_events hevents, State.departures_of_events hevents]
  by_cases ha : dev = a
  · subst ha
    have hids : t.ids dev = rest.map Node.val := by rw [State.ids, hsource]
    have hsids : s.ids dev = n.val :: rest.map Node.val := by rw [State.ids, ht.queue]; rfl
    simp [harrival, hdeparture, ht.ne, hids, hdev, hsids]
  · by_cases hb : dev = b
    · subst hb
      have hids : t.ids dev = s.ids dev ++ [n.val] := by rw [← hq, State.ids, ht.target]
      simp [harrival, hdeparture, ha, hids, hdev]
    · have hids : t.ids dev = s.ids dev := by rw [State.ids, State.ids, ht.other dev ha hb]
      simp [harrival, hdeparture, ha, hb, hids, hdev]

/-! ### Moves -/

/-- The device whose queue the move uses `push_queue` on. -/
def Move.target : Move → Option Dev
  | .arrive _ => some .cpu
  | .swap i _ _ => some (.disk i)
  | .send _ i => some (.disk i)
  | _ => none

/-- No job behind the head of the queue has the priority that an arrival gets now. -/
def Fresh (dev : Dev) (s : State) : Prop :=
  ∀ n ∈ (s.devices dev).queue.tail, n.priority < (s.simTime : ℤ)

theorem Fresh.pushQueue_map_val {dev : Dev} (h : Fresh dev s) (hinv : Inv env.Serves s) (j : ℕ) :
    (pushQueue (s.devices dev).queue j s.simTime).map Node.val = s.ids dev ++ [j] := by
  rw [pushQueue_eq_append (hinv.device dev).priority_le h, List.map_append]
  rfl

/-- The node that a push puts behind all others. -/
theorem Fresh.insertNode_map_val {dev : Dev} {n : Node ℕ} {rest : List (Node ℕ)} (h : Fresh dev s)
    (hq : (s.devices dev).queue = n :: rest) (j : ℕ) :
    (insertNode ⟨j, s.simTime⟩ rest).map Node.val = rest.map Node.val ++ [j] := by
  rw [insertNode_eq_append fun m hm => h m (by rwa [hq]), List.map_append]
  rfl

/-- **A move is first in, first out** if it finds the queue that it pushes to fresh. -/
theorem Fifo.step {m : Move} (h : Inv env.Serves s) (hf : Fifo s) (hstep : Step env s m t)
    (hfresh : ∀ dev, m.target = some dev → Fresh dev s) : Fifo t := by
  have hevents := hstep.events
  cases hstep with
  | clock => exact hf.congr (l := []) rfl (by simp) (by simp)
  | generate => exact hf.congr rfl hevents (by simp [Move.log])
  | @arrive j _ _ =>
    have hids := (hfresh .cpu rfl).pushQueue_map_val h j
    intro dev
    rw [State.arrivals_of_events hevents, State.departures_of_events hevents, hf dev]
    cases dev with
    | cpu =>
      have ht : ((arriveAtCPU j s).setUpcoming none).ids .cpu = s.ids .cpu ++ [j] := by
        rw [← hids]
        simp [State.ids, arriveAtCPU, h.toInt_simTime]
      simp [Move.log, Event.arrival, Event.departure, ht]
    | disk i => simp [Move.log, Event.arrival, Event.departure, State.ids, arriveAtCPU]
  | @back i n rest hq hcur _ _ =>
    have hdraw := h.reserve (reserve_drawCpuBurst env hcur)
    exact Fifo.transfer (s := drawCpuBurst env n.val s) (e := .returnedFrom i n.val) hf
      (hdraw.transfer_back hq hcur) (by simp [pushQueueEnd, State.ids, drawCpuBurst, myrandom])
      hevents (fun dev => rfl) fun dev => rfl
  | @swap i n m rest cpuRest hq hcur _ hcpu hwait _ =>
    have hdraw := h.reserve (reserve_drawCpuBurst env hcur)
    have hids := (hfresh (.disk i) rfl).insertNode_map_val hq m.val
    -- the job of the CPU goes behind the queue of the disk, then the head of the disk returns
    have hmid := Fifo.transfer (s := drawCpuBurst env n.val s) (e := .arrivedAt (.disk i) m.val) hf
      (hdraw.transfer_swap env i hcpu hwait) ((hfresh (.disk i) rfl).pushQueue_map_val h m.val)
      (by simp [arriveAtDisk, drawCpuBurst, myrandom]) (fun dev => by simp [Event.arrival, eq_comm])
      fun dev => rfl
    have hinv := hdraw.transfer (hdraw.transfer_swap env i hcpu hwait) fun hserves =>
      arriveAtDisk_burst hserves m.val _
    have hdev := h.swapping_disk env hq m.val cpuRest
    refine Fifo.transfer (e := .returnedFrom i n.val) hmid
      (hinv.transfer_back (by rw [hdev]) (by rw [hdev, hcur])) ?_ ?_ (fun dev => rfl) fun dev => rfl
    · simp [pushQueueEnd, State.ids]
    · simp [hevents, Move.log, arriveAtDisk, drawCpuBurst, myrandom]
  | fetch =>
    refine hf.congr (funext fun dev => ?_) hevents
      (by simp [Move.log, Event.arrival, Event.departure])
    cases dev <;> simp [State.ids, cpuEnter]
  | work => exact hf.congr rfl hevents (by simp [Move.log])
  | @send i n rest hq hcur hfin _ _ =>
    have hinv := h.reserve (reserve_finished hcur hfin.1)
    have hids := (hfresh (.disk i) rfl).pushQueue_map_val h n.val
    exact Fifo.transfer (s := s.finished n.val) (e := .arrivedAt (.disk i) n.val) hf
      (hinv.transfer_send env i hq hcur) hids hevents (fun dev => by simp [Event.arrival, eq_comm])
      fun dev => rfl
  | keep => exact hf.congr rfl hevents (by simp [Move.log])
  | @kill n rest hq _ _ _ =>
    intro dev
    rw [State.arrivals_of_events hevents, State.departures_of_events hevents, hf dev]
    cases dev with
    | cpu => simp [Move.log, Event.arrival, Event.departure, State.ids, hq]
    | disk i => simp [Move.log, Event.arrival, Event.departure, State.ids, State.finished]
  | @enter i n rest _ _ _ =>
    refine hf.congr (funext fun dev => ?_) hevents
      (by simp [Move.log, Event.arrival, Event.departure])
    by_cases hdev : dev = .disk i
    · subst hdev
      simp [State.ids, diskEnter]
    · simp [State.ids, diskEnter, hdev]
  | serve => exact hf.congr rfl hevents (by simp [Move.log])
  | record => exact hf.congr rfl hevents (by simp [Move.log])

/-- A queue stays fresh until something is pushed to it. -/
theorem Fresh.step {m : Move} {i : Fin 2} (hf : Fresh (.disk i) s) (hstep : Step env s m t)
    (htarget : m.target ≠ some (.disk i)) : Fresh (.disk i) t := by
  have hkeep : t.simTime = s.simTime → (t.devices (.disk i)).queue = (s.devices (.disk i)).queue →
      Fresh (.disk i) t := fun htime hq => by
    rw [Fresh, htime, hq]
    exact hf
  cases hstep with
  | clock => exact fun n hn => (hf n hn).trans (by simp)
  | generate => exact hf
  | arrive => exact hkeep rfl (by simp [arriveAtCPU])
  | @back i' n rest hq _ _ _ =>
    by_cases hi : i = i'
    · subst hi
      intro n hn
      refine hf n ?_
      rw [hq]
      exact List.mem_of_mem_tail (by simpa using hn)
    · exact hkeep rfl (by simp [drawCpuBurst, myrandom, hi])
  | @swap i' _ _ _ _ _ _ _ _ _ _ =>
    have hi : i ≠ i' := fun e => htarget (by rw [Move.target, e])
    exact hkeep rfl (by rw [swapped_other hi])
  | fetch => exact hkeep rfl (by simp [cpuEnter])
  | work => exact hkeep rfl rfl
  | @send i' _ _ _ _ _ _ _ =>
    have hi : i ≠ i' := fun e => htarget (by rw [Move.target, e])
    exact hkeep rfl (by simp [arriveAtDisk, myrandom, State.finished, hi])
  | keep => exact hkeep rfl rfl
  | kill => exact hkeep rfl (by simp [State.finished])
  | @enter i' _ _ _ _ _ =>
    by_cases hi : i = i'
    · subst hi
      exact hkeep rfl (by simp [diskEnter])
    · exact hkeep rfl (by simp [diskEnter, hi])
  | serve => exact hkeep rfl rfl
  | record => exact hf

/-! ### Ticks -/

/-- In the next tick the CPU finishes a job and sends it to a disk where a job that arrived in that
same tick stands behind the head. -/
def overtakes (env : Env) (s : State) : Bool :=
  match beforeCompute env s with
  | none => false
  | some (_, u) =>
      match (u.devices .cpu).currentJob with
      | none => false
      | some j =>
          decide (sizeSub (u.jobs j).burstTime 1 = 0) && (jobNeedsDisk env (u.decBurst .cpu j)).1 &&
            match pickBestDisk (u.finished j) with
            | none => false
            | some i => (u.devices (.disk i)).queue.tail.any fun n => n.priority = u.simTime

section Tick

variable {kind : Move → Prop}

theorem Fifo.atMost (h : Inv env.Serves s) (hf : Fifo s) (ht : AtMost (Step env) kind s t)
    (hfresh : ∀ m, kind m → ∀ dev, m.target = some dev → Fresh dev s) : Fifo t := by
  rcases ht with rfl | ⟨m, hk, hstep⟩
  · exact hf
  · exact hf.step h hstep (hfresh m hk)

theorem Fresh.atMost {i : Fin 2} (hf : Fresh (.disk i) s) (ht : AtMost (Step env) kind s t)
    (htarget : ∀ m, kind m → m.target ≠ some (.disk i)) : Fresh (.disk i) t := by
  rcases ht with rfl | ⟨m, hk, hstep⟩
  · exact hf
  · exact hf.step hstep (htarget m hk)

/-- A job that does not overtake another one finds a fresh queue. -/
theorem fresh_of_not_overtakes {busy : Bool} {u v : State} {m : Move} (h : Inv env.Serves u)
    (hu : beforeCompute env s = some (busy, u)) (hno : overtakes env s = false)
    (hstep : Step env u m v) (hk : Computing m) :
    ∀ dev, m.target = some dev → Fresh dev u := by
  rintro dev htarget n hn
  cases hstep with
  | @send i k rest _ hcur hfin hneeds hbest =>
    obtain rfl := Option.some.inj htarget
    have hle := (h.device (.disk i)).priority_le n (List.mem_of_mem_tail hn)
    refine lt_of_le_of_ne hle fun heq => ?_
    have hyes : overtakes env s = true := by
      simp only [overtakes, hu, hcur, hneeds, hbest, hfin.2, decide_true, Bool.true_and,
        List.any_eq_true]
      exact ⟨n, hn, decide_eq_true heq⟩
    exact Bool.noConfusion (hno.symm.trans hyes)
  | clock => cases htarget
  | generate => cases htarget
  | arrive => simp [Computing] at hk
  | back => cases htarget
  | swap => simp [Computing] at hk
  | fetch => cases htarget
  | work => cases htarget
  | keep => cases htarget
  | kill => cases htarget
  | enter => cases htarget
  | serve => cases htarget
  | record => cases htarget

theorem Checking.target {i : Fin 2} {m : Move} {dev : Dev} (hk : Checking i m)
    (htarget : m.target = some dev) : dev = .disk i := by
  rcases hk with ⟨j, rfl⟩ | ⟨j, k, rfl⟩
  · cases htarget
  · exact (Option.some.inj htarget).symm

/-- The phases that push nothing. -/
theorem Fifo.phases {kinds : List (Move → Prop)} (h : Inv env.Serves s) (hf : Fifo s)
    (ht : Phases (Step env) kinds s t) (hkinds : ∀ kind ∈ kinds, ∀ m, kind m → m.target = none) :
    Fifo t := by
  induction ht with
  | nil => exact hf
  | @cons s u t kind kinds hone _ ih =>
    have hnone := hkinds kind List.mem_cons_self
    refine ih (h.atMost hone) (hf.atMost h hone fun m hk dev htarget => ?_)
      fun kind hkind => hkinds kind (List.mem_cons_of_mem _ hkind)
    rw [hnone m hk] at htarget
    exact absurd htarget (by simp)

/-- **A tick is first in, first out** if no job overtakes another one in it. -/
theorem Fifo.tick (h : Inv env.Serves s) (hf : Fifo s) (hclock : s.simTime + 1 < 2 ^ 31)
    (hserves : ∀ i, env.Serves (.disk i)) (hno : overtakes env s = false)
    (ht : Simulation.tick env s = some t) : Fifo t := by
  obtain ⟨busy, u, v, t', hu, ht', hfirst, hcompute, hlast⟩ := h.tick_phases env hclock hserves
  obtain rfl : t' = t := Option.some.inj (ht'.symm.trans ht)
  have hinv := h.clocked hclock
  have hfresh : ∀ dev, Fresh dev s.clocked := fun dev n hn => by
    have := (h.device dev).priority_le n (List.mem_of_mem_tail hn)
    simp only [State.clocked_simTime]
    omega
  have hfifo : Fifo s.clocked := hf
  have hmid := hinv.phases hfirst
  rw [firstPhases] at hfirst
  obtain _ | ⟨hgen, _ | ⟨harr, _ | ⟨hcheck₀, _ | ⟨hcheck₁, hfetch⟩⟩⟩⟩ := hfirst
  rename_i a b c d
  -- the arrival finds every queue fresh, and a check changes only the queue of its own disk
  have hinva := hinv.atMost hgen
  have hinvb := hinva.atMost harr
  have hinvc := hinvb.atMost hcheck₀
  have hfresha : Fresh .cpu a ∧ ∀ i, Fresh (.disk i) a := by
    refine ⟨?_, fun i => (hfresh _).atMost hgen fun m hk => by rw [hk]; simp [Move.target]⟩
    rcases hgen with rfl | ⟨m, rfl, hstep⟩
    · exact hfresh .cpu
    · cases hstep
      exact hfresh .cpu
  have hfreshb : ∀ i, Fresh (.disk i) b := fun i => (hfresha.2 i).atMost harr fun m hk => by
    obtain ⟨j, rfl⟩ := hk
    simp [Move.target]
  have hfreshc : Fresh (.disk 1) c := (hfreshb 1).atMost hcheck₀ fun m hk htarget => by
    cases hk.target htarget
  have hfifoa := hfifo.atMost hinv hgen fun m hk dev htarget => by rw [hk] at htarget; cases htarget
  have hfifob := hfifoa.atMost hinva harr fun m hk dev htarget => by
    obtain ⟨j, rfl⟩ := hk
    cases htarget
    exact hfresha.1
  have hfifoc := hfifob.atMost hinvb hcheck₀ fun m hk dev htarget => hk.target htarget ▸ hfreshb 0
  have hfifod := hfifoc.atMost hinvc hcheck₁ fun m hk dev htarget => hk.target htarget ▸ hfreshc
  have hfifou := hfifod.phases (hinvc.atMost hcheck₁) hfetch fun kind hkind m hk => by
    obtain rfl := List.mem_singleton.1 hkind
    obtain ⟨j, rfl⟩ := hk
    rfl
  have hfifov : Fifo v := by
    rcases hcompute with rfl | ⟨m, hk, hstep⟩
    · exact hfifou
    · exact hfifou.step hmid hstep (fresh_of_not_overtakes hmid hu hno hstep hk)
  refine hfifov.phases (hmid.atMost hcompute) hlast fun kind hkind m hk => ?_
  have hnone : (∃ i, Entering i m ∨ Serving i m) ∨ m = .record := by
    simp only [lastPhases, List.mem_cons, List.not_mem_nil, or_false] at hkind
    rcases hkind with rfl | rfl | rfl | rfl | rfl
    · exact Or.inl ⟨0, Or.inl hk⟩
    · exact Or.inl ⟨0, Or.inr hk⟩
    · exact Or.inl ⟨1, Or.inl hk⟩
    · exact Or.inl ⟨1, Or.inr hk⟩
    · exact Or.inr hk
  rcases hnone with ⟨i, ⟨j, rfl⟩ | ⟨j, rfl⟩⟩ | rfl <;> rfl

end Tick

/-- **First in, first out.** In a run in whose ticks no job overtakes another one, every device
serves its jobs in the order of their arrivals: at the end of every tick the arrivals at a device
are its departures, followed by its queue. -/
theorem ticks_fifo (hconf : env.conf.Positive) (hrand : env.InRange) {n : ℕ}
    (hn : n ≤ env.conf.finTime) (hno : ∀ k < n, (ticks env k).any (overtakes env) = false) :
    ∃ s, ticks env n = some s ∧ Fifo s ∧ ∀ dev, s.departures dev <+: s.arrivals dev := by
  have hserves : ∀ i, env.Serves (.disk i) := fun i => hrand.serves hconf (.disk i)
  have hall : ∃ s, ticks env n = some s ∧ Fifo s := by
    induction n with
    | zero => exact ⟨init, rfl, fun dev => rfl⟩
    | succ n ih =>
      obtain ⟨s, hs, hf⟩ := ih (by omega) fun k hk => hno k (by omega)
      obtain ⟨s', ms, hs', -, hinv, htime⟩ := ticks_run hserves hconf.finTime (by omega : n ≤ _)
      obtain rfl : s' = s := Option.some.inj (hs'.symm.trans hs)
      have hfin := hconf.finTime
      have hclock : s'.simTime + 1 < 2 ^ 31 := by omega
      obtain ⟨t, -, ht, -⟩ := hinv.tick_run env hclock hserves
      have hnot : overtakes env s' = false := by simpa [hs] using hno n (by omega)
      refine ⟨t, ?_, hf.tick hinv hclock hserves hnot ht⟩
      rw [ticks, hs]
      exact ht
  obtain ⟨s, hs, hf⟩ := hall
  exact ⟨s, hs, hf, hf.departures_prefix⟩

/-! ### A run in which a job overtakes another one -/

/-- Up to tick 10 no job overtakes another one. -/
theorem ticks_fifo_short : ∃ s, ticks (Env.ofRandom confShort crowdedRandom) 10 = some s ∧
    Fifo s ∧ ∀ dev, s.departures dev <+: s.arrivals dev :=
  ticks_fifo confShort_positive (Env.ofRandom_inRange confShort crowdedRandom)
    (by decide : 10 ≤ 100) (by decide +kernel)

/-- **A job overtakes another one.** In tick 11 job `8` comes to disk 1 by a swap, and job `0`, which
the CPU sends there in the same tick, goes before it; it leaves the disk first, in tick 14. -/
theorem overtaking_run : confShort.Positive ∧ confShort.disk1Min = confShort.disk2Min ∧
    confShort.disk1Max = confShort.disk2Max ∧
    (Env.ofRandom confShort crowdedRandom).InRange ∧ 14 ≤ confShort.finTime ∧
    ∃ s, ticks (Env.ofRandom confShort crowdedRandom) 14 = some s ∧
      s.arrivals (.disk 0) = [0, 2, 4, 6, 8, 0, 1, 2, 4] ∧
      s.departures (.disk 0) = [0, 2, 4, 6, 0] ∧
      ¬s.departures (.disk 0) <+: s.arrivals (.disk 0) := by
  have hhistory : ((ticks (Env.ofRandom confShort crowdedRandom) 14).map fun s =>
      (s.arrivals (.disk 0), s.departures (.disk 0))) =
      some ([0, 2, 4, 6, 8, 0, 1, 2, 4], [0, 2, 4, 6, 0]) := by
    decide +kernel
  obtain ⟨s, hs, heq⟩ := Option.map_eq_some_iff.1 hhistory
  obtain ⟨harrivals, hdepartures⟩ := Prod.mk.inj heq
  refine ⟨confShort_positive, rfl, rfl, Env.ofRandom_inRange _ _, by decide, s, hs, harrivals,
    hdepartures, ?_⟩
  rw [harrivals, hdepartures]
  decide

end Simulation
