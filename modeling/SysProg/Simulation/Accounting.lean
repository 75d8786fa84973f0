import SysProg.Simulation.Fifo

/-!
# Response times

`arrivalTime` is one field of a job, and the devices share it.  A disk sets it when a job arrives,
and the CPU only when a new job arrives: not when a job returns from a disk.  A job that the CPU
sends to a disk gets the new arrival time before its response time is recorded, and a job that is
terminated is not recorded at all.

* `State.account`: what the log says about the visits of a device;
* `Books`: the telemetry agrees with it;
* `Accounted`: the moves that keep the books in order;
* `ticks_account`: runs of such moves; `response_times_wrong`: two other runs.
-/

namespace Simulation

open CInt Tokens Runs

variable {env : Env} {s t : State}

/-! ### Visits -/

/-- When each job last came to a device, and the visits that are over: when the job came, and when
it left. -/
structure Account where
  since : ℕ → ℕ
  visits : List (ℕ × ℕ)

/-- One more event. -/
def Account.step (dev : Dev) (a : Account) (e : ℕ × Event) : Account where
  since := match e.2.arrival dev with
    | some j => Function.update a.since j e.1
    | none => a.since
  visits := match e.2.departure dev with
    | some j => a.visits ++ [(a.since j, e.1)]
    | none => a.visits

/-- The sum of the response times. -/
def Account.total (a : Account) : ℕ := (a.visits.map fun v => v.2 - v.1).sum

/-- The visits of a device in the log. -/
def State.account (s : State) (dev : Dev) : Account :=
  s.events.foldl (Account.step dev) ⟨fun _ => 0, []⟩

/-- The job has never been on a disk. -/
def State.New (s : State) (j : ℕ) : Prop := ∀ e ∈ s.events, ∀ i, e.2 ≠ .returnedFrom i j

section Events

variable {dev : Dev} {l : List (ℕ × Event)} {e : Event}

theorem State.account_of_events (h : t.events = s.events ++ l) :
    t.account dev = l.foldl (Account.step dev) (s.account dev) := by
  rw [State.account, h, List.foldl_append]
  rfl

theorem State.account_snoc (h : t.events = s.events ++ [(s.simTime, e)]) :
    t.account dev = (s.account dev).step dev (s.simTime, e) :=
  State.account_of_events h

theorem State.New.of_events {j : ℕ} (hnew : t.New j) (h : t.events = s.events ++ l) : s.New j :=
  fun e he => hnew e (by rw [h]; exact List.mem_append_left _ he)

/-- Events that neither put a job in a queue nor remove one. -/
theorem State.account_congr (h : t.events = s.events ++ l)
    (hl : ∀ e ∈ l, ∀ dev, e.2.arrival dev = none ∧ e.2.departure dev = none) :
    t.account dev = s.account dev := by
  rw [State.account_of_events h]
  generalize s.account dev = a
  clear h
  induction l generalizing a with
  | nil => rfl
  | cons e l ih =>
    obtain ⟨harrival, hdeparture⟩ := hl e List.mem_cons_self dev
    have hstep : Account.step dev a e = a := by simp [Account.step, harrival, hdeparture]
    rw [List.foldl_cons, hstep]
    exact ih (fun e he => hl e (List.mem_cons_of_mem _ he)) a

end Events

/-! ### The books -/

/-- The telemetry agrees with the visits (as `size_t`), and the field `arrivalTime` is right for
jobs on a disk and for new ones on the CPU. -/
structure Books (s : State) : Prop where
  count : ∀ dev, (s.devices dev).telemetry.responseCount = (s.account dev).visits.length % 2 ^ 64
  sum : ∀ dev, (s.devices dev).telemetry.responseTimeSum = (s.account dev).total % 2 ^ 64
  disk : ∀ i, ∀ j ∈ s.ids (.disk i), (s.jobs j).arrivalTime = (s.account (.disk i)).since j
  cpu : ∀ j ∈ s.ids .cpu, s.New j → (s.jobs j).arrivalTime = (s.account .cpu).since j

/-- Nothing that the books depend on changes. -/
theorem Books.congr {l : List (ℕ × Event)} (h : Books s) (hids : t.ids = s.ids)
    (hjobs : ∀ dev, ∀ j ∈ s.ids dev, (t.jobs j).arrivalTime = (s.jobs j).arrivalTime)
    (hcount : ∀ dev, (t.devices dev).telemetry.responseCount =
      (s.devices dev).telemetry.responseCount)
    (hsum : ∀ dev, (t.devices dev).telemetry.responseTimeSum =
      (s.devices dev).telemetry.responseTimeSum)
    (hevents : t.events = s.events ++ l)
    (hl : ∀ e ∈ l, ∀ dev, e.2.arrival dev = none ∧ e.2.departure dev = none) : Books t := by
  have haccount : ∀ dev, t.account dev = s.account dev := fun dev => State.account_congr hevents hl
  constructor
  case count => intro dev; rw [hcount, haccount, h.count]
  case sum => intro dev; rw [hsum, haccount, h.sum]
  case disk =>
    intro i j hj
    rw [hids] at hj
    rw [hjobs _ j hj, haccount, h.disk i j hj]
  case cpu =>
    intro j hj hnew
    rw [hids] at hj
    rw [hjobs _ j hj, haccount, h.cpu j hj (hnew.of_events hevents)]

/-- **A transfer keeps the books** if it records the time since the job came. -/
theorem Books.transfer {a b : Dev} {n : Node ℕ} {rest q : List (Node ℕ)} {e : Event} (hb : Books s)
    (h : Inv env.Serves s) (ht : Transfer s t a b n rest q)
    (hevents : t.events = s.events ++ [(s.simTime, e)])
    (harrival : ∀ dev, e.arrival dev = if dev = b then some n.val else none)
    (hdeparture : ∀ dev, e.departure dev = if dev = a then some n.val else none)
    (hrecord : (t.devices a).telemetry = updateResponseTime
      (s.simTime - (s.account a).since n.val) (s.devices a).telemetry)
    (hcame : (t.jobs n.val).arrivalTime = s.simTime ∨ ∃ i, e = .returnedFrom i n.val) :
    Books t := by
  have haccount : ∀ dev, t.account dev = (s.account dev).step dev (s.simTime, e) := fun dev =>
    State.account_snoc hevents
  have hvisits : ∀ dev, dev ≠ a → (t.account dev).visits = (s.account dev).visits := fun dev hdev => by
    rw [haccount, Account.step, hdeparture, if_neg hdev]
  have hleft : (t.account a).visits =
      (s.account a).visits ++ [((s.account a).since n.val, s.simTime)] := by
    rw [haccount, Account.step, hdeparture, if_pos rfl]
  have hsince : ∀ dev k, k ≠ n.val ∨ dev ≠ b → (t.account dev).since k = (s.account dev).since k := by
    intro dev k hk
    rw [haccount, Account.step, harrival]
    split_ifs with hdev
    · exact Function.update_of_ne (hk.resolve_right (not_not.2 hdev)) _ _
    · rfl
  have hnow : (t.account b).since n.val = s.simTime := by
    rw [haccount, Account.step, harrival, if_pos rfl]
    exact Function.update_self _ _ _
  have htelemetry : ∀ dev, dev ≠ a → (t.devices dev).telemetry = (s.devices dev).telemetry := by
    intro dev ha
    by_cases hdev : dev = b
    · rw [hdev, ht.target]
    · rw [ht.other dev ha hdev]
  constructor
  case count =>
    intro dev
    by_cases ha : dev = a
    · subst ha
      rw [hrecord, hleft, List.length_append, updateResponseTime, sizeAdd, hb.count]
      exact Nat.mod_add_mod _ _ _
    · rw [htelemetry dev ha, hvisits dev ha, hb.count]
  case sum =>
    intro dev
    by_cases ha : dev = a
    · subst ha
      rw [hrecord, Account.total, hleft, updateResponseTime, sizeAdd, hb.sum, List.map_append,
        List.sum_append]
      exact Nat.mod_add_mod _ _ _
    · rw [htelemetry dev ha, Account.total, hvisits dev ha, hb.sum, Account.total]
  case disk =>
    intro i k hk
    rcases ht.ids_cases h hk with ⟨rfl, rfl⟩ | ⟨hne, hk⟩
    · rw [hnow]
      rcases hcame with hcame | ⟨i', rfl⟩
      · exact hcame
      · have := harrival (.disk i)
        simp [Event.arrival] at this
    · rw [ht.jobs k hne, hsince _ k (Or.inl hne), hb.disk i k hk]
  case cpu =>
    intro k hk hnew
    rcases ht.ids_cases h hk with ⟨rfl, rfl⟩ | ⟨hne, hk⟩
    · rw [hnow]
      rcases hcame with hcame | ⟨i', rfl⟩
      · exact hcame
      · exact absurd rfl (hnew (s.simTime, .returnedFrom i' n.val) (by rw [hevents]; simp) i')
    · rw [ht.jobs k hne, hsince _ k (Or.inl hne), hb.cpu k hk (hnew.of_events hevents)]

/-! ### Moves -/

/-- The moves that keep the books in order: no job is terminated, the CPU sends a job to a disk only
in the tick in which it came to the CPU, and only a new job is swapped. -/
def Accounted (s : State) : Move → Prop
  | .kill _ => False
  | .send j _ => (s.account .cpu).since j = s.simTime
  | .swap _ _ k => s.New k
  | _ => True

theorem Books.draw (hb : Books s) (j : ℕ) : Books (drawCpuBurst env j s) := by
  refine hb.congr (l := []) rfl (fun dev k _ => ?_) (fun dev => rfl) (fun dev => rfl)
    (List.append_nil _).symm (by simp)
  by_cases hk : k = j <;> simp [drawCpuBurst, myrandom, hk]

theorem Books.serve (hb : Books s) (dev : Dev) (j : ℕ) : Books (s.decBurst dev j) := by
  refine hb.congr (l := []) rfl (fun dev k _ => ?_) (fun dev => rfl) (fun dev => rfl)
    (List.append_nil _).symm (by simp)
  by_cases hk : k = j <;> simp [hk]

theorem Books.finish (hb : Books s) (j : ℕ) : Books (s.finished j) :=
  { hb.serve .cpu j with }

/-- A job in a device has come before now. -/
theorem Inv.sizeSub_arrivalTime {dev : Dev} {n : Node ℕ} {rest : List (Node ℕ)} (h : Inv env.Serves s)
    (hq : (s.devices dev).queue = n :: rest) :
    sizeSub s.simTime (s.jobs n.val).arrivalTime = s.simTime - (s.jobs n.val).arrivalTime := by
  have hclock := h.clock
  exact sizeSub_of_le ((h.device dev).arrival_le n (by rw [hq]; exact List.mem_cons_self))
    (by omega)

/-- **A return from a disk keeps the books.** -/
theorem Books.back {i : Fin 2} {n : Node ℕ} {rest : List (Node ℕ)} (hb : Books s) (h : Inv env.Serves s)
    (hq : (s.devices (.disk i)).queue = n :: rest)
    (hcur : (s.devices (.disk i)).currentJob = some n.val) :
    Books ((s.leave (.disk i) n.val rest).pushEnd i n.val) := by
  refine hb.transfer (e := .returnedFrom i n.val) h (h.transfer_back hq hcur) (by simp)
    (fun dev => rfl) (fun dev => rfl) ?_ (Or.inr ⟨i, rfl⟩)
  rw [← hb.disk i n.val (mem_ids_of_cons hq), ← h.sizeSub_arrivalTime hq]
  simp

theorem Books.arrive {j : ℕ} (hb : Books s) (h : Inv env.Serves s) (hj : s.upcomingJob = some j) :
    Books ((arriveAtCPU j s).setUpcoming none) := by
  have hevents : ((arriveAtCPU j s).setUpcoming none).events =
      s.events ++ [(s.simTime, .arrivedAt .cpu j)] := by simp [arriveAtCPU]
  have hcpu : (((arriveAtCPU j s).setUpcoming none).account .cpu) =
      ⟨Function.update (s.account .cpu).since j s.simTime, (s.account .cpu).visits⟩ :=
    State.account_snoc hevents
  have hdisk : ∀ i, ((arriveAtCPU j s).setUpcoming none).account (.disk i) = s.account (.disk i) :=
    fun i => State.account_snoc hevents
  have hids : ∀ dev, ∀ k ∈ s.ids dev, k ≠ j := fun dev k hk => (h.ne_of_upcoming hj hk).symm
  have hjobs : ∀ k, k ≠ j → ((arriveAtCPU j s).setUpcoming none).jobs k = s.jobs k := fun k hk => by
    simp [arriveAtCPU, hk]
  constructor
  case count =>
    intro dev
    cases dev with
    | cpu => rw [hcpu, ← hb.count]; simp [arriveAtCPU]
    | disk i => rw [hdisk, ← hb.count]; simp [arriveAtCPU]
  case sum =>
    intro dev
    cases dev with
    | cpu =>
      have hsum := hb.sum .cpu
      rw [Account.total] at hsum
      rw [hcpu, Account.total, ← hsum]
      simp [arriveAtCPU]
    | disk i => rw [hdisk, ← hb.sum]; simp [arriveAtCPU]
  case disk =>
    intro i k hk
    have hk : k ∈ s.ids (.disk i) := by simpa [State.ids, arriveAtCPU] using hk
    rw [hjobs k (hids _ k hk), hdisk, hb.disk i k hk]
  case cpu =>
    intro k hk hnew
    have hk : k ∈ (pushQueue (s.devices .cpu).queue j (toInt s.simTime)).map Node.val := by
      simpa [State.ids, arriveAtCPU] using hk
    rw [hcpu]
    rcases List.mem_cons.1 ((map_val_pushQueue_perm _ _ _).mem_iff.1 hk) with rfl | hk
    · simp [arriveAtCPU]
    · rw [hjobs k (hids .cpu k hk), hb.cpu k hk (hnew.of_events hevents)]
      exact (Function.update_of_ne (hids .cpu k hk) _ _).symm

/-- **A move keeps the books** if it is one of the good ones. -/
theorem Books.step {m : Move} (hb : Books s) (h : Inv env.Serves s) (hstep : Step env s m t)
    (hacc : Accounted s m) : Books t := by
  have hevents := hstep.events
  cases hstep with
  | clock => exact ⟨hb.count, hb.sum, hb.disk, hb.cpu⟩
  | generate =>
    refine hb.congr rfl (fun dev k hk => ?_) (fun dev => rfl) (fun dev => rfl) hevents
      (by simp [Move.log])
    have hne : k ≠ s.jobCount := (h.settled.known_of_mem (i := .device dev) hk).ne
    simp [generateJob, myrandom, hne]
  | arrive hj _ => exact hb.arrive h hj
  | @back i n rest hq hcur _ _ =>
    exact (hb.draw n.val).back (h.reserve (reserve_drawCpuBurst env hcur)) hq hcur
  | @swap i n m rest cpuRest hq hcur _ hcpu hwait _ =>
    have hdraw := h.reserve (reserve_drawCpuBurst env hcur)
    have hmem : m.val ∈ s.ids .cpu := mem_ids_of_cons hcpu
    have htransfer := hdraw.transfer_swap env i hcpu hwait
    -- a new job has its arrival at the CPU recorded, which `hacc` says of the job of the CPU
    have hbooks : Books (arriveAtDisk env m.val i
        ((drawCpuBurst env n.val s).leave .cpu m.val cpuRest)) := by
      refine (hb.draw n.val).transfer (e := .arrivedAt (.disk i) m.val) hdraw htransfer
        (by simp [arriveAtDisk, myrandom]) (fun dev => by simp [Event.arrival, eq_comm])
        (fun dev => rfl) ?_ (Or.inl (by simp [arriveAtDisk, myrandom]))
      rw [← (hb.draw n.val).cpu m.val hmem hacc, ← hdraw.sizeSub_arrivalTime hcpu]
      simp [arriveAtDisk, myrandom]
    have hinv := hdraw.transfer htransfer fun hserves => arriveAtDisk_burst hserves m.val _
    have hdev := h.swapping_disk env hq m.val cpuRest
    exact hbooks.back hinv (by rw [hdev]) (by rw [hdev, hcur])
  | fetch =>
    refine hb.congr (funext fun dev => ?_) (fun dev k _ => rfl) (fun dev => ?_) (fun dev => ?_)
      hevents (by simp [Move.log, Event.arrival, Event.departure]) <;>
      cases dev <;> simp [State.ids, cpuEnter]
  | work => exact hb.serve _ _
  | @send i n rest hq hcur hfin _ _ =>
    have hinv := h.reserve (reserve_finished hcur hfin.1)
    have hnow : ((s.finished n.val).account .cpu).since n.val = s.simTime := hacc
    refine (hb.finish n.val).transfer (e := .arrivedAt (.disk i) n.val) hinv
      (hinv.transfer_send env i hq hcur) hevents (fun dev => by simp [Event.arrival, eq_comm])
      (fun dev => rfl) ?_ (Or.inl (by simp [arriveAtDisk, myrandom]))
    -- the arrival at the disk has set the arrival time to now
    have hzero : sizeSub s.simTime s.simTime = 0 := by
      rw [sizeSub_of_le le_rfl (by have := h.clock; omega), Nat.sub_self]
    rw [hnow]
    simp [arriveAtDisk, myrandom, State.finished, hzero]
  | keep => exact hb.finish _
  | kill => exact hacc.elim
  | @enter i n rest _ _ _ =>
    refine hb.congr (funext fun dev => ?_) (fun dev k _ => rfl) (fun dev => ?_) (fun dev => ?_)
      hevents (by simp [Move.log, Event.arrival, Event.departure]) <;>
      by_cases hdev : dev = .disk i <;> simp [State.ids, diskEnter, hdev]
  | serve => exact hb.serve _ _
  | record => exact ⟨hb.count, hb.sum, hb.disk, hb.cpu⟩

/-! ### No overflow -/

/-- The visits that end with some events. -/
theorem exists_foldl_visits (dev : Dev) (l : List (ℕ × Event)) (a : Account) :
    ∃ new, (l.foldl (Account.step dev) a).visits = a.visits ++ new ∧
      (∀ v ∈ new, ∃ e ∈ l, v.2 = e.1) ∧
      new.length = (l.filterMap fun e => e.2.departure dev).length := by
  induction l generalizing a with
  | nil => exact ⟨[], (List.append_nil _).symm, fun v hv => absurd hv List.not_mem_nil, rfl⟩
  | cons e l ih =>
    obtain ⟨new, hvisits, hmem, hlen⟩ := ih (a.step dev e)
    have hrest : ∀ v ∈ new, ∃ e' ∈ e :: l, v.2 = e'.1 := fun v hv => by
      obtain ⟨e', he', heq⟩ := hmem v hv
      exact ⟨e', List.mem_cons_of_mem _ he', heq⟩
    rw [List.foldl_cons, hvisits]
    cases hdeparture : e.2.departure dev with
    | none => exact ⟨new, by simp [Account.step, hdeparture], hrest, by simp [hdeparture, hlen]⟩
    | some j =>
      refine ⟨(a.since j, e.1) :: new, by simp [Account.step, hdeparture], fun v hv => ?_,
        by simp [hdeparture, hlen]⟩
      rcases List.mem_cons.1 hv with rfl | hv
      · exact ⟨e, List.mem_cons_self, rfl⟩
      · exact hrest v hv

/-- How many jobs leave a device with a move, as the log has it in every state. -/
def Move.departures (dev : Dev) (m : Move) : ℕ :=
  ((m.log init).filterMap fun e => e.departure dev).length

theorem Move.log_departures (m : Move) (s : State) (dev : Dev) :
    ((m.log s).filterMap fun e => e.departure dev).length = m.departures dev := by
  cases m <;> rfl

/-- Each disk can give back a job, and the CPU can send one away or terminate it. -/
theorem priced_departures (dev : Dev) :
    Priced (Move.departures dev) (fun _ => 1) 1 (fun _ => 0) where
  clock := rfl
  generate := rfl
  arrive j := by cases dev <;> rfl
  back i j := List.length_filterMap_le _ _
  swap i j k := by
    cases dev with
    | cpu => simp [Move.departures, Move.log, Event.departure]
    | disk i' => by_cases hi : i' = i <;> simp [Move.departures, Move.log, Event.departure, hi]
  fetch j := rfl
  compute m hm := by
    rcases hm with ⟨j, rfl | ⟨i, rfl⟩ | rfl | rfl⟩
    · exact Nat.zero_le _
    · exact List.length_filterMap_le _ _
    · exact Nat.zero_le _
    · exact List.length_filterMap_le _ _
  enter i j := rfl
  serve i j := le_rfl
  record := rfl

/-- The visits that end with a move. -/
theorem Step.exists_visits {m : Move} (hstep : Step env s m t) (dev : Dev) : ∃ new,
    (t.account dev).visits = (s.account dev).visits ++ new ∧ (∀ v ∈ new, v.2 = s.simTime) ∧
      new.length = m.departures dev := by
  obtain ⟨new, hvisits, hmem, hlen⟩ := exists_foldl_visits dev
    ((m.log s).map (Prod.mk s.simTime)) (s.account dev)
  refine ⟨new, by rw [State.account_of_events hstep.events, hvisits], fun v hv => ?_, ?_⟩
  · obtain ⟨e, he, heq⟩ := hmem v hv
    obtain ⟨e', -, rfl⟩ := List.mem_map.1 he
    exact heq
  · rw [hlen, List.filterMap_map]
    exact m.log_departures s dev

theorem Step.visits_length {m : Move} (hstep : Step env s m t) (dev : Dev) :
    (t.account dev).visits.length = (s.account dev).visits.length + m.departures dev := by
  obtain ⟨new, hvisits, -, hlen⟩ := hstep.exists_visits dev
  rw [hvisits, List.length_append, hlen]

/-- At most three jobs leave a device in a tick. -/
theorem Inv.tick_visits (h : Inv env.Serves s) (hclock : s.simTime + 1 < 2 ^ 31)
    (ht : tick env s = some t) (dev : Dev) :
    (t.account dev).visits.length ≤ (s.account dev).visits.length + 3 := by
  obtain ⟨ms, hrun, -, hcost⟩ := h.run_of_tick hclock ht
  have hvisits := hrun.le_add_sum (f := fun u => (u.account dev).visits.length)
    fun u m v hstep => (hstep.visits_length dev).le
  exact hvisits.trans (Nat.add_le_add_left (hcost _ _ _ _ (priced_departures dev)) _)

theorem ticks_visits (hserves : ∀ i, env.Serves (.disk i)) (hfin : env.conf.finTime < 2 ^ 31) {n : ℕ}
    (hn : n ≤ env.conf.finTime) (hs : ticks env n = some s) (dev : Dev) :
    (s.account dev).visits.length ≤ 3 * n := by
  induction n generalizing s with
  | zero =>
    obtain rfl : init = s := Option.some.inj hs
    exact le_rfl
  | succ n ih =>
    obtain ⟨u, -, hu, -, hinv, htime⟩ := ticks_run hserves hfin (by omega : n ≤ env.conf.finTime)
    have htick : tick env u = some s := by
      rw [ticks, hu] at hs
      exact hs
    have hle := hinv.tick_visits (by omega) htick dev
    have := ih (by omega) hu
    omega

/-- No visit ends later than now. -/
theorem visits_le_simTime {ms : List Move} (hrun : Run (Step env) init ms s) (dev : Dev) :
    ∀ v ∈ (s.account dev).visits, v.2 ≤ s.simTime := by
  refine hrun.invariant (P := fun u => ∀ v ∈ (u.account dev).visits, v.2 ≤ u.simTime)
    (fun u m w hu hstep v hv => ?_) fun v hv => absurd hv List.not_mem_nil
  obtain ⟨new, hvisits, hnew, -⟩ := hstep.exists_visits dev
  rw [hvisits] at hv
  rcases List.mem_append.1 hv with hv | hv
  · exact (hu v hv).trans hstep.simTime_le
  · exact (hnew v hv).le.trans hstep.simTime_le

theorem Account.total_le {a : Account} {n : ℕ} (h : ∀ v ∈ a.visits, v.2 ≤ n) :
    a.total ≤ a.visits.length * n := by
  have hsum := List.sum_le_card_nsmul (a.visits.map fun v => v.2 - v.1) n fun d hd => by
    obtain ⟨v, hv, rfl⟩ := List.mem_map.1 hd
    exact (Nat.sub_le _ _).trans (h v hv)
  simpa [Account.total] using hsum

/-! ### Runs -/

theorem books_init : Books init := by
  constructor <;> intros <;> rfl

/-- **Response-time accounting.** At the end of every tick of a run of good moves, `responseCount`
is the number of visits that are over, and `responseTimeSum` the sum of their response times. -/
theorem ticks_account (hconf : env.conf.Positive) (hrand : env.InRange) {n : ℕ}
    (hn : n ≤ env.conf.finTime) {ms : List Move} (hs : ticks env n = some s)
    (hrun : Run (fun u m v => Step env u m v ∧ Accounted u m) init ms s) :
    ∀ dev, (s.devices dev).telemetry.responseCount = (s.account dev).visits.length ∧
      (s.devices dev).telemetry.responseTimeSum = (s.account dev).total := by
  intro dev
  have hserves : ∀ i, env.Serves (.disk i) := fun i => hrand.serves hconf (.disk i)
  have hbooks := (hrun.invariant (P := fun u => Inv env.Serves u ∧ Books u)
    (fun u m v hu hstep => ⟨hu.1.step hstep.1, hu.2.step hu.1 hstep.1 hstep.2⟩)
    ⟨inv_init env.Serves, books_init⟩).2
  obtain ⟨s', -, hs', -, -, htime⟩ := ticks_run hserves hconf.finTime hn
  obtain rfl : s' = s := Option.some.inj (hs'.symm.trans hs)
  have hfin := hconf.finTime
  have hlen := ticks_visits hserves hfin hn hs dev
  have htotal := Account.total_le (visits_le_simTime (hrun.mono fun _ _ _ h => h.1) dev)
  have hbound : (s'.account dev).visits.length * s'.simTime ≤ 3 * 2 ^ 31 * 2 ^ 31 :=
    Nat.mul_le_mul (by omega) (by omega)
  rw [hbooks.count, hbooks.sum, Nat.mod_eq_of_lt (by omega), Nat.mod_eq_of_lt (by omega)]
  exact ⟨rfl, rfl⟩

/-- A service on the CPU takes one unit of time, and one on a disk takes two. -/
def confBrief : Conf where
  finTime := 100
  arriveMin := 1
  arriveMax := 5
  quitProb := 0
  cpuMin := 1
  cpuMax := 1
  disk1Min := 2
  disk1Max := 2
  disk2Min := 2
  disk2Max := 2

theorem confBrief_positive : confBrief.Positive := by
  constructor <;> decide

/-- Job `0` arrives in the first tick, and the next one later; whoever has finished, goes to a disk. -/
def briefRandom (k : ℕ) : ℕ := if k = 0 then 0 else 4

/-- Job `0` goes to disk 1 in tick 1, comes back in tick 3, and goes there again. -/
theorem brief_run : ∃ s, ticks (Env.ofRandom confBrief briefRandom) 3 = some s ∧
    Run (fun u m v => Step (Env.ofRandom confBrief briefRandom) u m v ∧ Accounted u m) init
      [.clock, .generate, .arrive 0, .fetch 0, .send 0 0, .enter 0 0, .serve 0 0, .record,
        .clock, .generate, .serve 0 0, .record,
        .clock, .back 0 0, .fetch 0, .send 0 0, .enter 0 0, .serve 0 0, .record] s := by
  refine ⟨_, ?_, .cons ⟨.clock (by decide), trivial⟩ (.cons ⟨.generate rfl, trivial⟩
    (.cons ⟨.arrive rfl (by decide), trivial⟩
    (.cons ⟨.fetch (n := ⟨0, toInt 1⟩) rfl rfl, trivial⟩
    (.cons ⟨.send (n := ⟨0, toInt 1⟩) rfl rfl ⟨by decide +kernel, by decide +kernel⟩
      (by decide +kernel) (by decide +kernel), rfl⟩
    (.cons ⟨.enter (n := ⟨0, toInt 1⟩) rfl rfl (by decide +kernel), trivial⟩
    (.cons ⟨.serve rfl (by decide +kernel), trivial⟩ (.cons ⟨.record, trivial⟩
    (.cons ⟨.clock (by decide +kernel), trivial⟩ (.cons ⟨.generate rfl, trivial⟩
    (.cons ⟨.serve rfl (by decide +kernel), trivial⟩ (.cons ⟨.record, trivial⟩
    (.cons ⟨.clock (by decide +kernel), trivial⟩
    (.cons ⟨.back (n := ⟨0, toInt 1⟩) rfl rfl (by decide +kernel) (by decide +kernel), trivial⟩
    (.cons ⟨.fetch (n := ⟨0, 0⟩) rfl rfl, trivial⟩
    (.cons ⟨.send (n := ⟨0, 0⟩) rfl rfl ⟨by decide +kernel, by decide +kernel⟩
      (by decide +kernel) (by decide +kernel), rfl⟩
    (.cons ⟨.enter (n := ⟨0, toInt 3⟩) rfl rfl (by decide +kernel), trivial⟩
    (.cons ⟨.serve rfl (by decide +kernel), trivial⟩
      (.cons ⟨.record, trivial⟩ (.nil _)))))))))))))))))))⟩
  rfl

theorem ticks_account_brief : ∃ s, ticks (Env.ofRandom confBrief briefRandom) 3 = some s ∧
    ∀ dev, (s.devices dev).telemetry.responseCount = (s.account dev).visits.length ∧
      (s.devices dev).telemetry.responseTimeSum = (s.account dev).total := by
  obtain ⟨s, hs, hrun⟩ := brief_run
  exact ⟨s, hs, ticks_account confBrief_positive (Env.ofRandom_inRange confBrief briefRandom)
    (by decide : 3 ≤ 100) hs hrun⟩

/-- **Wrong response times.** In the first run job `0` is on the CPU from tick 1 to tick 2 and goes
to a disk then: the recorded sum is `0`.  In the second one it is terminated in tick 1, and is not
counted. -/
theorem response_times_wrong : confTxt.Positive ∧ confTxt.disk1Min = confTxt.disk2Min ∧
    confTxt.disk1Max = confTxt.disk2Max ∧
    (∃ s, ticks (Env.ofRandom confTxt fun k => if k = 0 then 0 else if k = 1 then 1 else 100) 2 =
        some s ∧
      (s.devices .cpu).telemetry.responseTimeSum = 0 ∧ (s.account .cpu).visits = [(1, 2)] ∧
      (s.devices .cpu).telemetry.responseTimeSum ≠ (s.account .cpu).total) ∧
    ∃ s, ticks (Env.ofRandom confTxt fun _ => 0) 1 = some s ∧
      (s.devices .cpu).telemetry.responseCount = 0 ∧ (s.account .cpu).visits = [(1, 1)] ∧
      (s.devices .cpu).telemetry.responseCount ≠ (s.account .cpu).visits.length := by
  have hsend : ((ticks (Env.ofRandom confTxt fun k =>
      if k = 0 then 0 else if k = 1 then 1 else 100) 2).map fun s =>
      ((s.devices .cpu).telemetry.responseTimeSum, (s.account .cpu).visits)) =
      some (0, [(1, 2)]) := by
    decide +kernel
  have hkill : ((ticks (Env.ofRandom confTxt fun _ => 0) 1).map fun s =>
      ((s.devices .cpu).telemetry.responseCount, (s.account .cpu).visits)) =
      some (0, [(1, 1)]) := by
    decide +kernel
  obtain ⟨s, hs, heq⟩ := Option.map_eq_some_iff.1 hsend
  obtain ⟨t, ht, heq'⟩ := Option.map_eq_some_iff.1 hkill
  obtain ⟨hsum, hvisits⟩ := Prod.mk.inj heq
  obtain ⟨hcount, hvisits'⟩ := Prod.mk.inj heq'
  refine ⟨confTxt_positive, rfl, rfl, ⟨s, hs, hsum, hvisits, ?_⟩, t, ht, hcount, hvisits', ?_⟩
  · rw [hsum, Account.total, hvisits]
    decide
  · rw [hcount, hvisits']
    decide

end Simulation
