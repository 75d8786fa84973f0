import SysProg.Lib.Sojourn
import SysProg.Simulation.Capacity
import SysProg.Simulation.Network

/-!
# The statistics

`recordCommonStats` looks at each device once in a tick, after everything else.  Its sums are areas:
`queueSum` is the time that jobs have spent in the queue, and `busyTime` the time that they have spent
as the current job, up to now.

* `State.services`: what the log says about the times as the current job;
* `Tracks`: a part of the network whose keys come and leave with the events of two kinds;
* `Metered`: the sums of a device, before and after the record of the tick;
* `ticks_littles_law`: Little's law for each device;
* `ticks_statistics`: how the statistics of a device compare to each other.
-/

namespace Simulation

open CInt Tokens Runs Sojourn

variable {env : Env} {s t : State}

/-! ### Times as the current job -/

/-- The job that becomes the current one of the device. -/
def Event.entry (dev : Dev) : Event → Option ℕ
  | .entered d j _ => if d = dev then some j else none
  | _ => none

/-- One more event, where `come` and `go` are the jobs that come and leave with it. -/
def Account.after (come go : Event → Option ℕ) (a : Account) (e : ℕ × Event) : Account where
  since := match come e.2 with
    | some j => Function.update a.since j e.1
    | none => a.since
  visits := match go e.2 with
    | some j => a.visits ++ [(a.since j, e.1)]
    | none => a.visits

/-- The account of the log, where `come` and `go` are the jobs that come and leave with an event. -/
def State.ledger (s : State) (come go : Event → Option ℕ) : Account :=
  s.events.foldl (Account.after come go) ⟨fun _ => 0, []⟩

theorem State.account_eq (s : State) (dev : Dev) :
    s.account dev = s.ledger (Event.arrival dev) (Event.departure dev) := rfl

/-- The services of a device in the log: from the entry of a job to its departure. -/
def State.services (s : State) (dev : Dev) : Account :=
  s.ledger (Event.entry dev) (Event.departure dev)

/-! ### What the events do -/

/-- The part `present` of the network gains a job when one comes, and loses it when it goes. -/
structure Tracks (come go : Event → Option ℕ) (present : Network → Multiset ℕ) : Prop where
  comes : ∀ {N N' : Network} {e : Event} {j : ℕ}, N.Ok → Network.Step N e N' → come e = some j →
    go e = none ∧ j ∉ present N ∧ present N' = j ::ₘ present N
  goes : ∀ {N N' : Network} {e : Event} {j : ℕ}, N.Ok → Network.Step N e N' → go e = some j →
    come e = none ∧ present N = j ::ₘ present N'
  stays : ∀ {N N' : Network} {e : Event}, N.Ok → Network.Step N e N' → come e = none →
    go e = none → present N' = present N

/-- The time that the visits of an account have taken, with the jobs that are still there. -/
def Account.area (a : Account) (now : ℕ) (present : Multiset ℕ) : ℕ :=
  Sojourn.area now a.since a.visits present

section Tracks

variable {come go : Event → Option ℕ} {present : Network → Multiset ℕ} {N N' : Network} {now : ℕ}
  {a : Account}

/-- **Events take no time.** -/
theorem Tracks.step {e : Event} (htracks : Tracks come go present) (h : N.Ok)
    (hstep : Network.Step N e N') (hle : ∀ j ∈ present N, a.since j ≤ now) :
    (a.after come go (now, e)).area now (present N') = a.area now (present N) ∧
      ∀ j ∈ present N', (a.after come go (now, e)).since j ≤ now := by
  cases hcome : come e with
  | some j =>
    obtain ⟨hgo, hj, hpresent⟩ := htracks.comes h hstep hcome
    have hafter : a.after come go (now, e) = ⟨Function.update a.since j now, a.visits⟩ := by
      simp [Account.after, hcome, hgo]
    have hne : ∀ k ∈ present N, Function.update a.since j now k = a.since k := fun k hk =>
      Function.update_of_ne (fun heq : k = j => hj (heq ▸ hk)) _ _
    rw [hafter, hpresent]
    refine ⟨area_come (Function.update_self _ _ _) hne, fun k hk => ?_⟩
    rcases Multiset.mem_cons.1 hk with rfl | hk
    · exact (Function.update_self _ _ _).le
    · exact (hne k hk).trans_le (hle k hk)
  | none =>
    cases hgo : go e with
    | some j =>
      obtain ⟨-, hpresent⟩ := htracks.goes h hstep hgo
      have hafter : a.after come go (now, e) = ⟨a.since, a.visits ++ [(a.since j, now)]⟩ := by
        simp [Account.after, hcome, hgo]
      rw [hafter, hpresent]
      exact ⟨area_go, fun k hk => hle k (by rw [hpresent]; exact Multiset.mem_cons_of_mem hk)⟩
    | none =>
      have hafter : a.after come go (now, e) = a := by simp [Account.after, hcome, hgo]
      rw [hafter, htracks.stays h hstep hcome hgo]
      exact ⟨rfl, hle⟩

theorem Tracks.run {es : List Event} (htracks : Tracks come go present) (h : N.Ok)
    (hrun : Run Network.Step N es N') (hle : ∀ j ∈ present N, a.since j ≤ now) :
    ((es.map (Prod.mk now)).foldl (Account.after come go) a).area now (present N') =
        a.area now (present N) ∧
      ∀ j ∈ present N', ((es.map (Prod.mk now)).foldl (Account.after come go) a).since j ≤ now := by
  induction hrun generalizing a with
  | nil N => exact ⟨rfl, hle⟩
  | cons hstep _ ih =>
    obtain ⟨harea, hle'⟩ := htracks.step h hstep hle
    obtain ⟨harea', hle''⟩ := ih (h.step hstep) hle'
    exact ⟨harea'.trans harea, hle''⟩

end Tracks

section Parts

variable {N N' : Network} {dev dev' : Dev} {j : ℕ} {e : Event}

theorem Network.Ok.members_eq (h : N.Ok) (hj : N.current dev = some j) :
    N.members dev = j ::ₘ (N.leave dev j).members dev := by
  simp [Network.leave, Multiset.cons_erase (h.current_mem dev j hj)]

/-- A job does not come to the device that it leaves. -/
theorem Event.departure_of_arrival (h : e.arrival dev = some j) : e.departure dev = none := by
  cases e with
  | entered => simp [Event.arrival] at h
  | arrivedAt d _ =>
    cases d <;> cases dev <;> simp_all [Event.arrival, Event.departure]
  | returnedFrom i _ =>
    cases dev <;> simp_all [Event.arrival, Event.departure]
  | terminated => simp [Event.arrival] at h

/-- The queue of a device. -/
theorem tracks_members (dev : Dev) :
    Tracks (Event.arrival dev) (Event.departure dev) fun N => N.members dev where
  comes := by
    intro N N' e j h hstep hcome
    refine ⟨Event.departure_of_arrival hcome, ?_⟩
    cases hstep with
    | @arrive k hnew =>
      obtain ⟨rfl, rfl⟩ : .cpu = dev ∧ k = j := by simpa [Event.arrival] using hcome
      exact ⟨fun hmem => hnew (h.known _ _ hmem), by simp [Network.join]⟩
    | enter => simp [Event.arrival] at hcome
    | @send i k hcur =>
      obtain ⟨rfl, rfl⟩ : .disk i = dev ∧ k = j := by simpa [Event.arrival] using hcome
      have hne : k ∉ N.members (.disk i) := fun hmem => Dev.noConfusion
        (h.unique k _ _ hmem (h.current_mem _ _ hcur))
      exact ⟨hne, by simp [Network.join, Network.leave]⟩
    | @back i k hcur =>
      obtain ⟨rfl, rfl⟩ : dev = .cpu ∧ k = j := by simpa [Event.arrival] using hcome
      have hne : k ∉ N.members .cpu := fun hmem => Dev.noConfusion
        (h.unique k _ _ hmem (h.current_mem _ _ hcur))
      exact ⟨hne, by simp [Network.join, Network.leave]⟩
    | terminate => simp [Event.arrival] at hcome
  goes := by
    intro N N' e j h hstep hgo
    have hcome : e.arrival dev = none := by
      by_contra hne
      obtain ⟨k, hk⟩ := Option.ne_none_iff_exists'.1 hne
      rw [Event.departure_of_arrival hk] at hgo
      exact absurd hgo (by simp)
    refine ⟨hcome, ?_⟩
    cases hstep with
    | arrive => simp [Event.departure] at hgo
    | enter => simp [Event.departure] at hgo
    | @send i k hcur =>
      obtain ⟨rfl, rfl⟩ : dev = .cpu ∧ k = j := by simpa [Event.departure] using hgo
      simpa [Network.join] using h.members_eq hcur
    | @back i k hcur =>
      obtain ⟨rfl, rfl⟩ : dev = .disk i ∧ k = j := by simpa [Event.departure] using hgo
      simpa [Network.join] using h.members_eq hcur
    | @terminate k hcur =>
      obtain ⟨rfl, rfl⟩ : dev = .cpu ∧ k = j := by simpa [Event.departure] using hgo
      exact h.members_eq hcur
  stays := by
    intro N N' e h hstep hcome hgo
    cases hstep with
    | arrive =>
      have hdev : dev ≠ .cpu := fun heq => by simp [Event.arrival, heq] at hcome
      simp [Network.join, hdev]
    | enter => rfl
    | @send i k hcur =>
      have hdisk : dev ≠ .disk i := fun heq => by simp [Event.arrival, heq] at hcome
      have hcpu : dev ≠ .cpu := fun heq => by simp [Event.departure, heq] at hgo
      simp [Network.join, Network.leave, hdisk, hcpu]
    | @back i k hcur =>
      have hcpu : dev ≠ .cpu := fun heq => by simp [Event.arrival, heq] at hcome
      have hdisk : dev ≠ .disk i := fun heq => by simp [Event.departure, heq] at hgo
      simp [Network.join, Network.leave, hdisk, hcpu]
    | terminate =>
      have hcpu : dev ≠ .cpu := fun heq => by simp [Event.departure, heq] at hgo
      simp [Network.leave, hcpu]

/-- The current job of a device. -/
theorem tracks_current (dev : Dev) :
    Tracks (Event.entry dev) (Event.departure dev) fun N => (N.current dev).toList where
  comes := by
    intro N N' e j h hstep hcome
    cases hstep with
    | @enter d k _ hidle _ =>
      obtain ⟨rfl, rfl⟩ : d = dev ∧ k = j := by simpa [Event.entry] using hcome
      simp [Event.departure, Network.enter, hidle]
    | _ => simp [Event.entry] at hcome
  goes := by
    intro N N' e j h hstep hgo
    cases hstep with
    | arrive => simp [Event.departure] at hgo
    | enter => simp [Event.departure] at hgo
    | @send i k hcur =>
      obtain ⟨rfl, rfl⟩ : dev = .cpu ∧ k = j := by simpa [Event.departure] using hgo
      simp [Event.entry, Network.join, Network.leave, hcur]
    | @back i k hcur =>
      obtain ⟨rfl, rfl⟩ : dev = .disk i ∧ k = j := by simpa [Event.departure] using hgo
      simp [Event.entry, Network.join, Network.leave, hcur]
    | @terminate k hcur =>
      obtain ⟨rfl, rfl⟩ : dev = .cpu ∧ k = j := by simpa [Event.departure] using hgo
      simp [Event.entry, Network.leave, hcur]
  stays := by
    intro N N' e h hstep hcome hgo
    cases hstep with
    | arrive => rfl
    | @enter d _ _ _ _ =>
      have hdev : dev ≠ d := fun heq => by simp [Event.entry, heq] at hcome
      simp [Network.enter, hdev]
    | send =>
      have hcpu : dev ≠ .cpu := fun heq => by simp [Event.departure, heq] at hgo
      simp [Network.join, Network.leave, hcpu]
    | @back i _ _ =>
      have hdisk : dev ≠ .disk i := fun heq => by simp [Event.departure, heq] at hgo
      simp [Network.join, Network.leave, hdisk]
    | terminate =>
      have hcpu : dev ≠ .cpu := fun heq => by simp [Event.departure, heq] at hgo
      simp [Network.leave, hcpu]

end Parts

/-! ### The meters -/

/-- The record of the tick comes last. -/
theorem Inv.record_of_tick (h : Inv env.Serves s) (hclock : s.simTime + 1 < 2 ^ 31)
    (ht : tick env s = some t) : ∃ ms u, Run (Step env) s.clocked ms u ∧
      (∀ m ∈ ms, m ≠ .clock ∧ m ≠ .record) ∧ t = recordCommonStats u := by
  obtain ⟨_, u, v, -, hfirst, hcompute, rfl⟩ := h.phases_of_tick hclock ht
  obtain ⟨ms, hrun, hkinds⟩ := (hfirst.append (.cons hcompute (diskCompute_phases v))).run
  refine ⟨ms, _, hrun, fun m hm => ?_, rfl⟩
  have hkind := hkinds m hm
  constructor <;> rintro rfl <;>
    simp [firstPhases, Generating, Arriving, Checking, Fetching, Computing, Entering,
      Serving] at hkind

/-- The counters that only `recordCommonStats` writes. -/
def Telemetry.meters (t : Telemetry) : ℕ × ℕ × ℕ := (t.totalTime, t.busyTime, t.queueSum)

theorem Step.meters {m : Move} (hstep : Step env s m t) (hm : m ≠ .record) (dev : Dev) :
    (t.devices dev).telemetry.meters = (s.devices dev).telemetry.meters := by
  cases hstep with
  | record => exact absurd rfl hm
  | clock => rfl
  | generate => rfl
  | arrive => cases dev <;> simp [arriveAtCPU]
  | @back i =>
    cases dev with
    | cpu => simp [drawCpuBurst, myrandom]
    | disk i' =>
      by_cases hi : i' = i <;>
        simp [drawCpuBurst, myrandom, updateResponseTime, Telemetry.meters, hi]
  | @swap i =>
    cases dev with
    | cpu =>
      simp [State.swapped, arriveAtDisk, drawCpuBurst, myrandom, updateResponseTime,
        Telemetry.meters]
    | disk i' =>
      by_cases hi : i' = i <;>
        simp [State.swapped, arriveAtDisk, drawCpuBurst, myrandom, updateResponseTime,
          Telemetry.meters, hi]
  | fetch => cases dev <;> simp [cpuEnter]
  | work => rfl
  | @send i =>
    cases dev with
    | cpu => simp [arriveAtDisk, myrandom, updateResponseTime, State.finished, Telemetry.meters]
    | disk i' => by_cases hi : i' = i <;> simp [arriveAtDisk, myrandom, State.finished, hi]
  | keep => rfl
  | kill => cases dev <;> simp [State.finished]
  | @enter i => by_cases hdev : dev = .disk i <;> simp [diskEnter, hdev]
  | serve => rfl

theorem meters_of_run {ms : List Move} (hrun : Run (Step env) s ms t) (hms : ∀ m ∈ ms, m ≠ .record)
    (dev : Dev) : (t.devices dev).telemetry.meters = (s.devices dev).telemetry.meters :=
  hrun.invariant_of_kind (fun u => (u.devices dev).telemetry.meters =
    (s.devices dev).telemetry.meters) (· ≠ .record)
    (fun _ _ _ hm hu hstep => (hstep.meters hm dev).trans hu) rfl hms

theorem maxQueueSize_of_run {ms : List Move} (hrun : Run (Step env) s ms t)
    (hms : ∀ m ∈ ms, m ≠ .record) (dev : Dev) :
    (t.devices dev).telemetry.maxQueueSize = (s.devices dev).telemetry.maxQueueSize :=
  hrun.invariant_of_kind (fun u => (u.devices dev).telemetry.maxQueueSize =
    (s.devices dev).telemetry.maxQueueSize) (· ≠ .record)
    (fun _ _ _ hm hu hstep => (hstep.maxQueueSize hm dev).trans hu) rfl hms

/-- The moves of one unit of time are a run of the network, whose labels go to the log. -/
theorem Inv.network_of_run {ms : List Move} (h : Inv env.Serves s) (hrun : Run (Step env) s ms t)
    (hms : .clock ∉ ms) : ∃ es, t.events = s.events ++ es.map (Prod.mk s.simTime) ∧
      Run Network.Step s.network es t.network := by
  induction hrun with
  | nil s => exact ⟨[], (List.append_nil _).symm, .nil _⟩
  | @cons s u t m ms hstep _ ih =>
    rw [List.mem_cons, not_or] at hms
    obtain ⟨es, hevents, hnet⟩ := ih (h.step hstep) hms.2
    refine ⟨m.log s ++ es, ?_, (hstep.network h).append hnet⟩
    rw [hevents, hstep.events, hstep.simTime (Ne.symm hms.1), List.map_append, List.append_assoc]

/-- What has been added up about a part of the network, at the end of a tick. -/
structure Metered (come go : Event → Option ℕ) (present : Network → Multiset ℕ) (sum : ℕ)
    (s : State) : Prop where
  since_le : ∀ j ∈ present s.network, (s.ledger come go).since j ≤ s.simTime
  sum_eq : sum = (s.ledger come go).area (s.simTime + 1) (present s.network)

/-- **The step of the meters.** With each tick, the number of jobs that are present in the end is
added. -/
theorem Metered.tick {come go : Event → Option ℕ} {present : Network → Multiset ℕ} {sum : ℕ}
    (htracks : Tracks come go present) (hm : Metered come go present sum s) (h : Inv env.Serves s)
    (hok : s.network.Ok) (hclock : s.simTime + 1 < 2 ^ 31) (ht : Simulation.tick env s = some t) :
    Metered come go present (sum + (present t.network).card) t := by
  obtain ⟨ms, u, hrun, hms, rfl⟩ := h.record_of_tick hclock ht
  obtain ⟨es, hevents, hnet⟩ := (h.clocked hclock).network_of_run hrun fun hmem => (hms _ hmem).1 rfl
  have htime : u.simTime = s.simTime + 1 := simTime_of_run hrun fun hmem => (hms _ hmem).1 rfl
  have hledger : (recordCommonStats u).ledger come go =
      (es.map (Prod.mk (s.simTime + 1))).foldl (Account.after come go) (s.ledger come go) := by
    rw [State.ledger, State.ledger, show (recordCommonStats u).events = _ from hevents,
      List.foldl_append]
    rfl
  have hsame : (recordCommonStats u).network = u.network := rfl
  have hsince : ∀ j ∈ present s.network, (s.ledger come go).since j ≤ s.simTime + 1 := fun j hj =>
    (hm.since_le j hj).trans (Nat.le_succ _)
  obtain ⟨harea, hle⟩ := htracks.run hok hnet hsince
  rw [← hledger] at harea hle
  constructor
  · rw [hsame, show (recordCommonStats u).simTime = u.simTime from rfl, htime]
    exact hle
  · rw [hsame, show (recordCommonStats u).simTime = u.simTime from rfl, htime, Account.area,
      area_succ hle, hm.sum_eq]
    exact congrArg (· + _) harea.symm

/-! ### The counters -/

/-- The counters of a device at the end of a tick. -/
structure Counted (dev : Dev) (s : State) : Prop where
  totalTime : (s.devices dev).telemetry.totalTime = s.simTime
  queue : Metered (Event.arrival dev) (Event.departure dev) (fun N => N.members dev)
    (s.devices dev).telemetry.queueSum s
  busy : Metered (Event.entry dev) (Event.departure dev) (fun N => (N.current dev).toList)
    (s.devices dev).telemetry.busyTime s
  busyTime_le : (s.devices dev).telemetry.busyTime ≤ s.simTime
  busyTime_le_queueSum : (s.devices dev).telemetry.busyTime ≤ (s.devices dev).telemetry.queueSum
  queueSum_le : (s.devices dev).telemetry.queueSum ≤
    (s.devices dev).telemetry.maxQueueSize * s.simTime

theorem counted_init (dev : Dev) : Counted dev init := by
  constructor
  case queue => constructor <;> simp [init, State.network, State.ids, Account.area, State.ledger]
  case busy => constructor <;> simp [init, State.network, Account.area, State.ledger]
  all_goals simp [init]

theorem sizeAdd_of_lt {a b : ℕ} (h : a + b < 2 ^ 64) : sizeAdd a b = a + b := Nat.mod_eq_of_lt h

/-- The current job is in the queue. -/
theorem Network.Ok.card_current_le {N : Network} (h : N.Ok) (dev : Dev) :
    (N.current dev).toList.length ≤ (N.members dev).card := by
  cases hcur : N.current dev with
  | none => exact Nat.zero_le _
  | some j => exact Multiset.card_pos_iff_exists_mem.2 ⟨j, h.current_mem dev j hcur⟩

/-- **One tick.** -/
theorem Counted.tick {dev : Dev} (hc : Counted dev s) (h : Inv env.Serves s) (hok : s.network.Ok)
    (hrecorded : Recorded s) (hok' : t.network.Ok) (hshort : Short t)
    (hclock : s.simTime + 1 < 2 ^ 31) (ht : Simulation.tick env s = some t) : Counted dev t := by
  have hqueue := hc.queue.tick (tracks_members dev) h hok hclock ht
  have hbusy := hc.busy.tick (tracks_current dev) h hok hclock ht
  have hcurrent := hok'.card_current_le dev
  have htime := h.simTime_of_tick hclock ht
  obtain ⟨ms, u, hrun, hms, rfl⟩ := h.record_of_tick hclock ht
  have hmeters : (u.devices dev).telemetry.meters = (s.devices dev).telemetry.meters :=
    meters_of_run hrun (fun m hm => (hms m hm).2) dev
  have hmax : (u.devices dev).telemetry.maxQueueSize = (s.devices dev).telemetry.maxQueueSize :=
    maxQueueSize_of_run hrun (fun m hm => (hms m hm).2) dev
  obtain ⟨htotal, hbusyTime, hqueueSum⟩ : (u.devices dev).telemetry.totalTime = s.simTime ∧
      (u.devices dev).telemetry.busyTime = (s.devices dev).telemetry.busyTime ∧
      (u.devices dev).telemetry.queueSum = (s.devices dev).telemetry.queueSum := by
    simpa [Telemetry.meters, hc.totalTime] using hmeters
  -- nothing wraps around
  have hlen : (u.devices dev).queue.length ≤ 4 :=
    (hshort dev).trans (by cases dev <;> simp [queueSize])
  have hq : (s.devices dev).telemetry.queueSum ≤ 4 * 2 ^ 31 :=
    hc.queueSum_le.trans (Nat.mul_le_mul
      ((hrecorded dev).trans (by cases dev <;> simp [queueSize])) (by omega))
  have hone : (u.devices dev).currentJob.toList.length ≤ 1 := Option.length_toList_le
  have hb := hc.busyTime_le
  set card := (u.devices dev).queue.length with hcard
  set one := (u.devices dev).currentJob.toList.length with hone_def
  have htotal' : ((recordCommonStats u).devices dev).telemetry.totalTime = s.simTime + 1 := by
    show sizeAdd (u.devices dev).telemetry.totalTime 1 = _
    rw [htotal, sizeAdd_of_lt (by omega)]
  have hqueue' : ((recordCommonStats u).devices dev).telemetry.queueSum =
      (s.devices dev).telemetry.queueSum + card := by
    show sizeAdd (u.devices dev).telemetry.queueSum card = _
    rw [hqueueSum, sizeAdd_of_lt (by omega)]
  have hbusy' : ((recordCommonStats u).devices dev).telemetry.busyTime =
      (s.devices dev).telemetry.busyTime + one := by
    show (if (u.devices dev).currentJob ≠ none then sizeAdd (u.devices dev).telemetry.busyTime 1
      else (u.devices dev).telemetry.busyTime) = _
    rw [hbusyTime, hone_def]
    cases (u.devices dev).currentJob with
    | none => rfl
    | some j => exact sizeAdd_of_lt (by omega)
  have hmax' : ((recordCommonStats u).devices dev).telemetry.maxQueueSize =
      max card (s.devices dev).telemetry.maxQueueSize := by
    show (if card > (u.devices dev).telemetry.maxQueueSize then card
      else (u.devices dev).telemetry.maxQueueSize) = _
    rw [hmax]
    split_ifs <;> omega
  have hcard' : (((recordCommonStats u).network.members dev)).card = card := by
    simp [State.network, State.ids, hcard]
    rfl
  have hone' : ((recordCommonStats u).network.current dev).toList.length = one := rfl
  rw [hone', hcard'] at hcurrent
  constructor
  case totalTime => rw [htotal', htime]
  case queue => rw [hqueue', ← hcard']; exact hqueue
  case busy => rw [hbusy']; exact hbusy
  case busyTime_le => rw [hbusy', htime]; omega
  case busyTime_le_queueSum =>
    have := hc.busyTime_le_queueSum
    rw [hbusy', hqueue']
    omega
  case queueSum_le =>
    rw [hqueue', hmax', htime, Nat.mul_succ]
    exact Nat.add_le_add (hc.queueSum_le.trans (Nat.mul_le_mul_right _ (le_max_right _ _)))
      (le_max_left _ _)

/-! ### Response times -/

/-- The part of the telemetry that `updateResponseTime` writes. -/
def Telemetry.responses (t : Telemetry) : ℕ × ℕ × ℕ :=
  (t.maxResponseTime, t.responseTimeSum, t.responseCount)

/-- A response time that has passed, or none, is recorded for a device. -/
def Responds (s t : State) (m : Move) (dev : Dev) : Prop :=
  (t.devices dev).telemetry.responses = (s.devices dev).telemetry.responses ∨
    m.departures dev = 1 ∧ ∃ time ≤ s.simTime, (t.devices dev).telemetry.responses =
      (updateResponseTime time (s.devices dev).telemetry).responses

/-- **A move records one response time** for a device, if any. -/
theorem Inv.responds {m : Move} (h : Inv env.Serves s) (hstep : Step env s m t) (dev : Dev) :
    Responds s t m dev := by
  have hle : ∀ (n : Node ℕ) (rest : List (Node ℕ)) (d : Dev), (s.devices d).queue = n :: rest →
      sizeSub s.simTime (s.jobs n.val).arrivalTime ≤ s.simTime := fun n rest d hq => by
    rw [h.sizeSub_arrivalTime hq]
    exact Nat.sub_le _ _
  cases hstep with
  | clock => exact Or.inl rfl
  | generate => exact Or.inl rfl
  | arrive => left; cases dev <;> simp [arriveAtCPU]
  | @back i n rest hq hcur _ _ =>
    by_cases hdev : dev = .disk i
    · subst hdev
      have hone : (Move.back i n.val).departures (.disk i) = 1 := by
        simp [Move.departures, Move.log, Event.departure]
      exact Or.inr ⟨hone, _, hle n rest _ hq, by simp [drawCpuBurst, myrandom]⟩
    · left; cases dev <;> simp_all [drawCpuBurst, myrandom]
  | @swap i n m rest cpuRest hq hcur _ hcpu _ _ =>
    have hne : n.val ≠ m.val :=
      h.ne_of_mem (d := .cpu) Dev.noConfusion (mem_ids_of_cons hcpu) (mem_ids_of_cons hq)
    by_cases hdev : dev = .disk i
    · subst hdev
      have hone : (Move.swap i n.val m.val).departures (.disk i) = 1 := by
        simp [Move.departures, Move.log, Event.departure]
      exact Or.inr ⟨hone, _, hle n rest _ hq, by
        simp [State.swapped, arriveAtDisk, drawCpuBurst, myrandom, hne]⟩
    · cases dev with
      | cpu =>
        exact Or.inr ⟨rfl, _, hle m cpuRest _ hcpu, by
          simp [State.swapped, arriveAtDisk, drawCpuBurst, myrandom, hne.symm]⟩
      | disk k =>
        left
        have hk : k ≠ i := fun heq => hdev (heq ▸ rfl)
        simp [State.swapped, arriveAtDisk, drawCpuBurst, myrandom, hk]
  | fetch => left; cases dev <;> simp [cpuEnter]
  | work => exact Or.inl rfl
  | @send i n rest hq hcur hfin _ _ =>
    cases dev with
    | cpu =>
      have hzero : sizeSub s.simTime s.simTime ≤ s.simTime := by
        rw [sizeSub_of_le le_rfl (by have := h.clock; omega), Nat.sub_self]
        exact Nat.zero_le _
      exact Or.inr ⟨rfl, _, hzero, by simp [arriveAtDisk, myrandom, State.finished]⟩
    | disk k =>
      left
      by_cases hk : k = i <;> simp [arriveAtDisk, myrandom, State.finished, hk]
  | keep => exact Or.inl rfl
  | kill => left; cases dev <;> simp [State.finished]
  | @enter i => left; by_cases hdev : dev = .disk i <;> simp [diskEnter, hdev]
  | serve => exact Or.inl rfl
  | record => exact Or.inl rfl

/-- How the response times of a device compare, after `c` departures. -/
structure Responsive (c : ℕ) (dev : Dev) (s : State) : Prop where
  count_le : (s.devices dev).telemetry.responseCount ≤ c
  max_le : (s.devices dev).telemetry.maxResponseTime ≤ s.simTime
  sum_le : c < 2 ^ 64 → (s.devices dev).telemetry.responseTimeSum ≤
    (s.devices dev).telemetry.maxResponseTime * (s.devices dev).telemetry.responseCount

theorem Responsive.step {c : ℕ} {dev : Dev} {m : Move} (hr : Responsive c dev s) (h : Inv env.Serves s)
    (hstep : Step env s m t) : Responsive (c + m.departures dev) dev t := by
  have htime := hstep.simTime_le
  have hcount := hr.count_le
  have hmax := hr.max_le
  rcases h.responds hstep dev with hsame | ⟨hone, time, hle, hnew⟩
  · obtain ⟨hmax', hsum', hcount'⟩ : _ ∧ _ ∧ _ := by
      simpa [Telemetry.responses] using hsame
    refine ⟨?_, ?_, fun hc => ?_⟩
    · rw [hcount']
      omega
    · rw [hmax']
      omega
    · rw [hmax', hsum', hcount']
      exact hr.sum_le (by omega)
  · obtain ⟨hmax', hsum', hcount'⟩ : _ ∧ _ ∧ _ := by
      simpa [Telemetry.responses, updateResponseTime] using hnew
    have hcount_le : sizeAdd (s.devices dev).telemetry.responseCount 1 ≤
        (s.devices dev).telemetry.responseCount + 1 := Nat.mod_le _ _
    refine ⟨?_, ?_, fun hc => ?_⟩
    · rw [hcount']
      omega
    · rw [hmax']
      split_ifs <;> omega
    · have hsucc : sizeAdd (s.devices dev).telemetry.responseCount 1 =
          (s.devices dev).telemetry.responseCount + 1 := sizeAdd_of_lt (by omega)
      have hsum := hr.sum_le (by omega)
      rw [hmax', hsum', hcount', hsucc, Nat.mul_succ]
      refine (Nat.mod_le _ _).trans ?_
      split_ifs with hgt
      · exact Nat.add_le_add (hsum.trans (Nat.mul_le_mul_right _ hgt.le)) le_rfl
      · exact Nat.add_le_add hsum (not_lt.1 hgt)

theorem Responsive.mono {c c' : ℕ} {dev : Dev} (hr : Responsive c dev s) (hle : c ≤ c') :
    Responsive c' dev s :=
  ⟨hr.count_le.trans hle, hr.max_le, fun hc => hr.sum_le (hle.trans_lt hc)⟩

theorem Responsive.run {c : ℕ} {dev : Dev} {ms : List Move} (hr : Responsive c dev s)
    (h : Inv env.Serves s) (hrun : Run (Step env) s ms t) :
    Responsive (c + (ms.map (Move.departures dev)).sum) dev t := by
  induction hrun generalizing c with
  | nil s => exact hr
  | @cons s u t m ms hstep _ ih =>
    rw [List.map_cons, List.sum_cons, ← Nat.add_assoc]
    exact ih (hr.step h hstep) (h.step hstep)

/-! ### Runs -/

/-- The books of all devices at the end of the tick `n`. -/
theorem ticks_counted {n : ℕ} (hn : n < 2 ^ 31) (hs : ticks env n = some s) :
    (∀ dev, Counted dev s) ∧ (∀ dev, Responsive (3 * n) dev s) ∧ Recorded s ∧ s.simTime = n := by
  induction n generalizing s with
  | zero =>
    obtain rfl : init = s := Option.some.inj hs
    refine ⟨counted_init, fun dev => ?_, fun dev => Nat.zero_le _, rfl⟩
    constructor <;> simp [init]
  | succ n ih =>
    have hlast := run_of_ticks hn hs
    obtain ⟨u, hu, ht⟩ := Option.bind_eq_some_iff.1 hs
    obtain ⟨hcounted, hresponsive, hrecorded, htime⟩ := ih (by omega) hu
    obtain ⟨ms, hrun, -⟩ := run_of_ticks (by omega) hu
    obtain ⟨ms', hrun', htime'⟩ := hlast
    have hinv := (inv_init env.Serves).run hrun
    have hclock : u.simTime + 1 < 2 ^ 31 := by omega
    have hfinal := hrun'.invariant (P := fun v => Short v ∧ Recorded v)
      (fun _ _ _ hv hstep => ⟨hv.1.step hstep, hv.2.step hv.1 hstep⟩)
      ⟨fun dev => Nat.zero_le _, fun dev => Nat.zero_le _⟩
    refine ⟨fun dev => ?_, fun dev => ?_, hfinal.2, htime'⟩
    · exact (hcounted dev).tick hinv (network_ok hrun) hrecorded (network_ok hrun') hfinal.1 hclock ht
    · obtain ⟨ls, hls, -, hcost⟩ := hinv.run_of_tick hclock ht
      have hsum := hcost _ _ _ _ (priced_departures dev)
      exact ((hresponsive dev).run hinv hls).mono (Nat.add_le_add_left hsum _)

/-- **Little's law.** At the end of every tick, for each device: `queueSum` is the time that jobs have
spent in its queue, added up over the visits that are over and the jobs that are still there, and
`busyTime` the time that they have spent as the current job. -/
theorem ticks_littles_law {n : ℕ} (hn : n < 2 ^ 31) (hs : ticks env n = some s) (dev : Dev) :
    (s.devices dev).telemetry.totalTime = n ∧
      (s.devices dev).telemetry.queueSum = (s.account dev).area (n + 1) (s.ids dev) ∧
      (s.devices dev).telemetry.busyTime =
        (s.services dev).area (n + 1) (s.devices dev).currentJob.toList := by
  obtain ⟨hcounted, -, -, rfl⟩ := ticks_counted hn hs
  rw [State.account_eq]
  exact ⟨(hcounted dev).totalTime, (hcounted dev).queue.sum_eq, (hcounted dev).busy.sum_eq⟩

theorem ticks_littles_law_confTxt : ∃ s, ticks (Env.ofRandom confTxt id) 100000 = some s ∧
    (s.devices .cpu).telemetry.totalTime = 100000 ∧
      (s.devices .cpu).telemetry.queueSum = (s.account .cpu).area 100001 (s.ids .cpu) ∧
      (s.devices .cpu).telemetry.busyTime =
        (s.services .cpu).area 100001 (s.devices .cpu).currentJob.toList := by
  obtain ⟨s, hs⟩ := ticks_confTxt
  exact ⟨s, hs, ticks_littles_law (by norm_num) hs .cpu⟩

/-- **The statistics of a device**, as `finalizeStats` divides them: the utilization is at most `1` and
at most the average queue size, this is at most `maxQueueSize`, and that at most the size of the
queue; the average response time is at most `maxResponseTime`, and that at most the time. -/
theorem ticks_statistics {n : ℕ} (hn : n < 2 ^ 31) (hs : ticks env n = some s) (dev : Dev) :
    (s.devices dev).telemetry.busyTime ≤ (s.devices dev).telemetry.totalTime ∧
      (s.devices dev).telemetry.busyTime ≤ (s.devices dev).telemetry.queueSum ∧
      (s.devices dev).telemetry.queueSum ≤
        (s.devices dev).telemetry.maxQueueSize * (s.devices dev).telemetry.totalTime ∧
      (s.devices dev).telemetry.maxQueueSize ≤ queueSize dev ∧
      (s.devices dev).telemetry.responseTimeSum ≤
        (s.devices dev).telemetry.maxResponseTime * (s.devices dev).telemetry.responseCount ∧
      (s.devices dev).telemetry.maxResponseTime ≤ (s.devices dev).telemetry.totalTime := by
  obtain ⟨hcounted, hresponsive, hrecorded, rfl⟩ := ticks_counted hn hs
  have hc := hcounted dev
  have hr := hresponsive dev
  rw [hc.totalTime]
  exact ⟨hc.busyTime_le, hc.busyTime_le_queueSum, hc.queueSum_le, hrecorded dev,
    hr.sum_le (by omega), hr.max_le⟩

theorem ticks_statistics_confTxt : ∃ s, ticks (Env.ofRandom confTxt id) 100000 = some s ∧
    (s.devices .cpu).telemetry.busyTime ≤ (s.devices .cpu).telemetry.totalTime ∧
      (s.devices .cpu).telemetry.busyTime ≤ (s.devices .cpu).telemetry.queueSum ∧
      (s.devices .cpu).telemetry.queueSum ≤
        (s.devices .cpu).telemetry.maxQueueSize * (s.devices .cpu).telemetry.totalTime ∧
      (s.devices .cpu).telemetry.maxQueueSize ≤ queueSize .cpu ∧
      (s.devices .cpu).telemetry.responseTimeSum ≤
        (s.devices .cpu).telemetry.maxResponseTime * (s.devices .cpu).telemetry.responseCount ∧
      (s.devices .cpu).telemetry.maxResponseTime ≤ (s.devices .cpu).telemetry.totalTime := by
  obtain ⟨s, hs⟩ := ticks_confTxt
  exact ⟨s, hs, ticks_statistics (by norm_num) hs .cpu⟩

end Simulation
