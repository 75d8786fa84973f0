import Mathlib.Data.Multiset.AddSub
import SysProg.Simulation.Accounting

/-!
# The queueing network

What the simulation is a simulation of: jobs wait at a CPU and at two disks, and each device serves
one job at a time.  The network knows nothing of service times, of priorities and of the order in a
queue; its steps are the events that the log records.

* `Network.Step`: one event;
* `Step.network`: each move of the simulation is a run of the network, whose labels are the events
  that the move logs;
* `Stage`: the life of one job in the log; `ticks_lives`: the log of every run of the simulation
  tells a complete life of each job, and where it stands agrees with the queues.
-/

namespace Simulation

open CInt Tokens Runs

variable {env : Env} {s t : State}

/-! ### The network -/

/-- The jobs that have come, the jobs at each device, and the job that each device serves. -/
@[ext] structure Network where
  known : Set ℕ
  members : Dev → Multiset ℕ
  current : Dev → Option ℕ

namespace Network

/-- The network before the first job. -/
def start : Network := ⟨∅, fun _ => 0, fun _ => none⟩

/-- The job that the device serves leaves it. -/
def leave (N : Network) (dev : Dev) (j : ℕ) : Network where
  known := N.known
  members := Function.update N.members dev ((N.members dev).erase j)
  current := Function.update N.current dev none

/-- A job joins the queue of a device. -/
def join (N : Network) (dev : Dev) (j : ℕ) : Network where
  known := N.known
  members := Function.update N.members dev (j ::ₘ N.members dev)
  current := N.current

/-- A device begins to serve a job. -/
def enter (N : Network) (dev : Dev) (j : ℕ) : Network where
  known := N.known
  members := N.members
  current := Function.update N.current dev (some j)

/-- One event. A job goes to a disk from the CPU, and comes back to it from there. -/
inductive Step : Network → Event → Network → Prop
  | arrive {N : Network} {j : ℕ} : j ∉ N.known →
      Step N (.arrivedAt .cpu j) { N.join .cpu j with known := insert j N.known }
  | enter {N : Network} {dev : Dev} {j burst : ℕ} : N.current dev = none → j ∈ N.members dev →
      Step N (.entered dev j burst) (N.enter dev j)
  | send {N : Network} {i : Fin 2} {j : ℕ} : N.current .cpu = some j →
      Step N (.arrivedAt (.disk i) j) ((N.leave .cpu j).join (.disk i) j)
  | back {N : Network} {i : Fin 2} {j : ℕ} : N.current (.disk i) = some j →
      Step N (.returnedFrom i j) ((N.leave (.disk i) j).join .cpu j)
  | terminate {N : Network} {j : ℕ} : N.current .cpu = some j →
      Step N (.terminated j) (N.leave .cpu j)

/-- A job is at one device at most, and each device serves one of the jobs there. -/
structure Ok (N : Network) : Prop where
  nodup : ∀ dev, (N.members dev).Nodup
  unique : ∀ j dev dev', j ∈ N.members dev → j ∈ N.members dev' → dev = dev'
  known : ∀ dev, ∀ j ∈ N.members dev, j ∈ N.known
  current_mem : ∀ dev j, N.current dev = some j → j ∈ N.members dev

theorem ok_start : start.Ok := by
  constructor <;> simp [start]

section Ok

variable {N N' : Network} {dev dev' : Dev} {j k : ℕ}

theorem mem_members_leave (h : N.Ok) (hj : N.current dev = some j) :
    k ∈ (N.leave dev j).members dev' ↔ k ∈ N.members dev' ∧ k ≠ j := by
  have hmem := h.current_mem dev j hj
  by_cases hdev : dev' = dev
  · subst hdev
    simp [leave, (h.nodup dev').mem_erase_iff, and_comm]
  · have hne : k ∈ N.members dev' → k ≠ j := fun hk heq =>
      hdev (h.unique j dev' dev (heq ▸ hk) hmem)
    simpa [leave, hdev] using hne

theorem mem_members_join :
    k ∈ (N.join dev j).members dev' ↔ (k = j ∧ dev' = dev) ∨ k ∈ N.members dev' := by
  by_cases hdev : dev' = dev
  · subst hdev
    simp [join]
  · simp [join, hdev]

theorem Ok.leave (h : N.Ok) (hj : N.current dev = some j) : (N.leave dev j).Ok where
  nodup dev' := by
    by_cases hdev : dev' = dev
    · subst hdev
      simpa [Network.leave] using (h.nodup dev').erase j
    · simpa [Network.leave, hdev] using h.nodup dev'
  unique k d d' hk hk' := h.unique k d d' ((mem_members_leave h hj).1 hk).1
    ((mem_members_leave h hj).1 hk').1
  known d k hk := h.known d k ((mem_members_leave h hj).1 hk).1
  current_mem d k hk := by
    by_cases hdev : d = dev
    · subst hdev
      simp [Network.leave] at hk
    · have hk : N.current d = some k := by simpa [Network.leave, hdev] using hk
      refine (mem_members_leave h hj).2 ⟨h.current_mem d k hk, fun heq => hdev ?_⟩
      exact h.unique j d dev (heq ▸ h.current_mem d k hk) (h.current_mem dev j hj)

/-- A job that is nowhere joins a queue. -/
theorem Ok.join (h : N.Ok) (hj : ∀ dev', j ∉ N.members dev') {known : Set ℕ}
    (hknown : ∀ k, k = j ∨ k ∈ N.known → k ∈ known) :
    ({ N.join dev j with known := known } : Network).Ok where
  nodup dev' := by
    by_cases hdev : dev' = dev
    · subst hdev
      simpa [Network.join] using ⟨hj dev', h.nodup dev'⟩
    · simpa [Network.join, hdev] using h.nodup dev'
  unique k d d' hk hk' := by
    rcases mem_members_join.1 hk with ⟨rfl, rfl⟩ | hk
    · rcases mem_members_join.1 hk' with ⟨-, rfl⟩ | hk'
      · rfl
      · exact absurd hk' (hj d')
    · rcases mem_members_join.1 hk' with ⟨heq, -⟩ | hk'
      · exact absurd (heq ▸ hk) (hj d)
      · exact h.unique k d d' hk hk'
  known d k hk := by
    rcases mem_members_join.1 hk with ⟨rfl, -⟩ | hk
    · exact hknown k (Or.inl rfl)
    · exact hknown k (Or.inr (h.known d k hk))
  current_mem d k hk := mem_members_join.2 (Or.inr (h.current_mem d k hk))

theorem Ok.not_mem_leave (h : N.Ok) (hj : N.current dev = some j) :
    ∀ dev', j ∉ (N.leave dev j).members dev' := fun _ hmem =>
  ((mem_members_leave h hj).1 hmem).2 rfl

/-- A job goes from one device to another. -/
theorem Ok.transfer (h : N.Ok) (hj : N.current dev = some j) :
    ((N.leave dev j).join dev' j).Ok := by
  have hknown := h.known dev j (h.current_mem dev j hj)
  exact (h.leave hj).join (h.not_mem_leave hj) fun k hk => hk.elim (fun e => e ▸ hknown) id

/-- **Every event keeps the network well formed.** -/
theorem Ok.step {e : Event} (h : N.Ok) (hstep : Step N e N') : N'.Ok := by
  cases hstep with
  | arrive hnew =>
    exact h.join (fun dev hmem => hnew (h.known dev _ hmem)) fun k hk => hk
  | @enter dev j _ hidle hmem =>
    refine ⟨h.nodup, h.unique, h.known, fun d k hk => ?_⟩
    by_cases hdev : d = dev
    · subst hdev
      obtain rfl : j = k := by simpa [Network.enter] using hk
      exact hmem
    · exact h.current_mem d k (by simpa [Network.enter, hdev] using hk)
  | send hcur => exact h.transfer hcur
  | back hcur => exact h.transfer hcur
  | terminate hcur => exact h.leave hcur

end Ok

end Network

/-! ### The simulation is a network -/

/-- The network that a state of the simulation stands for. The upcoming job has not come yet. -/
def State.network (s : State) : Network where
  known := {j | j < s.jobCount ∧ s.upcomingJob ≠ some j}
  members dev := s.ids dev
  current dev := (s.devices dev).currentJob

theorem network_init : init.network = .start := by
  ext <;> simp [State.network, State.ids, init, Network.start]

/-- The network does not see the memory of the jobs, the clock and the counters. -/
theorem network_congr (hdevices : ∀ dev, (t.devices dev).queue = (s.devices dev).queue ∧
      (t.devices dev).currentJob = (s.devices dev).currentJob)
    (hcount : t.jobCount = s.jobCount) (hupcoming : t.upcomingJob = s.upcomingJob) :
    t.network = s.network := by
  have hids : t.ids = s.ids := funext fun dev => by rw [State.ids, State.ids, (hdevices dev).1]
  have hcurrent : ∀ dev, (t.devices dev).currentJob = (s.devices dev).currentJob := fun dev =>
    (hdevices dev).2
  simp only [State.network, hids, hcurrent, hcount, hupcoming]

section Moves

variable {a b dev : Dev} {n : Node ℕ} {rest q : List (Node ℕ)} {j : ℕ}

/-- A transfer is one job that leaves and joins. -/
theorem Transfer.network (ht : Transfer s t a b n rest q) :
    t.network = (s.network.leave a n.val).join b n.val := by
  obtain ⟨tel, hsource⟩ := ht.source
  have hne := ht.ne.symm
  ext dev : 2
  · simp only [State.network, Network.leave, Network.join, ht.jobCount, ht.upcomingJob]
  · by_cases ha : dev = a
    · subst ha
      simp [State.network, State.ids, Network.leave, Network.join, hsource, ht.queue, ht.ne]
    · by_cases hb : dev = b
      · subst hb
        have hperm := ht.inserted.perm_val
        simpa [State.network, State.ids, Network.leave, Network.join, ht.target, hne] using
          Multiset.coe_eq_coe.2 hperm
      · simp [State.network, State.ids, Network.leave, Network.join, ht.other dev ha hb, ha, hb]
  · by_cases ha : dev = a
    · subst ha
      simp [State.network, Network.leave, Network.join, hsource]
    · by_cases hb : dev = b
      · subst hb
        simp [State.network, Network.leave, Network.join, ht.target, ha]
      · simp [State.network, Network.leave, Network.join, ht.other dev ha hb, ha]

/-- Reserving a job for later is not seen. -/
theorem Reserve.network (ht : Reserve s t dev j) : t.network = s.network :=
  network_congr (fun dev' => by rw [ht.devices]; exact ⟨rfl, rfl⟩) ht.jobCount ht.upcomingJob

end Moves

/-- A move logs a job that enters a device. -/
theorem network_enter (s : State) (dev : Dev) (j : ℕ) :
    (s.enter dev j).network = s.network.enter dev j := by
  ext d : 2
  · rfl
  · by_cases hd : d = dev
    · subst hd
      simp [State.network, State.ids, Network.enter]
    · simp [State.network, State.ids, Network.enter, hd]
  · by_cases hd : d = dev
    · subst hd
      simp [State.network, Network.enter]
    · simp [State.network, Network.enter, hd]

theorem network_kill {n : Node ℕ} {rest : List (Node ℕ)} (hq : (s.devices .cpu).queue = n :: rest) :
    (s.kill n.val rest).network = s.network.leave .cpu n.val := by
  ext dev : 2
  · rfl
  · cases dev <;> simp [State.network, State.ids, Network.leave, hq]
  · cases dev <;> simp [State.network, Network.leave]

/-- The upcoming job comes to the CPU. -/
theorem Inv.network_arrive {j : ℕ} (h : Inv env.Serves s) (hj : s.upcomingJob = some j) :
    ((arriveAtCPU j s).setUpcoming none).network =
      { s.network.join .cpu j with known := insert j s.network.known } := by
  have hlt : j < s.jobCount :=
    h.settled.known_of_mem (i := .upcoming) (by simp [State.places, hj])
  ext k : 2
  · by_cases hk : k = j
    · simp [State.network, arriveAtCPU, hk, hlt]
    · simp [State.network, arriveAtCPU, hj, hk, Ne.symm hk]
  · cases k with
    | cpu =>
      have hperm := map_val_pushQueue_perm (s.devices .cpu).queue j (toInt s.simTime)
      simpa [State.network, State.ids, arriveAtCPU, Network.join] using
        Multiset.coe_eq_coe.2 hperm
    | disk i => simp [State.network, State.ids, arriveAtCPU, Network.join]
  · cases k <;> simp [State.network, arriveAtCPU, Network.join]

/-- **Each move of the simulation is a run of the network.** -/
theorem Step.network {m : Move} (h : Inv env.Serves s) (hstep : Step env s m t) :
    Run Network.Step s.network (m.log s) t.network := by
  cases hstep with
  | clock => exact .nil _
  | generate hnone =>
    have hsame : ((generateJob env s).2.setUpcoming (some s.jobCount)).network = s.network := by
      ext k : 2
      · simp [State.network, generateJob, myrandom, hnone]
        omega
      · rfl
      · rfl
    rw [hsame]
    exact .nil _
  | @arrive j hj _ =>
    rw [h.network_arrive hj]
    exact .cons (.arrive fun hmem => hmem.2 hj) (.nil _)
  | @back i n rest hq hcur _ _ =>
    have hdraw := reserve_drawCpuBurst env hcur
    have htransfer := (h.reserve hdraw).transfer_back hq hcur
    rw [htransfer.network, hdraw.network]
    exact .cons (.back hcur) (.nil _)
  | @swap i n m rest cpuRest hq hcur _ hcpu hwait _ =>
    have hdraw := reserve_drawCpuBurst env hcur
    have hinv := h.reserve hdraw
    have hmid := hinv.transfer_swap env i hcpu hwait
    have hafter := hinv.transfer hmid fun hserves => arriveAtDisk_burst hserves m.val _
    have hdev := h.swapping_disk env hq m.val cpuRest
    have hlast := hafter.transfer_back (i := i) (by rw [hdev]) (by rw [hdev, hcur])
    -- the job of the CPU goes to the disk while the disk still serves its own one
    rw [State.swapped, hlast.network, hmid.network, hdraw.network]
    refine .cons (.send hwait) (.cons (.back ?_) (.nil _))
    simpa [Network.leave, Network.join, State.network] using hcur
  | fetch hidle hq =>
    rw [cpuEnter, network_enter]
    exact .cons (.enter hidle (Multiset.mem_coe.2 (mem_ids_of_cons hq))) (.nil _)
  | work hcur hpos _ => rw [(reserve_decBurst hcur hpos).network]; exact .nil _
  | @send i n rest hq hcur hfin _ _ =>
    have hfinished := reserve_finished hcur hfin.1
    have htransfer := (h.reserve hfinished).transfer_send env i hq hcur
    rw [htransfer.network, hfinished.network]
    exact .cons (.send hcur) (.nil _)
  | keep hcur hfin _ _ => rw [(reserve_finished hcur hfin.1).network]; exact .nil _
  | @kill n rest hq hcur hfin _ =>
    rw [network_kill (s := s.finished n.val) hq, (reserve_finished hcur hfin.1).network]
    exact .cons (.terminate hcur) (.nil _)
  | enter hq hidle _ =>
    rw [diskEnter, network_enter]
    exact .cons (.enter hidle (Multiset.mem_coe.2 (mem_ids_of_cons hq))) (.nil _)
  | serve hcur hpos => rw [(reserve_decBurst hcur hpos).network]; exact .nil _
  | record => rw [network_congr (fun _ => ⟨rfl, rfl⟩) rfl rfl]; exact .nil _

/-- **The simulation is a network**: the log of a run is a run of the network. -/
theorem run_network {ms : List Move} (hrun : Run (Step env) init ms s) :
    Run Network.Step .start (s.events.map Prod.snd) s.network := by
  refine (hrun.invariant (P := fun u => Inv env.Serves u ∧
    Run Network.Step .start (u.events.map Prod.snd) u.network) (fun u m v hu hstep => ?_)
    ⟨inv_init env.Serves, network_init ▸ .nil _⟩).2
  refine ⟨hu.1.step hstep, ?_⟩
  have hlabels : v.events.map Prod.snd = u.events.map Prod.snd ++ m.log u := by
    simp [hstep.events]
  rw [hlabels]
  exact hu.2.append (hstep.network hu.1)

theorem network_ok {ms : List Move} (hrun : Run (Step env) init ms s) : s.network.Ok :=
  (run_network hrun).invariant (fun _ _ _ h hstep => h.step hstep) Network.ok_start

/-! ### The life of a job -/

/-- Where a job stands. -/
inductive Stage
  | absent
  | waiting (dev : Dev)
  | served (dev : Dev)
  | gone
  deriving DecidableEq, Repr

/-- The job that an event is about. -/
def Event.job : Event → ℕ
  | .entered _ j _ => j
  | .arrivedAt _ j => j
  | .returnedFrom _ j => j
  | .terminated j => j

/-- The next stage of a job at an event that is about it, if that is allowed. -/
def Stage.after : Stage → Event → Option Stage
  | .absent, .arrivedAt .cpu _ => some (.waiting .cpu)
  | .waiting dev, .entered d _ _ => if d = dev then some (.served dev) else none
  | .served .cpu, .arrivedAt (.disk i) _ => some (.waiting (.disk i))
  | .served .cpu, .terminated _ => some .gone
  | .served (.disk i), .returnedFrom k _ => if k = i then some (.waiting .cpu) else none
  | _, _ => none

/-- The next stage of the job `j` at any event. -/
def Stage.next (j : ℕ) (stage : Stage) (e : Event) : Option Stage :=
  if e.job = j then stage.after e else some stage

/-- The job `j` stands at a stage in the network. -/
def Network.Stands (N : Network) (j : ℕ) : Stage → Prop
  | .absent => j ∉ N.known
  | .waiting dev => j ∈ N.members dev ∧ N.current dev ≠ some j
  | .served dev => N.current dev = some j
  | .gone => j ∈ N.known ∧ ∀ dev, j ∉ N.members dev

section Life

variable {N N' : Network} {dev dev' : Dev} {j k : ℕ} {stage : Stage} {e : Event}

/-- A job stands at a device that serves it. -/
theorem Network.Stands.eq_served (h : N.Ok) (hs : N.Stands j stage) (hj : N.current dev = some j) :
    stage = .served dev := by
  have hmem := h.current_mem dev j hj
  cases stage with
  | absent => exact absurd (h.known dev j hmem) hs
  | waiting d =>
    obtain rfl := h.unique j d dev hs.1 hmem
    exact absurd hj hs.2
  | served d => rw [h.unique j d dev (h.current_mem d j hs) hmem]
  | gone => exact absurd hmem (hs.2 dev)

theorem Network.current_leave (hj : N.current dev = some j) (hk : k ≠ j) :
    (N.leave dev j).current dev' = some k ↔ N.current dev' = some k := by
  by_cases hdev : dev' = dev
  · subst hdev
    simp [leave, hj, hk.symm]
  · simp [leave, hdev]

/-- What happens to one job does not move another one. -/
theorem Network.Stands.leave (h : N.Ok) (hj : N.current dev = some j) (hk : k ≠ j)
    (hs : N.Stands k stage) : (N.leave dev j).Stands k stage := by
  cases stage with
  | absent => exact hs
  | waiting d =>
    exact ⟨(mem_members_leave h hj).2 ⟨hs.1, hk⟩, fun hcur => hs.2 ((current_leave hj hk).1 hcur)⟩
  | served d => exact (current_leave hj hk).2 hs
  | gone => exact ⟨hs.1, fun d hmem => hs.2 d ((mem_members_leave h hj).1 hmem).1⟩

theorem Network.Stands.join (hk : k ≠ j) {known : Set ℕ}
    (hknown : ∀ m, m ≠ j → (m ∈ known ↔ m ∈ N.known)) (hs : N.Stands k stage) :
    ({ N.join dev j with known := known } : Network).Stands k stage := by
  cases stage with
  | absent => exact fun hmem => hs ((hknown k hk).1 hmem)
  | waiting d => exact ⟨mem_members_join.2 (Or.inr hs.1), hs.2⟩
  | served d => exact hs
  | gone =>
    refine ⟨(hknown k hk).2 hs.1, fun d hmem => ?_⟩
    rcases mem_members_join.1 hmem with ⟨heq, -⟩ | hmem
    · exact hk heq
    · exact hs.2 d hmem

theorem Network.Stands.enter (hidle : N.current dev = none) (hk : k ≠ j) (hs : N.Stands k stage) :
    (N.enter dev j).Stands k stage := by
  have hcurrent : ∀ d, (N.enter dev j).current d = some k ↔ N.current d = some k := fun d => by
    by_cases hdev : d = dev
    · subst hdev
      simp [Network.enter, hidle, hk.symm]
    · simp [Network.enter, hdev]
  cases stage with
  | absent => exact hs
  | waiting d => exact ⟨hs.1, fun hcur => hs.2 ((hcurrent d).1 hcur)⟩
  | served d => exact (hcurrent d).2 hs
  | gone => exact hs

/-- A job that goes from one device to another waits there. -/
theorem Network.Ok.waiting (h : N.Ok) (hj : N.current dev = some j) :
    ((N.leave dev j).join dev' j).Stands j (.waiting dev') := by
  refine ⟨mem_members_join.2 (Or.inl ⟨rfl, rfl⟩), fun hcur => ?_⟩
  exact h.not_mem_leave hj dev' ((h.leave hj).current_mem dev' j hcur)

/-- **One event in the life of a job.** -/
theorem Network.Stands.step (h : N.Ok) (hs : N.Stands j stage) (hstep : Step N e N') :
    ∃ stage', stage.next j e = some stage' ∧ N'.Stands j stage' := by
  by_cases hjob : e.job = j
  · rw [Stage.next, if_pos hjob]
    cases hstep with
    | @arrive k hnew =>
      obtain rfl : k = j := hjob
      -- a new job is nowhere
      have hnowhere : ∀ d, N.current d ≠ some k := fun d hcur =>
        hnew (h.known d _ (h.current_mem d _ hcur))
      have hmem := fun d hmem => hnew (h.known d _ hmem)
      cases stage with
      | absent =>
        have hjoined : k ∈ (N.join .cpu k).members .cpu := mem_members_join.2 (Or.inl ⟨rfl, rfl⟩)
        exact ⟨.waiting .cpu, rfl, hjoined, hnowhere .cpu⟩
      | waiting d => exact absurd hs.1 (hmem d)
      | served d => exact absurd hs (hnowhere d)
      | gone => exact absurd hs.1 hnew
    | @enter dev k _ hidle hmem =>
      obtain rfl : k = j := hjob
      have hserved : (N.enter dev k).Stands k (.served dev) := Function.update_self dev _ _
      cases stage with
      | absent => exact absurd (h.known dev _ hmem) hs
      | waiting d =>
        obtain rfl := h.unique _ d dev hs.1 hmem
        exact ⟨.served d, if_pos rfl, hserved⟩
      | served d =>
        obtain rfl := h.unique _ d dev (h.current_mem d _ hs) hmem
        exact absurd (hidle.symm.trans hs) (by simp)
      | gone => exact absurd hmem (hs.2 dev)
    | @send i k hcur =>
      obtain rfl : k = j := hjob
      obtain rfl := hs.eq_served h hcur
      exact ⟨.waiting (.disk i), rfl, h.waiting hcur⟩
    | @back i k hcur =>
      obtain rfl : k = j := hjob
      obtain rfl := hs.eq_served h hcur
      exact ⟨.waiting .cpu, if_pos rfl, h.waiting hcur⟩
    | @terminate k hcur =>
      obtain rfl : k = j := hjob
      obtain rfl := hs.eq_served h hcur
      exact ⟨.gone, rfl, h.known _ _ (h.current_mem _ _ hcur), h.not_mem_leave hcur⟩
  · refine ⟨stage, if_neg hjob, ?_⟩
    have hne := Ne.symm hjob
    cases hstep with
    | @arrive k _ =>
      refine hs.join hne fun m hm => ?_
      have hm : m ≠ k := hm
      simp [hm]
    | enter hidle _ => exact hs.enter hidle hne
    | send hcur => exact (hs.leave h hcur hne).join hne fun m _ => Iff.rfl
    | back hcur => exact (hs.leave h hcur hne).join hne fun m _ => Iff.rfl
    | terminate hcur => exact hs.leave h hcur hne

/-- **The life of a job** in a run of the network. -/
theorem Network.Stands.run {es : List Event} (h : N.Ok) (hs : N.Stands j stage)
    (hrun : Run Step N es N') :
    ∃ stage', es.foldlM (Stage.next j) stage = some stage' ∧ N'.Stands j stage' := by
  induction hrun generalizing stage with
  | nil N => exact ⟨stage, rfl, hs⟩
  | cons hstep _ ih =>
    obtain ⟨mid, hmid, hs'⟩ := hs.step h hstep
    obtain ⟨last, hlast, hs''⟩ := ih (h.step hstep) hs'
    exact ⟨last, by rw [List.foldlM_cons, hmid]; exact hlast, hs''⟩

end Life

/-! ### The log of the simulation -/

/-- The log is in the order of time. -/
theorem run_log_sorted {ms : List Move} (hrun : Run (Step env) init ms s) :
    (s.events.map Prod.fst).Pairwise (· ≤ ·) ∧ ∀ e ∈ s.events, e.1 ≤ s.simTime := by
  refine hrun.invariant (P := fun u => (u.events.map Prod.fst).Pairwise (· ≤ ·) ∧
    ∀ e ∈ u.events, e.1 ≤ u.simTime) (fun u m v hu hstep => ?_) (by simp [init])
  obtain ⟨hsorted, hle⟩ := hu
  have htime : u.simTime ≤ v.simTime := hstep.simTime_le
  have hnew : ∀ e ∈ (m.log u).map (Prod.mk u.simTime), e.1 = u.simTime := fun e he => by
    obtain ⟨_, -, rfl⟩ := List.mem_map.1 he
    rfl
  rw [hstep.events]
  constructor
  · rw [List.map_append, List.pairwise_append]
    refine ⟨hsorted, ?_, fun a ha b hb => ?_⟩
    · refine List.pairwise_of_forall_mem_list fun a ha b hb => ?_
      obtain ⟨e, he, rfl⟩ := List.mem_map.1 ha
      obtain ⟨e', he', rfl⟩ := List.mem_map.1 hb
      rw [hnew e he, hnew e' he']
    · obtain ⟨e, he, rfl⟩ := List.mem_map.1 ha
      obtain ⟨e', he', rfl⟩ := List.mem_map.1 hb
      rw [hnew e' he']
      exact hle e he
  · intro e he
    rcases List.mem_append.1 he with he | he
    · exact (hle e he).trans htime
    · exact (hnew e he).le.trans htime

/-- **The log tells the lives of the jobs.** At the end of every tick the log is in the order of
time, the events of each job are a life: it comes to the CPU, enters it, goes to a disk, enters that,
returns to the CPU, and so on until it is terminated; and where its life has got to is where the
queues have it. -/
theorem ticks_lives {n : ℕ} (hn : n < 2 ^ 31) (hs : ticks env n = some s) :
    (s.events.map Prod.fst).Pairwise (· ≤ ·) ∧ ∀ j, ∃ stage,
      (s.events.map Prod.snd).foldlM (Stage.next j) .absent = some stage ∧
        s.network.Stands j stage := by
  obtain ⟨ms, hrun, -⟩ := run_of_ticks hn hs
  refine ⟨(run_log_sorted hrun).1, fun j => ?_⟩
  exact Network.Stands.run Network.ok_start (Set.notMem_empty j) (run_network hrun)

theorem ticks_confTxt : ∃ s, ticks (Env.ofRandom confTxt id) 100000 = some s := by
  have hrand := Env.ofRandom_inRange confTxt id
  obtain ⟨s, -, hs, -⟩ := ticks_run (fun i => hrand.serves confTxt_positive (.disk i))
    confTxt_positive.finTime (le_refl 100000)
  exact ⟨s, hs⟩

theorem ticks_lives_confTxt : ∃ s, ticks (Env.ofRandom confTxt id) 100000 = some s ∧
    (s.events.map Prod.fst).Pairwise (· ≤ ·) ∧ ∀ j, ∃ stage,
      (s.events.map Prod.snd).foldlM (Stage.next j) .absent = some stage ∧
        s.network.Stands j stage := by
  obtain ⟨s, hs⟩ := ticks_confTxt
  exact ⟨s, hs, ticks_lives (by norm_num) hs⟩

end Simulation
