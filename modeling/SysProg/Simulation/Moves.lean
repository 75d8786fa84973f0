import SysProg.Lib.Runs
import SysProg.Simulation.Invariant

/-!
# The moves that a tick is made of

A tick is a sequence of moves of one kind or another (`Step`): time passes, a job is generated or
arrives at the CPU, a job comes back from a disk, two jobs change places, a job enters a device, is
served there, goes to a disk, is left waiting or is terminated.

* `Step`: one move; a guard says when the code makes it;
* `Move.drawn`: the service times that a move draws;
* `Inv.step_of_drawn`: a move keeps the invariant for the devices for which it draws no service time
  of zero; where none can be drawn, every run of moves keeps it (`Inv.step`, `Inv.run`).
-/

namespace Simulation

open CInt Tokens Runs

/-- The kinds of moves. -/
inductive Move
  | clock
  | generate
  | arrive (j : ℕ)
  | back (i : Fin 2) (j : ℕ)
  | swap (i : Fin 2) (j cpuJob : ℕ)
  | fetch (j : ℕ)
  | work (j : ℕ)
  | send (j : ℕ) (i : Fin 2)
  | keep (j : ℕ)
  | kill (j : ℕ)
  | enter (i : Fin 2) (j : ℕ)
  | serve (i : Fin 2) (j : ℕ)
  | record
  deriving DecidableEq

/-- The next unit of service time is the last one of the job. -/
def State.Finishes (s : State) (j : ℕ) : Prop :=
  0 < (s.jobs j).burstTime ∧ sizeSub (s.jobs j).burstTime 1 = 0

/-- The state in which the CPU decides where its finished job goes: the last unit of service time
is used up, and `myrandom` has been asked. -/
def State.finished (s : State) (j : ℕ) : State := (s.decBurst .cpu j).called

/-- The state after the finished job `j` of a disk and the finished job `k` of the CPU have changed
places; `next` and `cpuNext` are the tails of the queues. -/
def State.swapped (env : Env) (s : State) (i : Fin 2) (j k : ℕ) (next cpuNext : List (Node ℕ)) :
    State :=
  ((arriveAtDisk env k i ((drawCpuBurst env j s).leave .cpu k cpuNext)).leave (.disk i) j
    (insertNode ⟨k, s.simTime⟩ next)).pushEnd i j

variable (env : Env)

/-- One move. -/
inductive Step : State → Move → State → Prop
  | clock {s : State} : s.simTime + 1 < 2 ^ 31 → Step s .clock s.clocked
  | generate {s : State} : s.upcomingJob = none →
      Step s .generate ((generateJob env s).2.setUpcoming (some s.jobCount))
  | arrive {s : State} {j : ℕ} : s.upcomingJob = some j →
      (s.devices .cpu).queue.length < queueSize .cpu →
      Step s (.arrive j) ((arriveAtCPU j s).setUpcoming none)
  | back {s : State} {i : Fin 2} {n : Node ℕ} {rest : List (Node ℕ)} :
      (s.devices (.disk i)).queue = n :: rest → (s.devices (.disk i)).currentJob = some n.val →
      (s.jobs n.val).burstTime = 0 → (s.devices .cpu).queue.length < queueSize .cpu →
      Step s (.back i n.val) (((drawCpuBurst env n.val s).leave (.disk i) n.val rest).pushEnd i n.val)
  | swap {s : State} {i : Fin 2} {n m : Node ℕ} {rest cpuRest : List (Node ℕ)} :
      (s.devices (.disk i)).queue = n :: rest → (s.devices (.disk i)).currentJob = some n.val →
      (s.jobs n.val).burstTime = 0 → (s.devices .cpu).queue = m :: cpuRest →
      (s.devices .cpu).currentJob = some m.val → (s.jobs m.val).burstTime = 0 →
      Step s (.swap i n.val m.val) (s.swapped env i n.val m.val rest cpuRest)
  | fetch {s : State} {n : Node ℕ} {rest : List (Node ℕ)} :
      (s.devices .cpu).currentJob = none → (s.devices .cpu).queue = n :: rest →
      Step s (.fetch n.val) (cpuEnter n.val s)
  | work {s : State} {j : ℕ} : (s.devices .cpu).currentJob = some j → 0 < (s.jobs j).burstTime →
      ¬s.Finishes j → Step s (.work j) (s.decBurst .cpu j)
  | send {s : State} {i : Fin 2} {n : Node ℕ} {rest : List (Node ℕ)} :
      (s.devices .cpu).queue = n :: rest → (s.devices .cpu).currentJob = some n.val →
      s.Finishes n.val → (jobNeedsDisk env (s.decBurst .cpu n.val)).1 = true →
      pickBestDisk (s.finished n.val) = some i →
      Step s (.send n.val i) ((arriveAtDisk env n.val i (s.finished n.val)).leave .cpu n.val rest)
  | keep {s : State} {j : ℕ} : (s.devices .cpu).currentJob = some j → s.Finishes j →
      (jobNeedsDisk env (s.decBurst .cpu j)).1 = true → pickBestDisk (s.finished j) = none →
      Step s (.keep j) (s.finished j)
  | kill {s : State} {n : Node ℕ} {rest : List (Node ℕ)} :
      (s.devices .cpu).queue = n :: rest → (s.devices .cpu).currentJob = some n.val →
      s.Finishes n.val → (jobNeedsDisk env (s.decBurst .cpu n.val)).1 = false →
      Step s (.kill n.val) ((s.finished n.val).kill n.val rest)
  | enter {s : State} {i : Fin 2} {n : Node ℕ} {rest : List (Node ℕ)} :
      (s.devices (.disk i)).queue = n :: rest → (s.devices (.disk i)).currentJob = none →
      0 < (s.jobs n.val).burstTime → Step s (.enter i n.val) (diskEnter n.val i s)
  | serve {s : State} {i : Fin 2} {j : ℕ} : (s.devices (.disk i)).currentJob = some j →
      0 < (s.jobs j).burstTime → Step s (.serve i j) (s.decBurst (.disk i) j)
  | record {s : State} : Step s .record (recordCommonStats s)

/-- The service times that a move draws, each with the device that it is for. -/
def Move.drawn (s : State) : Move → List (Dev × ℤ)
  | .generate => [(.cpu, env.outcome .generateJob (s.calls + 1) (toInt env.conf.cpuMin)
      (toInt env.conf.cpuMax))]
  | .back _ _ => [(.cpu, env.outcome .cpuDetermineJob s.calls (toInt env.conf.cpuMin)
      (toInt env.conf.cpuMax))]
  | .swap i _ _ => [(.cpu, env.outcome .cpuDetermineJob s.calls (toInt env.conf.cpuMin)
      (toInt env.conf.cpuMax)), (.disk i, env.outcome .arriveAtDisk (s.calls + 1)
      (toInt (env.conf.diskMin i)) (toInt env.conf.disk1Max))]
  | .send _ i => [(.disk i, env.outcome .arriveAtDisk (s.calls + 1) (toInt (env.conf.diskMin i))
      (toInt env.conf.disk1Max))]
  | _ => []

variable {env} {s t : State} {fed : Dev → Prop}

/-! ### What the invariant says about one job -/

section Member

variable (h : Inv fed s) {j k : ℕ} {dev dev' : Dev} {n : Node ℕ} {rest : List (Node ℕ)}

theorem mem_ids_of_cons (hq : (s.devices dev).queue = n :: rest) : n.val ∈ s.ids dev := by
  rw [State.ids, hq]
  exact List.mem_cons_self

include h

theorem Inv.mem_ids_of_current (hcur : (s.devices dev).currentJob = some j) : j ∈ s.ids dev := by
  obtain ⟨n, rest, hq, rfl⟩ := (h.device dev).cons hcur
  exact mem_ids_of_cons hq

/-- A job is in one queue only. -/
theorem Inv.ne_of_mem {d e : Dev} (hne : d ≠ e) (hj : j ∈ s.ids d) (hk : k ∈ s.ids e) : k ≠ j :=
  fun heq => hne (Place.device.inj
    (h.settled.place_unique (i := .device d) (j := .device e) hj (heq ▸ hk)))

theorem Inv.ne_of_upcoming (hu : s.upcomingJob = some k) (hj : j ∈ s.ids dev) : k ≠ j := by
  rintro rfl
  have hplace : Place.upcoming = .device dev :=
    h.settled.place_unique (a := k) (by simp [State.places, hu]) hj
  exact Place.noConfusion hplace

theorem Inv.val_not_mem_rest (hq : (s.devices dev).queue = n :: rest) :
    n.val ∉ rest.map Node.val := by
  have hnodup : (s.ids dev).Nodup := h.settled.nodup (.device dev)
  rw [State.ids, hq, List.map_cons, List.nodup_cons] at hnodup
  exact hnodup.1

end Member

/-! ### A job moves from one device to another -/

/-- The head of the queue of `a` goes to `b`. -/
structure Transfer (s t : State) (a b : Dev) (n : Node ℕ) (rest q : List (Node ℕ)) : Prop where
  ne : a ≠ b
  queue : (s.devices a).queue = n :: rest
  current : (s.devices a).currentJob = some n.val
  source : ∃ tel, t.devices a = ⟨rest, none, tel⟩
  inserted : Inserted s.simTime (s.devices b).queue n.val q
  target : t.devices b = { s.devices b with queue := q }
  other : ∀ dev, dev ≠ a → dev ≠ b → t.devices dev = s.devices dev
  jobs : ∀ k, k ≠ n.val → t.jobs k = s.jobs k
  arrival_le : (t.jobs n.val).arrivalTime ≤ s.simTime
  simTime : t.simTime = s.simTime
  jobCount : t.jobCount = s.jobCount
  upcomingJob : t.upcomingJob = s.upcomingJob
  terminated : t.terminated = s.terminated
  faults : t.faults = s.faults

section Transfer

variable {a b dev : Dev} {n m : Node ℕ} {rest q : List (Node ℕ)} {k : ℕ}

/-- The jobs on other devices stay as they are. -/
theorem Transfer.jobs_of_mem (ht : Transfer s t a b n rest q) (h : Inv fed s) (hdev : dev ≠ a)
    (hk : k ∈ s.ids dev) : t.jobs k = s.jobs k :=
  ht.jobs k (h.ne_of_mem (Ne.symm hdev) (mem_ids_of_cons ht.queue) hk)

/-- A job that is in a queue after a transfer is the one that moves, or it has been there before. -/
theorem Transfer.ids_cases (ht : Transfer s t a b n rest q) (h : Inv fed s) (hk : k ∈ t.ids dev) :
    (k = n.val ∧ dev = b) ∨ (k ≠ n.val ∧ k ∈ s.ids dev) := by
  by_cases ha : dev = a
  · subst ha
    obtain ⟨tel, hsource⟩ := ht.source
    rw [State.ids, hsource] at hk
    refine Or.inr ⟨fun heq => h.val_not_mem_rest ht.queue (heq ▸ hk), ?_⟩
    rw [State.ids, ht.queue]
    exact List.mem_cons_of_mem _ hk
  · have hsame : k ∈ s.ids dev → k ≠ n.val := h.ne_of_mem (Ne.symm ha) (mem_ids_of_cons ht.queue)
    by_cases hb : dev = b
    · subst hb
      rw [State.ids, ht.target] at hk
      rcases List.mem_cons.1 (ht.inserted.perm_val.mem_iff.1 hk) with rfl | hk
      · exact Or.inl ⟨rfl, rfl⟩
      · exact Or.inr ⟨hsame hk, hk⟩
    · rw [State.ids, ht.other dev ha hb] at hk
      exact Or.inr ⟨hsame hk, hk⟩

/-- A job that waits after a transfer is the one that moves, or it has waited before. -/
theorem Transfer.waiting (ht : Transfer s t a b n rest q) (h : Inv fed s)
    (hm : m ∈ (t.devices dev).queue) (hne : (t.devices dev).currentJob ≠ some m.val) :
    (dev = b ∧ m.val = n.val) ∨ (m ∈ (s.devices dev).queue ∧
      (s.devices dev).currentJob ≠ some m.val ∧ t.jobs m.val = s.jobs m.val) := by
  by_cases ha : dev = a
  · subst ha
    obtain ⟨tel, hsource⟩ := ht.source
    rw [hsource] at hm
    -- the jobs behind the head have not entered, and are not the one that moves
    have hnot : m.val ≠ n.val := fun e => h.val_not_mem_rest ht.queue (e ▸ List.mem_map_of_mem hm)
    refine Or.inr ⟨by rw [ht.queue]; exact List.mem_cons_of_mem n hm, ?_, ht.jobs _ hnot⟩
    rw [ht.current, ne_eq, Option.some.injEq]
    exact hnot.symm
  · by_cases hb : dev = b
    · subst hb
      rw [ht.target] at hm hne
      rcases ht.inserted.mem hm with ⟨heq, -⟩ | hm
      · exact Or.inl ⟨rfl, heq⟩
      · exact Or.inr ⟨hm, hne, ht.jobs_of_mem h ha (List.mem_map_of_mem hm)⟩
    · rw [ht.other dev ha hb] at hm hne
      exact Or.inr ⟨hm, hne, ht.jobs_of_mem h ha (List.mem_map_of_mem hm)⟩

/-- A job that is served after a transfer has been served before. -/
theorem Transfer.current_eq (ht : Transfer s t a b n rest q) (h : Inv fed s)
    (hk : (t.devices dev).currentJob = some k) :
    dev ≠ a ∧ (s.devices dev).currentJob = some k ∧ t.jobs k = s.jobs k := by
  have ha : dev ≠ a := by
    rintro rfl
    obtain ⟨tel, hsource⟩ := ht.source
    rw [hsource] at hk
    exact nomatch hk
  have hcur : (s.devices dev).currentJob = some k := by
    by_cases hb : dev = b
    · subst hb
      rwa [ht.target] at hk
    · rwa [ht.other dev ha hb] at hk
  exact ⟨ha, hcur, ht.jobs_of_mem h ha (h.mem_ids_of_current hcur)⟩

end Transfer

/-- **A transfer keeps the invariant**, if the job has service time left where it goes. -/
theorem Inv.transfer {a b : Dev} {n : Node ℕ} {rest q : List (Node ℕ)} (h : Inv fed s)
    (ht : Transfer s t a b n rest q) (hfed : fed b → 0 < (t.jobs n.val).burstTime) :
    Inv fed t := by
  obtain ⟨tel, hsource⟩ := ht.source
  have hmem := mem_ids_of_cons ht.queue
  have harrival : ∀ k, (t.jobs k).arrivalTime = (s.jobs k).arrivalTime ∨
      (t.jobs k).arrivalTime ≤ s.simTime := by
    intro k
    by_cases hk : k = n.val
    · exact Or.inr (hk ▸ ht.arrival_le)
    · exact Or.inl (by rw [ht.jobs k hk])
  constructor
  case clock => exact ht.simTime ▸ h.clock
  case settled =>
    rw [ht.jobCount]
    -- the job leaves one place and comes to another one, all other places stay
    refine h.settled.move (i := .device a) (j := .device b) (a := n.val)
      (fun e => ht.ne (Place.device.inj e)) ?_ ?_ fun p ha hb => ?_
    · simp [State.places, State.ids, ht.queue, hsource]
    · simpa [State.places, State.ids, ht.target] using ht.inserted.perm_val
    · cases p with
      | upcoming => simp only [State.places, ht.upcomingJob]
      | device dev =>
        have hdev := ht.other dev (fun e => ha (e ▸ rfl)) (fun e => hb (e ▸ rfl))
        simp only [State.places, State.ids, hdev]
      | terminated => simp only [State.places, ht.terminated]
  case device =>
    intro dev
    rw [ht.simTime]
    by_cases ha : dev = a
    · subst ha
      rw [hsource]
      exact ((h.device dev).tail ht.queue tel).mono le_rfl fun m _ => harrival m.val
    · by_cases hb : dev = b
      · subst hb
        rw [ht.target]
        exact ((h.device dev).mono le_rfl fun m _ => harrival m.val).insert ht.inserted
          ht.arrival_le
      · rw [ht.other dev ha hb]
        exact (h.device dev).mono le_rfl fun m _ => harrival m.val
  case waits =>
    intro dev hdev m hm hne
    rcases ht.waiting h hm hne with ⟨rfl, heq⟩ | ⟨hm, hne, heq⟩
    · rw [heq]
      exact hfed hdev
    · rw [heq]
      exact h.waits dev hdev m hm hne
  case upcoming =>
    intro hcpu j hj
    rw [ht.upcomingJob] at hj
    rw [ht.jobs j (h.ne_of_upcoming hj hmem)]
    exact h.upcoming hcpu j hj
  case faults => rw [ht.faults, h.faults]

/-! ### The other moves -/

/-- Only the service time of the current job of a device changes. -/
structure Reserve (s t : State) (dev : Dev) (j : ℕ) : Prop where
  current : (s.devices dev).currentJob = some j
  devices : t.devices = s.devices
  jobs : ∀ k, k ≠ j → t.jobs k = s.jobs k
  arrival : (t.jobs j).arrivalTime = (s.jobs j).arrivalTime
  simTime : t.simTime = s.simTime
  jobCount : t.jobCount = s.jobCount
  upcomingJob : t.upcomingJob = s.upcomingJob
  events : t.events = s.events
  faults : t.faults = s.faults

/-- A job that waits stays as it is. -/
theorem Reserve.waiting {dev dev' : Dev} {j : ℕ} {n : Node ℕ} (ht : Reserve s t dev j)
    (h : Inv fed s) (hn : n ∈ (s.devices dev').queue)
    (hne : (s.devices dev').currentJob ≠ some n.val) : t.jobs n.val = s.jobs n.val := by
  refine ht.jobs n.val ?_
  by_cases hsame : dev = dev'
  · subst hsame
    exact fun e => hne (ht.current.trans (e ▸ rfl))
  · exact h.ne_of_mem hsame (h.mem_ids_of_current ht.current) (List.mem_map_of_mem hn)

theorem Inv.reserve {dev : Dev} {j : ℕ} (h : Inv fed s) (ht : Reserve s t dev j) : Inv fed t := by
  have hmem := h.mem_ids_of_current ht.current
  have harrival : ∀ k, (t.jobs k).arrivalTime = (s.jobs k).arrivalTime := by
    intro k
    by_cases hk : k = j
    · rw [hk, ht.arrival]
    · rw [ht.jobs k hk]
  have hplaces : t.places = s.places := by
    funext p
    cases p <;> simp [State.places, State.ids, State.terminated, ht.devices, ht.upcomingJob,
      ht.events]
  constructor
  case clock => exact ht.simTime ▸ h.clock
  case settled =>
    rw [ht.jobCount, hplaces]
    exact h.settled
  case device =>
    intro dev'
    rw [ht.simTime, ht.devices]
    exact (h.device dev').mono le_rfl fun n _ => Or.inl (harrival n.val)
  case waits =>
    intro dev' hdev
    rw [ht.devices]
    exact (h.waits dev' hdev).congr fun n hn hne => ht.waiting h hn hne
  case upcoming =>
    intro hcpu k hk
    rw [ht.upcomingJob] at hk
    rw [ht.jobs k (h.ne_of_upcoming hk hmem)]
    exact h.upcoming hcpu k hk
  case faults => rw [ht.faults, h.faults]

theorem reserve_decBurst {dev : Dev} {j : ℕ} (hcur : (s.devices dev).currentJob = some j)
    (hpos : 0 < (s.jobs j).burstTime) : Reserve s (s.decBurst dev j) dev j where
  current := hcur
  devices := rfl
  jobs k hk := by simp [hk]
  arrival := by simp
  simTime := rfl
  jobCount := rfl
  upcomingJob := rfl
  events := rfl
  faults := by simp [hpos.ne']

theorem reserve_finished {j : ℕ} (hcur : (s.devices .cpu).currentJob = some j)
    (hpos : 0 < (s.jobs j).burstTime) : Reserve s (s.finished j) .cpu j :=
  { reserve_decBurst hcur hpos with }

theorem reserve_drawCpuBurst (env : Env) {dev : Dev} {j : ℕ}
    (hcur : (s.devices dev).currentJob = some j) :
    Reserve s (drawCpuBurst env j s) dev j where
  current := hcur
  devices := rfl
  jobs k hk := by simp [drawCpuBurst, myrandom, hk]
  arrival := by simp [drawCpuBurst, myrandom]
  simTime := rfl
  jobCount := rfl
  upcomingJob := rfl
  events := rfl
  faults := rfl

theorem Inv.clocked (h : Inv fed s) (hlt : s.simTime + 1 < 2 ^ 31) : Inv fed s.clocked :=
  { h with
    clock := hlt
    device := fun dev => (h.device dev).mono (Nat.le_succ s.simTime) fun _ _ => Or.inl rfl }

theorem Inv.record (h : Inv fed s) : Inv fed (recordCommonStats s) where
  clock := h.clock
  settled := by
    have hplaces : (recordCommonStats s).places = s.places := by funext p; cases p <;> rfl
    rw [hplaces]
    exact h.settled
  device dev := ⟨(h.device dev).head, (h.device dev).priority_le, (h.device dev).arrival_le⟩
  waits dev hdev := h.waits dev hdev
  upcoming := h.upcoming
  faults := h.faults

theorem Inv.generate (h : Inv fed s) (hnone : s.upcomingJob = none)
    (hdrawn : fed .cpu → 0 < toSize (env.outcome .generateJob (s.calls + 1) (toInt env.conf.cpuMin)
      (toInt env.conf.cpuMax))) :
    Inv fed ((generateJob env s).2.setUpcoming (some s.jobCount)) := by
  have hfresh : ∀ dev, ∀ n ∈ (s.devices dev).queue, n.val ≠ s.jobCount := fun dev n hn =>
    (h.settled.known_of_mem (i := .device dev) (List.mem_map_of_mem hn)).ne
  have hjobs : ∀ k, k ≠ s.jobCount →
      ((generateJob env s).2.setUpcoming (some s.jobCount)).jobs k = s.jobs k := by
    intro k hk
    simp [generateJob, myrandom, hk]
  constructor
  case clock => exact h.clock
  case settled =>
    -- the new job is the one whose number is next
    have hknown : (· < s.jobCount + 1) = fun a => a = s.jobCount ∨ a < s.jobCount := by
      funext a
      exact propext (by omega)
    show Settled (· < s.jobCount + 1) _
    rw [hknown]
    refine h.settled.enter (i := .upcoming) (lt_irrefl s.jobCount) ?_ fun p hp => ?_
    · simp [State.places, hnone]
    · cases p with
      | upcoming => exact absurd rfl hp
      | device dev => rfl
      | terminated => rfl
  case device =>
    intro dev
    exact (h.device dev).mono le_rfl fun n hn => Or.inl (by rw [hjobs _ (hfresh dev n hn)])
  case waits =>
    intro dev hdev
    exact (h.waits dev hdev).congr fun n hn _ => hjobs _ (hfresh dev n hn)
  case upcoming =>
    intro hcpu j hj
    obtain rfl : s.jobCount = j := by simpa using hj
    simpa [generateJob, myrandom] using hdrawn hcpu
  case faults => exact h.faults

/-- The clock is an `int` as well. -/
theorem Inv.toInt_simTime (h : Inv fed s) : toInt s.simTime = s.simTime := toInt_of_lt h.clock

theorem Inv.arrive {j : ℕ} (h : Inv fed s) (hj : s.upcomingJob = some j) :
    Inv fed ((arriveAtCPU j s).setUpcoming none) := by
  have hins : Inserted s.simTime (s.devices .cpu).queue j
      (pushQueue (s.devices .cpu).queue j s.simTime) :=
    inserted_pushQueue (h.device .cpu).priority_le j
  have hqueue : ((arriveAtCPU j s).setUpcoming none).devices .cpu =
      { s.devices .cpu with queue := pushQueue (s.devices .cpu).queue j s.simTime } := by
    simp [arriveAtCPU, h.toInt_simTime]
  have hother : ∀ i, ((arriveAtCPU j s).setUpcoming none).devices (.disk i) =
      s.devices (.disk i) := by
    intro i
    simp [arriveAtCPU]
  have harrival : ∀ k, (((arriveAtCPU j s).setUpcoming none).jobs k).arrivalTime =
      (s.jobs k).arrivalTime ∨
      (((arriveAtCPU j s).setUpcoming none).jobs k).arrivalTime ≤ s.simTime := by
    intro k
    by_cases hk : k = j <;> simp [arriveAtCPU, hk]
  have hburst : ∀ k, (((arriveAtCPU j s).setUpcoming none).jobs k).burstTime =
      (s.jobs k).burstTime := by
    intro k
    by_cases hk : k = j <;> simp [arriveAtCPU, hk]
  have hwaits : ∀ dev, fed dev →
      (s.devices dev).Waits ((arriveAtCPU j s).setUpcoming none).jobs := by
    intro dev hdev n hn hne
    rw [hburst]
    exact h.waits dev hdev n hn hne
  constructor
  case clock => exact h.clock
  case settled =>
    refine h.settled.move (i := .upcoming) (j := .device .cpu) (a := j) Place.noConfusion ?_ ?_
      fun p hu hc => ?_
    · simp [State.places, hj]
    · simpa [State.places, State.ids, hqueue] using hins.perm_val
    · cases p with
      | upcoming => exact absurd rfl hu
      | device dev =>
        cases dev with
        | cpu => exact absurd rfl hc
        | disk i => simp only [State.places, State.ids, hother]
      | terminated => simp [State.places, State.terminated, arriveAtCPU]
  case device =>
    intro dev
    have hmono := (h.device dev).mono le_rfl fun n _ => harrival n.val
    cases dev with
    | cpu =>
      rw [hqueue]
      exact hmono.insert hins (by simp [arriveAtCPU])
    | disk i =>
      rw [hother]
      exact hmono
  case waits =>
    intro dev hdev
    have hkeep := hwaits dev hdev
    cases dev with
    | cpu =>
      rw [hqueue]
      exact hkeep.insert hins (by rw [hburst]; exact h.upcoming hdev j hj)
    | disk i =>
      rw [hother]
      exact hkeep
  case upcoming => exact fun _ _ hk => by simp at hk
  case faults => exact h.faults

/-- The head of a queue enters the device. -/
theorem Inv.enter {dev : Dev} {n : Node ℕ} {rest : List (Node ℕ)} (h : Inv fed s)
    (hq : (s.devices dev).queue = n :: rest) (hidle : (s.devices dev).currentJob = none) :
    Inv fed (s.enter dev n.val) where
  clock := h.clock
  settled := by
    have hplaces : (s.enter dev n.val).places = s.places := by
      funext p
      cases p with
      | upcoming => rfl
      | device dev' =>
        by_cases hdev : dev' = dev
        · subst hdev
          simp [State.places, State.ids]
        · simp [State.places, State.ids, hdev]
      | terminated => simp [State.places, State.terminated]
    rw [hplaces]
    exact h.settled
  device dev' := by
    by_cases hdev : dev' = dev
    · subst hdev
      simpa using (h.device dev').enter hq
    · simpa [hdev] using h.device dev'
  waits dev' hdev' := by
    by_cases hdev : dev' = dev
    · subst hdev
      simpa using (h.waits dev' hdev').enter hidle (some n.val)
    · simpa [hdev] using h.waits dev' hdev'
  upcoming := h.upcoming
  faults := h.faults

/-- The current job of the CPU is terminated. -/
theorem Inv.kill {n : Node ℕ} {rest : List (Node ℕ)} (h : Inv fed s)
    (hq : (s.devices .cpu).queue = n :: rest) (hcur : (s.devices .cpu).currentJob = some n.val) :
    Inv fed (s.kill n.val rest) where
  clock := h.clock
  settled := by
    refine h.settled.move (i := .device .cpu) (j := .terminated) (a := n.val) Place.noConfusion ?_ ?_
      fun p hc ht => ?_
    · simp [State.places, State.ids, hq]
    · simp [State.places, State.terminated]
    · cases p with
      | upcoming => rfl
      | device dev =>
        cases dev with
        | cpu => exact absurd rfl hc
        | disk i => simp [State.places, State.ids]
      | terminated => exact absurd rfl ht
  device dev := by
    cases dev with
    | cpu => simpa using (h.device .cpu).tail hq (s.devices .cpu).telemetry
    | disk i => simpa using h.device (.disk i)
  waits dev hdev := by
    cases dev with
    | cpu =>
      simpa using (h.waits .cpu hdev).tail hq hcur (h.settled.nodup (.device .cpu))
        (s.devices .cpu).telemetry
    | disk i => simpa using h.waits (.disk i) hdev
  upcoming := h.upcoming
  faults := h.faults

/-! ### The transfers of the code -/

section Transfers

variable {i : Fin 2} {n : Node ℕ} {rest : List (Node ℕ)}

theorem arriveAtDisk_burstTime (env : Env) (j : ℕ) (i : Fin 2) (s : State) :
    ((arriveAtDisk env j i s).jobs j).burstTime = toSize (env.outcome .arriveAtDisk s.calls
      (toInt (env.conf.diskMin i)) (toInt env.conf.disk1Max)) := by
  simp [arriveAtDisk, myrandom]

theorem drawCpuBurst_burstTime (env : Env) (j : ℕ) (s : State) :
    ((drawCpuBurst env j s).jobs j).burstTime = toSize (env.outcome .cpuDetermineJob s.calls
      (toInt env.conf.cpuMin) (toInt env.conf.cpuMax)) := by
  simp [drawCpuBurst, myrandom]

theorem arriveAtDisk_burst (hserves : env.Serves (.disk i)) (j : ℕ) (s : State) :
    0 < ((arriveAtDisk env j i s).jobs j).burstTime := by
  rw [arriveAtDisk_burstTime]
  exact hserves s.calls

/-- A job returns from a disk. -/
theorem Inv.transfer_back (h : Inv fed s) (hq : (s.devices (.disk i)).queue = n :: rest)
    (hcur : (s.devices (.disk i)).currentJob = some n.val) :
    Transfer s ((s.leave (.disk i) n.val rest).pushEnd i n.val) (.disk i) .cpu n rest
      (pushQueueEnd (s.devices .cpu).queue n.val) where
  ne := Dev.noConfusion
  queue := hq
  current := hcur
  source := by simp
  inserted := inserted_pushQueueEnd _ _ _
  target := by simp
  other dev hd hc := by simp [hd, hc]
  jobs _ _ := rfl
  arrival_le := (h.device (.disk i)).arrival_le n (by rw [hq]; exact List.mem_cons_self)
  simTime := rfl
  jobCount := rfl
  upcomingJob := rfl
  terminated := by simp [State.terminated]
  faults := by
    have hle := (h.device (.disk i)).arrival_le n (by rw [hq]; exact List.mem_cons_self)
    simp [hle.not_gt]

/-- The queue of the disk after an arrival. -/
theorem arriveAtDisk_devices (h : Inv fed s) (j : ℕ) (i : Fin 2) :
    (arriveAtDisk env j i s).devices = Function.update s.devices (.disk i)
      { s.devices (.disk i) with
        queue := pushQueue (s.devices (.disk i)).queue j s.simTime } := by
  simp [arriveAtDisk, myrandom, h.toInt_simTime]

/-- A job goes from the CPU to a disk, and leaves the CPU afterwards. -/
theorem Inv.transfer_send (h : Inv fed s) (env : Env) (i : Fin 2)
    (hq : (s.devices .cpu).queue = n :: rest)
    (hcur : (s.devices .cpu).currentJob = some n.val) :
    Transfer s ((arriveAtDisk env n.val i s).leave .cpu n.val rest) .cpu (.disk i) n rest
      (pushQueue (s.devices (.disk i)).queue n.val s.simTime) where
  ne := Dev.noConfusion
  queue := hq
  current := hcur
  source := by simp
  inserted := inserted_pushQueue (h.device (.disk i)).priority_le n.val
  target := by simp [arriveAtDisk_devices h]
  other dev hc hd := by simp [arriveAtDisk_devices h, hc, hd]
  jobs k hk := by simp [arriveAtDisk, myrandom, hk]
  arrival_le := by simp [arriveAtDisk, myrandom]
  simTime := rfl
  jobCount := rfl
  upcomingJob := rfl
  terminated := by simp [State.terminated, arriveAtDisk, myrandom]
  faults := by simp [arriveAtDisk, myrandom]

/-- A job leaves the CPU and goes to a disk. -/
theorem Inv.transfer_swap (h : Inv fed s) (env : Env) (i : Fin 2)
    (hq : (s.devices .cpu).queue = n :: rest)
    (hcur : (s.devices .cpu).currentJob = some n.val) :
    Transfer s (arriveAtDisk env n.val i (s.leave .cpu n.val rest)) .cpu (.disk i) n rest
      (pushQueue (s.devices (.disk i)).queue n.val s.simTime) where
  ne := Dev.noConfusion
  queue := hq
  current := hcur
  source := by simp [arriveAtDisk, myrandom]
  inserted := inserted_pushQueue (h.device (.disk i)).priority_le n.val
  target := by simp [arriveAtDisk, myrandom, h.toInt_simTime]
  other dev hc hd := by simp [arriveAtDisk, myrandom, hc, hd]
  jobs k hk := by simp [arriveAtDisk, myrandom, hk]
  arrival_le := by simp [arriveAtDisk, myrandom]
  simTime := rfl
  jobCount := rfl
  upcomingJob := rfl
  terminated := by simp [State.terminated, arriveAtDisk, myrandom]
  faults := by
    have hle := (h.device .cpu).arrival_le n (by rw [hq]; exact List.mem_cons_self)
    simp [arriveAtDisk, myrandom, hle.not_gt]

theorem Inv.back (h : Inv fed s) (hq : (s.devices (.disk i)).queue = n :: rest)
    (hcur : (s.devices (.disk i)).currentJob = some n.val)
    (hdrawn : ∀ d ∈ Move.drawn env s (.back i n.val), fed d.1 → 0 < toSize d.2) :
    Inv fed (((drawCpuBurst env n.val s).leave (.disk i) n.val rest).pushEnd i n.val) := by
  have hdraw := h.reserve (reserve_drawCpuBurst env hcur)
  refine hdraw.transfer (hdraw.transfer_back hq hcur) fun hcpu => ?_
  show 0 < ((drawCpuBurst env n.val s).jobs n.val).burstTime
  rw [drawCpuBurst_burstTime]
  exact hdrawn _ List.mem_cons_self hcpu

theorem Inv.send (h : Inv fed s) (hq : (s.devices .cpu).queue = n :: rest)
    (hcur : (s.devices .cpu).currentJob = some n.val) (hpos : 0 < (s.jobs n.val).burstTime)
    (hdrawn : ∀ d ∈ Move.drawn env s (.send n.val i), fed d.1 → 0 < toSize d.2) :
    Inv fed ((arriveAtDisk env n.val i (s.finished n.val)).leave .cpu n.val rest) := by
  have hfin := h.reserve (reserve_finished hcur hpos)
  refine hfin.transfer (hfin.transfer_send env i hq hcur) fun hdisk => ?_
  show 0 < ((arriveAtDisk env n.val i (s.finished n.val)).jobs n.val).burstTime
  rw [arriveAtDisk_burstTime]
  exact hdrawn _ List.mem_cons_self hdisk

/-- The disk between the two transfers of a swap. -/
theorem Inv.swapping_disk (h : Inv fed s) (env : Env)
    (hq : (s.devices (.disk i)).queue = n :: rest) (k : ℕ)
    (cpuRest : List (Node ℕ)) :
    (arriveAtDisk env k i ((drawCpuBurst env n.val s).leave .cpu k cpuRest)).devices (.disk i) =
      { s.devices (.disk i) with queue := n :: insertNode ⟨k, s.simTime⟩ rest } := by
  have hle := (h.device (.disk i)).priority_le n (by rw [hq]; exact List.mem_cons_self)
  simp [arriveAtDisk, drawCpuBurst, myrandom, h.toInt_simTime, hq, pushQueue_cons hle]

theorem Inv.swap (h : Inv fed s) {m : Node ℕ} {cpuRest : List (Node ℕ)}
    (hq : (s.devices (.disk i)).queue = n :: rest)
    (hcur : (s.devices (.disk i)).currentJob = some n.val)
    (hcpu : (s.devices .cpu).queue = m :: cpuRest)
    (hwait : (s.devices .cpu).currentJob = some m.val)
    (hdrawn : ∀ d ∈ Move.drawn env s (.swap i n.val m.val), fed d.1 → 0 < toSize d.2) :
    Inv fed (s.swapped env i n.val m.val rest cpuRest) := by
  have hdraw := h.reserve (reserve_drawCpuBurst env hcur)
  -- the job of the CPU goes to the disk before the one of the disk returns
  have hmid := hdraw.transfer (hdraw.transfer_swap env i hcpu hwait) fun hdisk => by
    rw [arriveAtDisk_burstTime]
    exact hdrawn _ (List.mem_cons_of_mem _ List.mem_cons_self) hdisk
  have hdev := h.swapping_disk env hq m.val cpuRest
  have hne : n.val ≠ m.val :=
    h.ne_of_mem (d := .cpu) Dev.noConfusion (mem_ids_of_cons hcpu) (mem_ids_of_cons hq)
  refine hmid.transfer (hmid.transfer_back (by rw [hdev]) (by rw [hdev, hcur])) fun hfed => ?_
  have hburst := drawCpuBurst_burstTime env n.val s
  have hpos := hdrawn _ List.mem_cons_self hfed
  rw [← hburst] at hpos
  simpa [State.swapped, arriveAtDisk, myrandom, hne] using hpos

end Transfers

/-- **A move keeps the invariant**, for the devices for which it draws no service time of zero. -/
theorem Inv.step_of_drawn {m : Move} (h : Inv fed s) (hstep : Step env s m t)
    (hdrawn : ∀ d ∈ m.drawn env s, fed d.1 → 0 < toSize d.2) : Inv fed t := by
  cases hstep with
  | clock hlt => exact h.clocked hlt
  | generate hnone => exact h.generate hnone fun hcpu => hdrawn _ List.mem_cons_self hcpu
  | arrive hj _ => exact h.arrive hj
  | back hq hcur _ _ => exact h.back hq hcur hdrawn
  | swap hq hcur _ hcpu hwait _ => exact h.swap hq hcur hcpu hwait hdrawn
  | fetch hidle hq => exact h.enter hq hidle
  | work hcur hpos _ => exact h.reserve (reserve_decBurst hcur hpos)
  | send hq hcur hfin _ _ => exact h.send hq hcur hfin.1 hdrawn
  | keep hcur hfin _ _ => exact h.reserve (reserve_finished hcur hfin.1)
  | kill hq hcur hfin _ => exact (h.reserve (reserve_finished hcur hfin.1)).kill hq hcur
  | enter hq hidle _ => exact h.enter hq hidle
  | serve hcur hpos => exact h.reserve (reserve_decBurst hcur hpos)
  | record => exact h.record

/-- Where no service time of zero can be drawn, none is. -/
theorem Move.drawn_pos (m : Move) (s : State) {d : Dev × ℤ} (hd : d ∈ m.drawn env s)
    (hserves : env.Serves d.1) : 0 < toSize d.2 := by
  cases m with
  | generate =>
    obtain rfl := List.mem_singleton.1 hd
    exact hserves .generateJob _
  | back i j =>
    obtain rfl := List.mem_singleton.1 hd
    exact hserves .cpuDetermineJob _
  | swap i j k =>
    rcases List.mem_pair.1 hd with rfl | rfl
    · exact hserves .cpuDetermineJob _
    · exact hserves _
  | send j i =>
    obtain rfl := List.mem_singleton.1 hd
    exact hserves _
  | _ => exact absurd hd List.not_mem_nil

/-- **Every move keeps the invariant.** -/
theorem Inv.step {m : Move} (h : Inv env.Serves s) (hstep : Step env s m t) : Inv env.Serves t :=
  h.step_of_drawn hstep fun _ hd hserves => m.drawn_pos s hd hserves

/-! ### The log -/

/-- The events that a move logs. -/
def Move.log (s : State) : Move → List Event
  | .arrive j => [.arrivedAt .cpu j]
  | .back i j => [.returnedFrom i j]
  | .swap i j cpuJob => [.arrivedAt (.disk i) cpuJob, .returnedFrom i j]
  | .fetch j => [.entered .cpu j (s.jobs j).burstTime]
  | .send j i => [.arrivedAt (.disk i) j]
  | .kill j => [.terminated j]
  | .enter i j => [.entered (.disk i) j (s.jobs j).burstTime]
  | _ => []

/-- **What a move adds to the log.** -/
theorem Step.events {m : Move} (h : Step env s m t) :
    t.events = s.events ++ (m.log s).map (Prod.mk s.simTime) := by
  cases h <;> simp [Move.log, generateJob, myrandom, arriveAtCPU, drawCpuBurst, State.swapped,
    arriveAtDisk, cpuEnter, State.finished, diskEnter, recordCommonStats]

/-- Every run of moves keeps the invariant. -/
theorem Inv.run {ms : List Move} (h : Inv env.Serves s) (hrun : Run (Step env) s ms t) :
    Inv env.Serves t :=
  Run.invariant (fun _ _ _ h hstep => h.step hstep) h hrun

end Simulation
