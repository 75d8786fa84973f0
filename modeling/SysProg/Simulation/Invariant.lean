import SysProg.Lib.Tokens
import SysProg.Simulation.Model

/-!
# The invariant of the simulation

* `places`: where the jobs are, the upcoming one and the terminated ones included;
* `Env.Serves`: every service time drawn for a device is positive;
* `Device.Ok`: what holds of each device: its current job is the head of its queue, and nothing in
  the queue is later than now;
* `Device.Waits`: a job that has not entered yet has service time left;
* `Inv`: the invariant; `inv_init`: it holds before the first tick.
-/

namespace Simulation

open CInt Tokens

/-! ### Where the jobs are -/

/-- The places where a job can be. -/
inductive Place
  | upcoming
  | device (dev : Dev)
  | terminated
  deriving DecidableEq, Fintype

namespace State

/-- The jobs in the queue of a device. -/
def ids (s : State) (dev : Dev) : List ℕ := (s.devices dev).queue.map Node.val

/-- The jobs that the log reports as terminated. -/
def terminated (s : State) : List ℕ :=
  s.events.filterMap fun e => match e.2 with
    | .terminated j => some j
    | _ => none

/-- The jobs in each place. -/
def places (s : State) : Place → List ℕ
  | .upcoming => s.upcomingJob.toList
  | .device dev => s.ids dev
  | .terminated => s.terminated

end State

/-! ### Service times -/

/-- Every service time drawn for the device is positive. -/
def Env.Serves (env : Env) : Dev → Prop
  | .cpu => ∀ c k, 0 < toSize (env.outcome c k (toInt env.conf.cpuMin) (toInt env.conf.cpuMax))
  | .disk i => ∀ k, 0 < toSize (env.outcome .arriveAtDisk k (toInt (env.conf.diskMin i))
      (toInt env.conf.disk1Max))

/-- The outcomes of the `myrandom` of `misc.c` lie in the range that was asked for. -/
theorem Env.ofRandom_inRange (conf : Conf) (random : ℕ → ℕ) : (Env.ofRandom conf random).InRange := by
  intro c k low high hle
  have hlow := Int.tmod_nonneg (high - low + 1) (Int.natCast_nonneg (random k))
  have hhigh := Int.tmod_lt_of_pos (random k : ℤ) (by omega : 0 < high - low + 1)
  show low ≤ low + _ ∧ low + _ ≤ high
  omega

/-- A configuration with positive service times, and with a clock that is an `int`. -/
structure Conf.Positive (conf : Conf) : Prop where
  cpuMin : 1 ≤ toInt conf.cpuMin
  cpuMax : toInt conf.cpuMin ≤ toInt conf.cpuMax
  diskMin : ∀ i, 1 ≤ toInt (conf.diskMin i)
  diskMax : ∀ i, toInt (conf.diskMin i) ≤ toInt conf.disk1Max
  finTime : conf.finTime < 2 ^ 31

theorem confTxt_positive : confTxt.Positive := by
  constructor <;> decide

section Draw

variable {env : Env} (hrand : env.InRange)
include hrand

/-- An outcome in a range of positive numbers. -/
theorem Env.InRange.toSize_pos {low : ℤ} {n : ℕ} (h1 : 1 ≤ low) (hle : low ≤ toInt n) (c : Caller)
    (k : ℕ) : 0 < toSize (env.outcome c k low (toInt n)) := by
  obtain ⟨hlow, hhigh⟩ := hrand c k low (toInt n) hle
  have := toInt_lt n
  exact CInt.toSize_pos (by omega) (by omega)

theorem Env.InRange.serves_cpu (h1 : 1 ≤ toInt env.conf.cpuMin)
    (hle : toInt env.conf.cpuMin ≤ toInt env.conf.cpuMax) : env.Serves .cpu :=
  fun c k => hrand.toSize_pos h1 hle c k

theorem Env.InRange.serves_disk {i : Fin 2} (h1 : 1 ≤ toInt (env.conf.diskMin i))
    (hle : toInt (env.conf.diskMin i) ≤ toInt env.conf.disk1Max) : env.Serves (.disk i) :=
  fun k => hrand.toSize_pos h1 hle .arriveAtDisk k

/-- With positive service times every device is served. -/
theorem Env.InRange.serves (hconf : env.conf.Positive) (dev : Dev) : env.Serves dev := by
  cases dev with
  | cpu => exact hrand.serves_cpu hconf.cpuMin hconf.cpuMax
  | disk i => exact hrand.serves_disk (hconf.diskMin i) (hconf.diskMax i)

end Draw

/-! ### Devices -/

/-- The queue `q'` is `q` with a node for the job `j`, which is no later than now and does not go
before the head. -/
structure Inserted (now : ℕ) (q : List (Node ℕ)) (j : ℕ) (q' : List (Node ℕ)) : Prop where
  perm : ∃ p : ℤ, p ≤ now ∧ q'.Perm (⟨j, p⟩ :: q)
  head : ∀ n rest, q = n :: rest → ∃ rest', q' = n :: rest'

section Inserted

variable {now : ℕ} {q q' : List (Node ℕ)} {j : ℕ}

theorem Inserted.mem (h : Inserted now q j q') {n : Node ℕ} (hn : n ∈ q') :
    (n.val = j ∧ n.priority ≤ now) ∨ n ∈ q := by
  obtain ⟨p, hp, hperm⟩ := h.perm
  rcases List.mem_cons.1 (hperm.mem_iff.1 hn) with rfl | hn
  · exact Or.inl ⟨rfl, hp⟩
  · exact Or.inr hn

theorem Inserted.perm_val (h : Inserted now q j q') :
    (q'.map Node.val).Perm (j :: q.map Node.val) := by
  obtain ⟨p, -, hperm⟩ := h.perm
  exact hperm.map Node.val

theorem inserted_pushQueueEnd (now : ℕ) (q : List (Node ℕ)) (j : ℕ) :
    Inserted now q j (pushQueueEnd q j) where
  perm := ⟨0, Int.natCast_nonneg now, List.perm_append_singleton _ q⟩
  head n rest hq := ⟨rest ++ [⟨j, 0⟩], by rw [hq]; rfl⟩

/-- As long as no priority is later than now. -/
theorem inserted_pushQueue (hq : ∀ n ∈ q, n.priority ≤ now) (j : ℕ) :
    Inserted now q j (pushQueue q j now) where
  perm := ⟨now, le_rfl, pushQueue_perm q j now⟩
  head n rest hcons := ⟨insertNode ⟨j, now⟩ rest, by
    rw [hcons, pushQueue_cons (hq n (by rw [hcons]; exact List.mem_cons_self))]⟩

end Inserted

/-- The current job is the head of the queue, and nothing in the queue is later than now. -/
structure Device.Ok (now : ℕ) (jobs : ℕ → Job) (d : Device) : Prop where
  head : ∀ j, d.currentJob = some j → (d.queue.map Node.val).head? = some j
  priority_le : ∀ n ∈ d.queue, n.priority ≤ now
  arrival_le : ∀ n ∈ d.queue, (jobs n.val).arrivalTime ≤ now

/-- A job that has not entered yet has service time left. -/
def Device.Waits (jobs : ℕ → Job) (d : Device) : Prop :=
  ∀ n ∈ d.queue, d.currentJob ≠ some n.val → 0 < (jobs n.val).burstTime

section Device

variable {now : ℕ} {jobs jobs' : ℕ → Job} {d : Device} {j : ℕ}

/-- Time passes, and no job of the queue arrives later than that. -/
theorem Device.Ok.mono (h : d.Ok now jobs) {later : ℕ} (hle : now ≤ later)
    (hjobs : ∀ n ∈ d.queue, (jobs' n.val).arrivalTime = (jobs n.val).arrivalTime ∨
      (jobs' n.val).arrivalTime ≤ later) : d.Ok later jobs' where
  head := h.head
  priority_le n hn := by have := h.priority_le n hn; omega
  arrival_le n hn := by
    have := h.arrival_le n hn
    rcases hjobs n hn with h | h <;> omega

/-- The queue of a device that has a current job. -/
theorem Device.Ok.cons (h : d.Ok now jobs) (hj : d.currentJob = some j) :
    ∃ n rest, d.queue = n :: rest ∧ n.val = j := by
  have hhead := h.head j hj
  cases hq : d.queue with
  | nil => simp [hq] at hhead
  | cons n rest => exact ⟨n, rest, rfl, by simpa [hq] using hhead⟩

/-- A job is put in the queue, not before the head. -/
theorem Device.Ok.insert (h : d.Ok now jobs) {q : List (Node ℕ)} (hq : Inserted now d.queue j q)
    (hj : (jobs j).arrivalTime ≤ now) : ({ d with queue := q } : Device).Ok now jobs where
  head k hk := by
    obtain ⟨n, rest, hcons, rfl⟩ := h.cons hk
    obtain ⟨q', rfl⟩ := hq.head n rest hcons
    rfl
  priority_le n hn := by
    rcases hq.mem hn with ⟨-, hle⟩ | hn
    · exact hle
    · exact h.priority_le n hn
  arrival_le n hn := by
    rcases hq.mem hn with ⟨rfl, -⟩ | hn
    · exact hj
    · exact h.arrival_le n hn

/-- The head leaves. -/
theorem Device.Ok.tail (h : d.Ok now jobs) {n : Node ℕ} {rest : List (Node ℕ)}
    (hq : d.queue = n :: rest) (t : Telemetry) : (⟨rest, none, t⟩ : Device).Ok now jobs where
  head _ hk := nomatch hk
  priority_le m hm := h.priority_le m (by rw [hq]; exact List.mem_cons_of_mem n hm)
  arrival_le m hm := h.arrival_le m (by rw [hq]; exact List.mem_cons_of_mem n hm)

/-- The head enters. -/
theorem Device.Ok.enter (h : d.Ok now jobs) {n : Node ℕ} {rest : List (Node ℕ)}
    (hq : d.queue = n :: rest) : ({ d with currentJob := some n.val } : Device).Ok now jobs where
  head k hk := by simpa [hq] using hk
  priority_le := h.priority_le
  arrival_le := h.arrival_le

/-- Only the service time of the current job may change. -/
theorem Device.Waits.congr (h : d.Waits jobs)
    (hjobs : ∀ n ∈ d.queue, d.currentJob ≠ some n.val → jobs' n.val = jobs n.val) :
    d.Waits jobs' := fun n hn hne => by
  rw [hjobs n hn hne]
  exact h n hn hne

theorem Device.Waits.insert (h : d.Waits jobs) {q : List (Node ℕ)} (hq : Inserted now d.queue j q)
    (hj : 0 < (jobs j).burstTime) : ({ d with queue := q } : Device).Waits jobs :=
  fun n hn hne => by
    rcases hq.mem hn with ⟨rfl, -⟩ | hn
    · exact hj
    · exact h n hn hne

/-- The current job leaves; no other node of the queue is of the same job. -/
theorem Device.Waits.tail (h : d.Waits jobs) {n : Node ℕ} {rest : List (Node ℕ)}
    (hq : d.queue = n :: rest) (hcur : d.currentJob = some n.val)
    (hnodup : (d.queue.map Node.val).Nodup) (t : Telemetry) :
    (⟨rest, none, t⟩ : Device).Waits jobs := fun m hm _ => by
  refine h m (by rw [hq]; exact List.mem_cons_of_mem n hm) fun e => ?_
  rw [hq, List.map_cons, List.nodup_cons] at hnodup
  rw [hcur, Option.some.injEq] at e
  exact hnodup.1 (e ▸ List.mem_map_of_mem hm)

theorem Device.Waits.enter (h : d.Waits jobs) (hidle : d.currentJob = none) (c : Option ℕ) :
    ({ d with currentJob := c } : Device).Waits jobs := fun n hn _ =>
  h n hn (by simp [hidle])

end Device

/-! ### The invariant -/

/-- The invariant of the simulation.  The jobs that wait for a device in `fed` have service time
left. -/
structure Inv (fed : Dev → Prop) (s : State) : Prop where
  clock : s.simTime < 2 ^ 31
  settled : Settled (· < s.jobCount) s.places
  device : ∀ dev, (s.devices dev).Ok s.simTime s.jobs
  waits : ∀ dev, fed dev → (s.devices dev).Waits s.jobs
  upcoming : fed .cpu → ∀ j, s.upcomingJob = some j → 0 < (s.jobs j).burstTime
  faults : s.faults = []

theorem Inv.mono {fed fed' : Dev → Prop} {s : State} (h : Inv fed s)
    (hfed : ∀ dev, fed' dev → fed dev) : Inv fed' s :=
  { h with
    waits := fun dev hdev => h.waits dev (hfed dev hdev)
    upcoming := fun hcpu => h.upcoming (hfed .cpu hcpu) }

theorem inv_init (fed : Dev → Prop) : Inv fed init where
  clock := by norm_num [init]
  settled := by
    constructor
    · intro a ha
      exact absurd ha (Nat.not_lt_zero a)
    · intro a _
      refine Finset.sum_eq_zero fun p _ => ?_
      cases p <;> rfl
  device _ := by constructor <;> simp [init]
  waits _ _ _ h := by simp [init] at h
  upcoming _ _ h := by simp [init] at h
  faults := rfl

end Simulation
