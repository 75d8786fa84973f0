import Mathlib.Data.Fintype.Sum
import Mathlib.Tactic.DeriveFintype
import SysProg.Lib.CInt
import SysProg.Simulation.PQueue

/-!
# The simulation of `main.c`

Jobs arrive at a CPU, which serves them one after another; a served job quits or goes to one of two
disks, and from there back to the CPU.  `tick` is one round of the loop of `simulate`.

* A `Job*` is the number of the job; `jobs` is the memory that the pointers point to.
* A function returns `none` where the code dereferences a null pointer.
* What wraps around silently in the code wraps around here too; `faults` is the record of it that
  the code does not keep.
* `myrandom` is an oracle (`Env.outcome`), which may depend on the place of the call, on the number
  of calls before it and on the bounds.  `randomOutcome` is the one of `misc.c`.
-/

namespace Simulation

open CInt

/-! ### Data -/

/-- `struct Conf`, as far as `simulate` depends on it. -/
structure Conf where
  finTime : ℕ
  arriveMin : ℕ
  arriveMax : ℕ
  quitProb : ℕ
  cpuMin : ℕ
  cpuMax : ℕ
  disk1Min : ℕ
  disk1Max : ℕ
  disk2Min : ℕ
  disk2Max : ℕ
  deriving DecidableEq, Repr

/-- `struct job`.  Its `id` is the number that stands for the pointer to it. -/
structure Job where
  arrivalTime : ℕ
  burstTime : ℕ
  deriving DecidableEq, Repr

/-- `struct telemetry`. -/
structure Telemetry where
  totalTime : ℕ
  busyTime : ℕ
  queueSum : ℕ
  maxQueueSize : ℕ
  maxResponseTime : ℕ
  responseTimeSum : ℕ
  responseCount : ℕ
  deriving DecidableEq, Repr

/-- There are two disks: their indices `0` and `1` are numerals. -/
instance twoDisks : NeZero 2 := ⟨Nat.succ_ne_zero 1⟩

/-- The CPU, and the disks of the table `disks`. -/
inductive Dev
  | cpu
  | disk (i : Fin 2)
  deriving DecidableEq, Fintype, Repr

/-- What changes in a `struct cpu` or a `struct disk`. -/
structure Device where
  queue : List (Node ℕ)
  currentJob : Option ℕ
  telemetry : Telemetry
  deriving DecidableEq, Repr

/-- `queueSize`, as `main` sets it. -/
def queueSize : Dev → ℕ
  | .cpu => 3
  | .disk _ => 4

/-- `disk->DISK_MIN`, as `main` sets it. -/
def Conf.diskMin (conf : Conf) (i : Fin 2) : ℕ := if i = 0 then conf.disk1Min else conf.disk2Min

/-- `disk->DISK_MAX`, as `main` sets it. -/
def Conf.diskMax (conf : Conf) (i : Fin 2) : ℕ := if i = 0 then conf.disk1Max else conf.disk2Max

/-- The table `disks`. -/
def disks : List (Fin 2) := [0, 1]

/-- The events that go to the log. -/
inductive Event
  | entered (dev : Dev) (job burstTime : ℕ)
  | arrivedAt (dev : Dev) (job : ℕ)
  | returnedFrom (i : Fin 2) (job : ℕ)
  | terminated (job : ℕ)
  deriving DecidableEq, Repr

/-- What happens silently: a response time for a job that arrives later, or the decrement of a burst
time that is zero. -/
inductive Fault
  | responseTime (dev : Dev) (job : ℕ)
  | burstTime (dev : Dev) (job : ℕ)
  deriving DecidableEq, Repr

/-- The variables of `main.c`, the memory of the jobs, the events logged (with their times), and the
number of calls of `myrandom`. -/
structure State where
  simTime : ℕ
  devices : Dev → Device
  jobs : ℕ → Job
  upcomingJob : Option ℕ
  jobCount : ℕ
  lastArrivalTime : ℕ
  events : List (ℕ × Event)
  calls : ℕ
  faults : List Fault

/-- The functions that call `myrandom`. -/
inductive Caller
  | generateJob
  | cpuDetermineJob
  | arriveAtDisk
  | jobNeedsDisk
  deriving DecidableEq, Repr

/-- The configuration and the outcomes of `myrandom`. -/
structure Env where
  conf : Conf
  outcome : Caller → ℕ → ℤ → ℤ → ℤ

/-- Every outcome lies in the range that was asked for. -/
def Env.InRange (env : Env) : Prop :=
  ∀ c k low high, low ≤ high → low ≤ env.outcome c k low high ∧ env.outcome c k low high ≤ high

/-- The state before `simulate`: what `main` and `initStats` set up. -/
def init : State where
  simTime := 0
  devices _ := ⟨[], none, ⟨0, 0, 0, 0, 0, 0, 0⟩⟩
  jobs _ := ⟨0, 0⟩
  upcomingJob := none
  jobCount := 0
  lastArrivalTime := 0
  events := []
  calls := 0
  faults := []

/-! ### Parts of the state -/

namespace State

/-- Write to the memory of one job. -/
@[simps -fullyApplied] def setJob (s : State) (j : ℕ) (job : Job) : State :=
  { s with jobs := Function.update s.jobs j job }

/-- Count a call of `myrandom`. -/
@[simps -fullyApplied] def called (s : State) : State := { s with calls := s.calls + 1 }

/-- `++simTime` -/
@[simps -fullyApplied] def clocked (s : State) : State := { s with simTime := s.simTime + 1 }

@[simps -fullyApplied] def setUpcoming (s : State) (j : Option ℕ) : State := { s with upcomingJob := j }

/-- `--job->burstTime`, on the device `dev`. -/
@[simps -fullyApplied] def decBurst (s : State) (dev : Dev) (j : ℕ) : State :=
  { s with
    jobs := Function.update s.jobs j
      { s.jobs j with burstTime := sizeSub (s.jobs j).burstTime 1 }
    faults := if (s.jobs j).burstTime = 0 then s.faults ++ [.burstTime dev j] else s.faults }

end State

/-- `myrandom` of `misc.c`, from the values of `random()`. -/
def randomOutcome (random : ℕ → ℕ) (k : ℕ) (low high : ℤ) : ℤ :=
  low + (random k : ℤ).tmod (high - low + 1)

/-- A configuration and the values of `random()`. -/
def Env.ofRandom (conf : Conf) (random : ℕ → ℕ) : Env where
  conf := conf
  outcome _ := randomOutcome random

/-- The configuration in `conf.txt`. -/
def confTxt : Conf where
  finTime := 100000
  arriveMin := 1
  arriveMax := 150
  quitProb := 20
  cpuMin := 1
  cpuMax := 10
  disk1Min := 15
  disk1Max := 50
  disk2Min := 15
  disk2Max := 50

variable (env : Env)

/-- `myrandom(low, high)`, called from `c`. -/
def myrandom (c : Caller) (low high : ℤ) (s : State) : ℤ × State :=
  (env.outcome c s.calls low high, s.called)

/-! ### Telemetry -/

def updateResponseTime (time : ℕ) (t : Telemetry) : Telemetry :=
  { t with
    maxResponseTime := if time > t.maxResponseTime then time else t.maxResponseTime
    responseTimeSum := sizeAdd t.responseTimeSum time
    responseCount := sizeAdd t.responseCount 1 }

/-- One device in `recordCommonStats`. -/
def recordStats (d : Device) : Device :=
  let qs := sizeQueue d.queue
  { d with
    telemetry :=
      { d.telemetry with
        totalTime := sizeAdd d.telemetry.totalTime 1
        busyTime :=
          if d.currentJob ≠ none then sizeAdd d.telemetry.busyTime 1 else d.telemetry.busyTime
        maxQueueSize := if qs > d.telemetry.maxQueueSize then qs else d.telemetry.maxQueueSize
        queueSum := sizeAdd d.telemetry.queueSum qs } }

def recordCommonStats (s : State) : State :=
  { s with devices := fun dev => recordStats (s.devices dev) }

/-! ### Moving jobs -/

/-- The current job `j` has left the device, and its response time is in the telemetry. -/
@[simps -fullyApplied] def State.leave (s : State) (dev : Dev) (j : ℕ) (next : List (Node ℕ)) : State :=
  { s with
    devices := Function.update s.devices dev
      { queue := next
        currentJob := none
        telemetry := updateResponseTime (sizeSub s.simTime (s.jobs j).arrivalTime)
          (s.devices dev).telemetry }
    faults :=
      if s.simTime < (s.jobs j).arrivalTime then s.faults ++ [.responseTime dev j] else s.faults }

/-- Remove the current job from a device and collect its telemetry. -/
def removeJob (dev : Dev) (s : State) : Option State := do
  let job ← (s.devices dev).currentJob
  let next ← popQueue (s.devices dev).queue
  some (s.leave dev job next)

def removeJobFromDisk (i : Fin 2) : State → Option State := removeJob (.disk i)

def removeJobFromCPU : State → Option State := removeJob .cpu

/-- `push_queue(&queue, job, job->arrivalTime)` and its log line. -/
@[simps -fullyApplied] def State.pushJob (s : State) (dev : Dev) (j : ℕ) : State :=
  { s with
    devices := Function.update s.devices dev
      { s.devices dev with
        queue := pushQueue (s.devices dev).queue j (toInt (s.jobs j).arrivalTime) }
    events := s.events ++ [(s.simTime, .arrivedAt dev j)] }

def arriveAtDisk (j : ℕ) (i : Fin 2) (s : State) : State :=
  let (burst, s) := myrandom env .arriveAtDisk (toInt (env.conf.diskMin i)) (toInt env.conf.disk1Max) s
  (s.setJob j ⟨s.simTime, toSize burst⟩).pushJob (.disk i) j

def arriveAtCPU (j : ℕ) (s : State) : State :=
  (s.setJob j { s.jobs j with arrivalTime := s.simTime }).pushJob .cpu j

/-- `push_queue_end(&cpu.queue, job)` and its log line. -/
@[simps -fullyApplied] def State.pushEnd (s : State) (i : Fin 2) (j : ℕ) : State :=
  { s with
    devices := Function.update s.devices .cpu
      { s.devices .cpu with queue := pushQueueEnd (s.devices .cpu).queue j }
    events := s.events ++ [(s.simTime, .returnedFrom i j)] }

def returnFromDisk (j : ℕ) (i : Fin 2) (s : State) : Option State := do
  let s ← removeJobFromDisk i s
  some (s.pushEnd i j)

/-- The job becomes the current one of the device. -/
@[simps -fullyApplied] def State.enter (s : State) (dev : Dev) (j : ℕ) : State :=
  { s with
    devices := Function.update s.devices dev { s.devices dev with currentJob := some j }
    events := s.events ++ [(s.simTime, .entered dev j (s.jobs j).burstTime)] }

def cpuEnter (j : ℕ) (s : State) : State := s.enter .cpu j

def diskEnter (j : ℕ) (i : Fin 2) (s : State) : State := s.enter (.disk i) j

/-- The job `j` has been terminated, and `next` is what is left of the queue of the CPU. -/
@[simps -fullyApplied] def State.kill (s : State) (j : ℕ) (next : List (Node ℕ)) : State :=
  { s with
    devices := Function.update s.devices .cpu
      { s.devices .cpu with queue := next, currentJob := none }
    events := s.events ++ [(s.simTime, .terminated j)] }

def killJob (j : ℕ) (s : State) : Option State := do
  let next ← popQueue (s.devices .cpu).queue
  some (s.kill j next)

/-! ### User activity -/

/-- A new job, not yet arrived. -/
def generateJob (s : State) : ℕ × State :=
  let j := s.jobCount
  let s := { s with jobCount := s.jobCount + 1 }
  let (gap, s) := myrandom env .generateJob (toInt env.conf.arriveMin) (toInt env.conf.arriveMax) s
  let arrivalTime := sizeAdd s.lastArrivalTime (toSize gap)
  let (burst, s) := myrandom env .generateJob (toInt env.conf.cpuMin) (toInt env.conf.cpuMax) s
  (j, { s.setJob j ⟨arrivalTime, toSize burst⟩ with lastArrivalTime := arrivalTime })

/-- The upcoming job; if there is none, one is generated. -/
def getUpcoming (s : State) : ℕ × State :=
  match s.upcomingJob with
  | some j => (j, s)
  | none => let (j, s) := generateJob env s; (j, s.setUpcoming (some j))

def userActivity (s : State) : State :=
  let (j, s) := getUpcoming env s
  if (s.jobs j).arrivalTime ≤ s.simTime ∧ sizeQueue (s.devices .cpu).queue < queueSize .cpu then
    (arriveAtCPU j s).setUpcoming none
  else s

/-! ### The CPU -/

/-- One step of the loop of `pickBestDisk`: there is an empty slot, and the queue is the shortest so
far. -/
def betterDisk (s : State) (best : Option (Fin 2) × ℕ) (i : Fin 2) : Option (Fin 2) × ℕ :=
  let diskQueueCount := sizeQueue (s.devices (.disk i)).queue
  if sizeSub (queueSize (.disk i)) diskQueueCount ≠ 0 ∧ diskQueueCount < best.2 then
    (some i, diskQueueCount)
  else best

def pickBestDisk (s : State) : Option (Fin 2) :=
  (disks.foldl (betterDisk s) (none, 2 ^ 31 - 1)).1

/-- `job->burstTime = myrandom(conf.CPU_MIN, conf.CPU_MAX)` -/
def drawCpuBurst (j : ℕ) (s : State) : State :=
  let (burst, s) := myrandom env .cpuDetermineJob (toInt env.conf.cpuMin) (toInt env.conf.cpuMax) s
  s.setJob j { s.jobs j with burstTime := toSize burst }

/-- The deadlock branch: the finished job of the disk and the finished job of the CPU change
places. -/
def swapJobs (j cpuJob : ℕ) (i : Fin 2) (s : State) : Option State := do
  let s := drawCpuBurst env j s
  let s ← removeJobFromCPU s
  returnFromDisk j i (arriveAtDisk env cpuJob i s)

/-- One step of the loop of `cpuDetermineJob`: look at the head of the queue of a disk. -/
def checkDisk (s : State) (i : Fin 2) : Option State :=
  match (s.devices (.disk i)).queue with
  | [] => some s
  | node :: _ =>
      if (s.jobs node.val).burstTime = 0 then
        if sizeQueue (s.devices .cpu).queue < queueSize .cpu then
          returnFromDisk node.val i (drawCpuBurst env node.val s)
        else
          match (s.devices .cpu).currentJob with
          | some cpuJob =>
              if (s.jobs cpuJob).burstTime = 0 then swapJobs env node.val cpuJob i s else some s
          | none => some s
      else some s

/-- If the CPU is idle, the next job of the queue enters.  Returns false if there is none. -/
def cpuFetchNextJob (s : State) : Bool × State :=
  match (s.devices .cpu).currentJob with
  | some _ => (true, s)
  | none =>
      match (s.devices .cpu).queue with
      | [] => (false, s)
      | node :: _ => (true, cpuEnter node.val s)

/-- Returns false if the CPU is idle. -/
def cpuDetermineJob (s : State) : Option (Bool × State) := do
  let s ← disks.foldlM (checkDisk env) s
  let (fetched, s) := cpuFetchNextJob s
  if fetched then
    let job ← (s.devices .cpu).currentJob
    some (decide ((s.jobs job).burstTime ≠ 0), s)
  else some (false, s)

def jobNeedsDisk (s : State) : Bool × State :=
  let (r, s) := myrandom env .jobNeedsDisk 0 100 s
  (decide (toUInt r > env.conf.quitProb), s)

/-- The CPU computes for one unit of time; a job that has finished goes to a disk or is killed. -/
def cpuCompute (s : State) : Option State := do
  let job ← (s.devices .cpu).currentJob
  let s := s.decBurst .cpu job
  if (s.jobs job).burstTime = 0 then
    let (needsDisk, s) := jobNeedsDisk env s
    if needsDisk then
      match pickBestDisk s with
      | some bestDisk => removeJobFromCPU (arriveAtDisk env job bestDisk s)
      | none => some s -- the job stays, and waits for a swap
    else killJob job s
  else some s

/-! ### The disks -/

/-- The head of the queue enters an idle disk, unless it has finished. -/
def enterDisk (i : Fin 2) (s : State) : State :=
  match (s.devices (.disk i)).currentJob, (s.devices (.disk i)).queue with
  | none, node :: _ => if (s.jobs node.val).burstTime > 0 then diskEnter node.val i s else s
  | _, _ => s

/-- A disk computes for one unit of time, unless its job has finished. -/
def serveDisk (i : Fin 2) (s : State) : State :=
  match (s.devices (.disk i)).currentJob with
  | some job => if (s.jobs job).burstTime > 0 then s.decBurst (.disk i) job else s
  | none => s

def diskCompute (s : State) : State := disks.foldl (fun s i => serveDisk i (enterDisk i s)) s

/-! ### The loop of `simulate` -/

/-- One round of the loop. -/
def tick (s : State) : Option State := do
  let s := userActivity env s.clocked
  let (busy, s) ← cpuDetermineJob env s
  let s ← if busy then cpuCompute env s else some s
  some (recordCommonStats (diskCompute s))

/-- The state at the end of the tick `n`. -/
def ticks : ℕ → Option State
  | 0 => some init
  | n + 1 => do tick env (← ticks n)

/-- The whole simulation: the loop ends when `++simTime` exceeds `conf.FIN_TIME`. -/
def simulate : Option State := do
  let s ← ticks env env.conf.finTime
  some s.clocked

end Simulation
