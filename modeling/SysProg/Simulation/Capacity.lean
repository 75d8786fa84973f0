import SysProg.Simulation.Deadlock

/-!
# The capacity of the queues

At the end of every tick, and between any two moves, no queue is longer than its device allows, and
`maxQueueSize` has never seen a longer one.  Inside of a swap the queue of the disk is too long by
one (`ticks_capacity`).
-/

namespace Simulation

open CInt Tokens Runs

variable {env : Env} {s t : State}

/-- The states inside of a move, between two operations on queues. -/
inductive Inside (env : Env) (s : State) : Move → State → Prop
  | back {i : Fin 2} {n : Node ℕ} {rest : List (Node ℕ)} :
      (s.devices (.disk i)).queue = n :: rest →
      Inside env s (.back i n.val) ((drawCpuBurst env n.val s).leave (.disk i) n.val rest)
  | send {j : ℕ} {i : Fin 2} : Inside env s (.send j i) (arriveAtDisk env j i (s.finished j))
  | swapLeft {i : Fin 2} {j : ℕ} {m : Node ℕ} {cpuRest : List (Node ℕ)} :
      (s.devices .cpu).queue = m :: cpuRest →
      Inside env s (.swap i j m.val) ((drawCpuBurst env j s).leave .cpu m.val cpuRest)
  | swapArrived {i : Fin 2} {j : ℕ} {m : Node ℕ} {cpuRest : List (Node ℕ)} :
      (s.devices .cpu).queue = m :: cpuRest →
      Inside env s (.swap i j m.val)
        (arriveAtDisk env m.val i ((drawCpuBurst env j s).leave .cpu m.val cpuRest))
  | swapReturned {i : Fin 2} {n m : Node ℕ} {rest cpuRest : List (Node ℕ)} :
      (s.devices (.disk i)).queue = n :: rest → (s.devices .cpu).queue = m :: cpuRest →
      Inside env s (.swap i n.val m.val)
        ((arriveAtDisk env m.val i ((drawCpuBurst env n.val s).leave .cpu m.val cpuRest)).leave
          (.disk i) n.val (insertNode ⟨m.val, s.simTime⟩ rest))

/-- A queue is too long by one: that of the disk of a swap. -/
def OverByOne (m : Move) (dev : Dev) (length : ℕ) : Prop :=
  (∃ i j k, m = .swap i j k ∧ dev = .disk i) ∧ length = queueSize dev + 1

/-- What a move does to the lengths of the queues. -/
structure Fits (env : Env) (s : State) (m : Move) (t : State) : Prop where
  before : Short s
  after : Short t
  inside : ∀ u, Inside env s m u → ∀ dev, (u.devices dev).queue.length ≤ queueSize dev ∨
    OverByOne m dev (u.devices dev).queue.length
  full : ∀ j, t.Waiting j → s.Waiting j ∨
    ∀ i, (t.devices (.disk i)).queue.length = queueSize (.disk i)

/-- Inside of a move only the queue of the disk of a swap can be too long. -/
theorem Short.inside {m : Move} {u : State} (hs : Short s) (hstep : Step env s m t)
    (hu : Inside env s m u) (dev : Dev) : (u.devices dev).queue.length ≤ queueSize dev ∨
      OverByOne m dev (u.devices dev).queue.length := by
  have hle := hs dev
  cases hu with
  | @back i n rest hq =>
    left
    by_cases hdev : dev = .disk i
    · subst hdev
      simpa using (hs.tail_lt hq).le
    · simpa [drawCpuBurst, myrandom, hdev] using hle
  | @send j i =>
    left
    cases hstep with
    | @send _ n rest _ _ _ _ hbest =>
      have hshort : Short (s.finished n.val) := hs
      by_cases hdev : dev = .disk i
      · subst hdev
        simpa [arriveAtDisk, myrandom] using hshort.lt_of_pickBestDisk hbest
      · simpa [arriveAtDisk, myrandom, hdev, State.finished] using hle
  | @swapLeft i j m cpuRest hcpu =>
    left
    by_cases hdev : dev = .cpu
    · subst hdev
      simpa using (hs.tail_lt hcpu).le
    · simpa [drawCpuBurst, myrandom, hdev] using hle
  | @swapArrived i j m cpuRest hcpu =>
    by_cases hdev : dev = .disk i
    · -- the job of the CPU has joined the queue, and the head is still there
      subst hdev
      have hlen : ((arriveAtDisk env m.val i ((drawCpuBurst env j s).leave .cpu m.val
          cpuRest)).devices (.disk i)).queue.length = (s.devices (.disk i)).queue.length + 1 := by
        simp [arriveAtDisk, drawCpuBurst, myrandom]
      rw [hlen]
      rcases hle.lt_or_eq with hlt | heq
      · exact Or.inl hlt
      · exact Or.inr ⟨⟨i, j, m.val, rfl, rfl⟩, by rw [heq]⟩
    · left
      by_cases hcpudev : dev = .cpu
      · subst hcpudev
        simpa [arriveAtDisk, myrandom] using (hs.tail_lt hcpu).le
      · simpa [arriveAtDisk, drawCpuBurst, myrandom, hdev, hcpudev] using hle
  | @swapReturned i n m rest cpuRest hq hcpu =>
    left
    by_cases hdev : dev = .disk i
    · subst hdev
      simpa [(insertNode_perm _ rest).length_eq] using hs.tail_lt hq
    · by_cases hcpudev : dev = .cpu
      · subst hcpudev
        simpa [arriveAtDisk, myrandom] using (hs.tail_lt hcpu).le
      · simpa [arriveAtDisk, drawCpuBurst, myrandom, hdev, hcpudev] using hle

/-- **Every move fits.** -/
theorem Inv.fits {m : Move} (h : Inv env.Serves s) (hcpu : env.Serves .cpu) (hs : Short s)
    (hstep : Step env s m t) : Fits env s m t where
  before := hs
  after := hs.step hstep
  inside _ hu := hs.inside hstep hu
  full j hj := by
    rcases hstep.waiting h hcpu hj with hwait | rfl
    · exact Or.inl hwait
    · exact Or.inr (hs.full_of_keep hstep)

/-! ### The longest queue seen -/

/-- `maxQueueSize` is within the capacity. -/
def Recorded (s : State) : Prop := ∀ dev, (s.devices dev).telemetry.maxQueueSize ≤ queueSize dev

/-- Only `recordCommonStats` writes `maxQueueSize`. -/
theorem Step.maxQueueSize {m : Move} (hstep : Step env s m t) (hm : m ≠ .record) (dev : Dev) :
    (t.devices dev).telemetry.maxQueueSize = (s.devices dev).telemetry.maxQueueSize := by
  cases hstep with
  | record => exact absurd rfl hm
  | clock => rfl
  | generate => rfl
  | arrive => cases dev <;> simp [arriveAtCPU]
  | @back i =>
    cases dev with
    | cpu => simp [drawCpuBurst, myrandom]
    | disk i' => by_cases hi : i' = i <;> simp [drawCpuBurst, myrandom, updateResponseTime, hi]
  | @swap i =>
    cases dev with
    | cpu => simp [State.swapped, arriveAtDisk, drawCpuBurst, myrandom, updateResponseTime]
    | disk i' =>
      by_cases hi : i' = i <;>
        simp [State.swapped, arriveAtDisk, drawCpuBurst, myrandom, updateResponseTime, hi]
  | fetch => cases dev <;> simp [cpuEnter]
  | work => rfl
  | @send i =>
    cases dev with
    | cpu => simp [arriveAtDisk, myrandom, updateResponseTime, State.finished]
    | disk i' => by_cases hi : i' = i <;> simp [arriveAtDisk, myrandom, State.finished, hi]
  | keep => rfl
  | kill => cases dev <;> simp [State.finished]
  | @enter i => by_cases hdev : dev = .disk i <;> simp [diskEnter, hdev]
  | serve => rfl

theorem Recorded.step {m : Move} (hr : Recorded s) (hs : Short s) (hstep : Step env s m t) :
    Recorded t := by
  intro dev
  by_cases hm : m = .record
  · subst hm
    cases hstep
    have hle := hs dev
    have hmax := hr dev
    show (if (s.devices dev).queue.length > (s.devices dev).telemetry.maxQueueSize then
      (s.devices dev).queue.length else (s.devices dev).telemetry.maxQueueSize) ≤ queueSize dev
    split
    · exact hle
    · exact hmax
  · rw [hstep.maxQueueSize hm]
    exact hr dev

/-! ### Runs -/

/-- The moves of a run, each of which fits. -/
theorem Inv.run_fits {ms : List Move} (h : Inv env.Serves s) (hcpu : env.Serves .cpu) (hs : Short s)
    (hrun : Run (Step env) s ms t) :
    Run (fun u m v => Step env u m v ∧ Fits env u m v) s ms t := by
  induction hrun with
  | nil s => exact .nil s
  | cons hstep _ ih => exact .cons ⟨hstep, h.fits hcpu hs hstep⟩ (ih (h.step hstep) (hs.step hstep))

/-- **Queue capacity.** At the end of every tick no queue is longer than its device allows, and
`maxQueueSize` never was.  So it is before and after each of the moves that lead there; inside of a
swap the queue of the disk may be too long by one.  A finished job is first left waiting only when
both disks are full. -/
theorem ticks_capacity (hconf : env.conf.Positive) (hrand : env.InRange) {n : ℕ}
    (hn : n ≤ env.conf.finTime) : ∃ s ms, ticks env n = some s ∧ Short s ∧ Recorded s ∧
      Run (fun u m v => Step env u m v ∧ Fits env u m v) init ms s := by
  have hserves := hrand.serves hconf
  obtain ⟨s, ms, hs, hrun, -, -⟩ :=
    ticks_run (fun i => hserves (.disk i)) hconf.finTime hn
  have hshort : Short init := fun dev => Nat.zero_le _
  have hfinal := hrun.invariant (P := fun u => Short u ∧ Recorded u)
    (fun u m v hu hstep => ⟨hu.1.step hstep, hu.2.step hu.1 hstep⟩)
    ⟨hshort, fun dev => Nat.zero_le _⟩
  exact ⟨s, ms, hs, hfinal.1, hfinal.2, (inv_init env.Serves).run_fits (hserves .cpu) hshort hrun⟩

theorem ticks_capacity_confTxt : ∃ s ms,
    ticks (Env.ofRandom confTxt id) 100000 = some s ∧ Short s ∧ Recorded s ∧
      Run (fun u m v => Step (Env.ofRandom confTxt id) u m v ∧ Fits (Env.ofRandom confTxt id) u m v)
        init ms s :=
  ticks_capacity confTxt_positive (Env.ofRandom_inRange confTxt id) (le_refl 100000)

end Simulation
