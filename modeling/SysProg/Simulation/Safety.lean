import SysProg.Simulation.Ticks

/-!
# Safety of the simulation

`removeJobFromDisk` dereferences `currentJob`, while its callers look at the head of the queue only.
The two agree as long as no service time of zero has been drawn for a disk: then no null pointer is
dereferenced, nothing wraps around, and the current job of a device is the head of its queue
(`ticks_safe`).  A job that gets a service time of zero never enters the disk, and the next tick
dereferences the null `currentJob` (`zeroService_null`).
-/

namespace Simulation

open CInt Tokens Runs

variable {env : Env} {s t : State}

/-- The current job of each device is the head of its queue. -/
def State.HeadsOk (s : State) : Prop :=
  ∀ dev j, (s.devices dev).currentJob = some j → (s.ids dev).head? = some j

/-- A configuration whose service times may be zero. -/
structure Conf.Nonnegative (conf : Conf) : Prop where
  cpuMin : 0 ≤ toInt conf.cpuMin
  cpuMax : toInt conf.cpuMin ≤ toInt conf.cpuMax
  diskMin : ∀ i, 0 ≤ toInt (conf.diskMin i)
  diskMax : ∀ i, toInt (conf.diskMin i) ≤ toInt conf.disk1Max
  finTime : conf.finTime < 2 ^ 31

/-- The moves of a tick, each with the property `one`. -/
def TickRun (env : Env) (one : State → Move → State → Prop) (s : State) (ms : List Move)
    (t : State) : Prop :=
  tick env s = some t ∧ Run (fun u m v => Step env u m v ∧ one u m v) s ms t

/-- No service time of zero is drawn for a disk. -/
def NonzeroDraws (env : Env) (s : State) (m : Move) : Prop :=
  ∀ i z, (.disk i, z) ∈ m.drawn env s → z ≠ 0

/-- There is no fault, and the current job of each device is the head of its queue. -/
def State.Safe (s : State) : Prop := s.faults = [] ∧ s.HeadsOk

section Safe

variable {fed : Dev → Prop}

theorem Inv.safe (h : Inv fed s) : s.Safe := ⟨h.faults, fun dev => (h.device dev).head⟩

/-- The moves between two states are safe, whatever they draw. -/
theorem Inv.run_safe {ms : List Move} (h : Inv fed s) (hrun : Run (Step env) s ms t) :
    Run (fun u m v => Step env u m v ∧ u.Safe ∧ v.Safe) s ms t := by
  have hbare : Inv (fun _ => False) s := h.mono fun _ => False.elim
  clear h
  induction hrun with
  | nil s => exact .nil s
  | cons hstep _ ih =>
    have hnext := hbare.step_of_drawn hstep fun _ _ => False.elim
    exact .cons ⟨hstep, hbare.safe, hnext.safe⟩ (ih hnext)

/-- What a disk draws is not negative. -/
theorem Move.drawn_nonneg (hconf : env.conf.Nonnegative) (hrand : env.InRange) {m : Move} {i : Fin 2}
    {z : ℤ} (hz : (.disk i, z) ∈ m.drawn env s) : 0 ≤ z ∧ z < 2 ^ 31 := by
  have hrange : ∀ k, 0 ≤ env.outcome .arriveAtDisk k (toInt (env.conf.diskMin i))
        (toInt env.conf.disk1Max) ∧
      env.outcome .arriveAtDisk k (toInt (env.conf.diskMin i)) (toInt env.conf.disk1Max) < 2 ^ 31 :=
    fun k => by
      have hdraw := hrand .arriveAtDisk k _ _ (hconf.diskMax i)
      have hmin := hconf.diskMin i
      have hmax := toInt_lt env.conf.disk1Max
      omega
  cases m with
  | swap i' j k =>
    obtain ⟨rfl, rfl⟩ : i = i' ∧ z = _ := by simpa [Move.drawn] using hz
    exact hrange _
  | send j i' =>
    obtain ⟨rfl, rfl⟩ : i = i' ∧ z = _ := by simpa [Move.drawn] using hz
    exact hrange _
  | _ => simp [Move.drawn] at hz

/-- Moves that draw no service time of zero for a disk keep the invariant for the disks. -/
theorem Inv.step_of_nonzero (hconf : env.conf.Nonnegative) (hrand : env.InRange) {m : Move}
    (h : Inv (· ≠ .cpu) s) (hstep : Step env s m t) (hm : NonzeroDraws env s m) :
    Inv (· ≠ .cpu) t :=
  h.step_of_drawn hstep fun ⟨dev, z⟩ hz hdev => by
    cases dev with
    | cpu => exact absurd rfl hdev
    | disk i =>
      have hne := hm i z hz
      obtain ⟨hnonneg, hlt⟩ := Move.drawn_nonneg hconf hrand hz
      exact toSize_pos (by omega) (hlt.trans (by norm_num))

end Safe

/-- **Safety.** The ticks that complete are runs of moves.  If no move of a run of ticks draws a
service time of zero for a disk, each state in it is safe, and the next tick completes, by safe
moves. -/
theorem ticks_safe (hconf : env.conf.Nonnegative) (hrand : env.InRange) :
    (∀ n s, n ≤ env.conf.finTime → ticks env n = some s →
      ∃ mss, mss.length = n ∧ Run (TickRun env fun _ _ _ => True) init mss s) ∧
    ∀ mss s, mss.length ≤ env.conf.finTime →
      Run (TickRun env fun u m _ => NonzeroDraws env u m) init mss s →
      ticks env mss.length = some s ∧
        Run (fun u m v => Step env u m v ∧ u.Safe ∧ v.Safe) init mss.flatten s ∧ s.Safe ∧
        (mss.length < env.conf.finTime →
          ∃ t ms, TickRun env (fun u _ v => u.Safe ∧ v.Safe) s ms t) := by
  have hfin := hconf.finTime
  constructor
  · intro n s hn hs
    obtain ⟨mss, hlen, hrun, -⟩ := exists_run_of_ticks (r := TickRun env fun _ _ _ => True)
      (fun u t hinv hclock ht => by
        obtain ⟨ms, hms, -⟩ := hinv.run_of_tick hclock ht
        exact ⟨_, hms, ht, hms.mono fun _ _ _ hstep => ⟨hstep, trivial⟩⟩) (by omega) hs
    exact ⟨mss, hlen, hrun⟩
  · intro mss s hlen hrun
    have hticks := ticks_of_run (fun _ _ _ h => h.1) hrun
    have hmoves : Run (fun u m v => Step env u m v ∧ NonzeroDraws env u m) init mss.flatten s :=
      (hrun.mono fun _ _ _ h => h.2).flatten
    have hinv : Inv (· ≠ .cpu) s := hmoves.invariant
      (fun u m v hu hstep => hu.step_of_nonzero hconf hrand hstep.1 hstep.2) (inv_init _)
    refine ⟨hticks, (inv_init (· ≠ .cpu)).run_safe (hmoves.mono fun _ _ _ h => h.1), hinv.safe,
      fun hlt => ?_⟩
    obtain ⟨-, -, htime⟩ := run_of_ticks (by omega) hticks
    obtain ⟨t, ms, ht, hms, -⟩ := hinv.tick_run env (by omega) fun i => Dev.noConfusion
    exact ⟨t, _, ht, hinv.run_safe hms⟩

/-! ### Service times at the lower limit -/

/-- `conf.txt` with disks whose service times may be zero. -/
def confZero : Conf := { confTxt with disk1Min := 0, disk2Min := 0 }

theorem confZero_nonnegative : confZero.Nonnegative := by
  constructor <;> decide

/-- Job `0` gets one unit of service time on the CPU, and `30` on a disk. -/
def diskRandom (k : ℕ) : ℕ := if k < 2 then 0 else if k = 2 then 100 else 30

/-- Tick 1: the job arrives, is served, and goes to disk 1. -/
theorem diskTick_run : ∃ s,
    Run (TickRun (Env.ofRandom confZero diskRandom) fun u m _ =>
      NonzeroDraws (Env.ofRandom confZero diskRandom) u m) init
      [[.clock, .generate, .arrive 0, .fetch 0, .send 0 0, .enter 0 0, .serve 0 0, .record]] s := by
  have hnone : ∀ {m : Move} {u : State},
      (∀ d ∈ m.drawn (Env.ofRandom confZero diskRandom) u, d.2 ≠ 0) →
      NonzeroDraws (Env.ofRandom confZero diskRandom) u m := fun h i z hz => h _ hz
  refine ⟨_, .cons ⟨?_, .cons ⟨.clock (by decide), hnone nofun⟩
    (.cons ⟨.generate rfl, hnone ?_⟩
    (.cons ⟨.arrive rfl (by decide), hnone nofun⟩
    (.cons ⟨.fetch (n := ⟨0, toInt 1⟩) rfl rfl, hnone nofun⟩
    (.cons ⟨.send (n := ⟨0, toInt 1⟩) rfl rfl ⟨by decide +kernel, by decide +kernel⟩
      (by decide +kernel) (by decide +kernel), hnone (by decide +kernel)⟩
    (.cons ⟨.enter (n := ⟨0, toInt 1⟩) rfl rfl (by decide +kernel), hnone nofun⟩
    (.cons ⟨.serve rfl (by decide +kernel), hnone nofun⟩
      (.cons ⟨.record, hnone nofun⟩ (.nil _))))))))⟩ (.nil _)⟩
  · rfl
  · decide

theorem ticks_safe_diskTick : ∃ s,
    ticks (Env.ofRandom confZero diskRandom) 1 = some s ∧ s.Safe ∧
      ∃ t ms, TickRun (Env.ofRandom confZero diskRandom) (fun u _ v => u.Safe ∧ v.Safe) s ms t := by
  obtain ⟨s, hrun⟩ := diskTick_run
  obtain ⟨-, hsafe⟩ := ticks_safe confZero_nonnegative (Env.ofRandom_inRange confZero diskRandom)
  obtain ⟨hticks, -, hs, hnext⟩ := hsafe _ s (by decide) hrun
  exact ⟨s, hticks, hs, hnext (by decide)⟩

/-- **A service time of zero.** Job `0` arrives in tick 1, is served, and goes to disk 1 with the
service time `0`.  In tick 2 `removeJobFromDisk` finds no current job. -/
theorem zeroService_null : confZero.Nonnegative ∧
    (Env.ofRandom confZero fun k => if k = 2 then 100 else 0).InRange ∧ 2 ≤ confZero.finTime ∧
    (ticks (Env.ofRandom confZero fun k => if k = 2 then 100 else 0) 1).isSome ∧
    ticks (Env.ofRandom confZero fun k => if k = 2 then 100 else 0) 2 = none :=
  ⟨confZero_nonnegative, Env.ofRandom_inRange _ _, by decide, by decide +kernel,
    Option.isNone_iff_eq_none.1 (by decide +kernel)⟩

end Simulation
