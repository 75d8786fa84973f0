import SysProg.Simulation.Accounting
import SysProg.Simulation.Draws

/-!
# Service times

A service time is drawn when a job goes to a device, waits there with the job, and is used up one
unit of time after another once the job has entered.

* `Move.units`: the time that a device spends in a move; `served`: the time since a job entered;
* `Timed`: the invariant: what a job has been served and what it still needs is within the limits;
* `Round`: the moves of a tick; a device spends at most one unit of time in it;
* `ticks_services`: the theorem about all runs; `services_wrong`: another run.
-/

namespace Simulation

open CInt Tokens Runs

variable {env : Env} {s t : State} {conf : Conf}

/-! ### What a device spends on a job -/

/-- The device that spends one unit of time in a move, and the job that it serves. -/
def Move.serves : Move → Option (Dev × ℕ)
  | .work j => some (.cpu, j)
  | .send j _ => some (.cpu, j)
  | .keep j => some (.cpu, j)
  | .kill j => some (.cpu, j)
  | .serve i j => some (.disk i, j)
  | _ => none

/-- The device that a job enters. -/
def Move.enters : Move → Option Dev
  | .fetch _ => some .cpu
  | .enter i _ => some (.disk i)
  | _ => none

/-- The time that a device spends in a move. -/
def Move.units (dev : Dev) (m : Move) : ℕ := if m.serves.map Prod.fst = some dev then 1 else 0

/-- The time spent on the current job after a move, if it was `n` before. -/
def Move.spent (dev : Dev) (n : ℕ) (m : Move) : ℕ :=
  if m.enters = some dev then 0 else n + m.units dev

/-- The time that a device has spent on its current job. -/
def served (ms : List Move) (dev : Dev) : ℕ := ms.foldl (Move.spent dev) 0

theorem served_snoc (ms : List Move) (m : Move) (dev : Dev) :
    served (ms ++ [m]) dev = m.spent dev (served ms dev) := by
  rw [served, List.foldl_append]
  rfl

theorem served_le (ms : List Move) (dev : Dev) :
    served ms dev ≤ (ms.map (Move.units dev)).sum := by
  induction ms using List.reverseRecOn with
  | nil => exact le_rfl
  | append_singleton ms m ih =>
    rw [served_snoc, Move.spent, List.map_append, List.sum_append, List.map_singleton,
      List.sum_singleton]
    split_ifs <;> omega

section Spent

variable {m : Move} {dev dev' : Dev} {j : ℕ}

/-- A move in which a device is neither entered nor serves. -/
theorem Move.spent_of_ne (henters : m.enters ≠ some dev)
    (hserves : m.serves.map Prod.fst ≠ some dev) (n : ℕ) : m.spent dev n = n := by
  rw [Move.spent, if_neg henters, Move.units, if_neg hserves, Nat.add_zero]

theorem Move.enters_of_serves (h : m.serves = some (dev, j)) : m.enters = none := by
  cases m <;> simp_all [Move.serves, Move.enters]

theorem Move.spent_of_serves (h : m.serves = some (dev, j)) (n : ℕ) : m.spent dev n = n + 1 := by
  simp [Move.spent, Move.enters_of_serves h, Move.units, h]

theorem Move.spent_of_serves_ne (h : m.serves = some (dev, j)) (hne : dev' ≠ dev) (n : ℕ) :
    m.spent dev' n = n :=
  Move.spent_of_ne (by simp [Move.enters_of_serves h]) (by simpa [h] using hne.symm) n

theorem Move.spent_of_enters (h : m.enters = some dev) (n : ℕ) : m.spent dev n = 0 := by
  rw [Move.spent, if_pos h]

theorem Move.spent_of_enters_ne (h : m.enters = some dev) (hne : dev' ≠ dev) (n : ℕ) :
    m.spent dev' n = n := by
  have hserves : m.serves = none := by
    cases m <;> simp_all [Move.serves, Move.enters]
  exact Move.spent_of_ne (by simpa [h] using hne.symm) (by simp [hserves]) n

end Spent

/-- A device serves its current job. -/
theorem Step.current_of_serves {m : Move} (h : Step env s m t) {dev : Dev} {j : ℕ}
    (hserves : m.serves = some (dev, j)) : (s.devices dev).currentJob = some j := by
  cases h <;> simp only [Move.serves, Option.some.injEq, Prod.mk.injEq, reduceCtorEq] at hserves <;>
    obtain ⟨rfl, rfl⟩ := hserves <;> assumption

/-! ### The invariant -/

/-- A service of `n` units of time on the device is within its limits. -/
def Conf.Fits (conf : Conf) (dev : Dev) (n : ℕ) : Prop :=
  Within (conf.serviceMin dev) (conf.serviceMax dev) n

/-- Every service time that waits for its device is within the limits.  So is, for the devices in
`ok`, the time `c` spent on the current job, together with what the job still needs. -/
structure Timed (conf : Conf) (c : Dev → ℕ) (ok : Dev → Prop) (s : State) : Prop where
  lt : ∀ j, (s.jobs j).burstTime < 2 ^ 64
  waiting : ∀ dev, ∀ n ∈ (s.devices dev).queue, (s.devices dev).currentJob ≠ some n.val →
    conf.Fits dev (s.jobs n.val).burstTime
  current : ∀ dev, ok dev → ∀ j, (s.devices dev).currentJob = some j →
    conf.Fits dev (c dev + (s.jobs j).burstTime)
  upcoming : ∀ j, s.upcomingJob = some j → conf.Fits .cpu (s.jobs j).burstTime

section Timed

variable {c c' : Dev → ℕ} {ok ok' : Dev → Prop}

/-- **A transfer keeps the service times**, if the one drawn where the job goes is within the
limits. -/
theorem Timed.transfer {a b : Dev} {n : Node ℕ} {rest q : List (Node ℕ)} (h : Timed conf c ok s)
    (hinv : Inv env.Serves s) (ht : Transfer s t a b n rest q) (hlt : (t.jobs n.val).burstTime < 2 ^ 64)
    (hfits : conf.Fits b (t.jobs n.val).burstTime)
    (hok : ∀ dev, dev ≠ a → ok' dev → ok dev ∧ c' dev = c dev) : Timed conf c' ok' t := by
  constructor
  case lt =>
    intro k
    by_cases hk : k = n.val
    · exact hk ▸ hlt
    · rw [ht.jobs k hk]
      exact h.lt k
  case waiting =>
    intro dev m hm hne
    rcases ht.waiting hinv hm hne with ⟨rfl, heq⟩ | ⟨hm, hne, heq⟩
    · rw [heq]
      exact hfits
    · rw [heq]
      exact h.waiting dev m hm hne
  case current =>
    intro dev hdev j hj
    obtain ⟨ha, hcur, heq⟩ := ht.current_eq hinv hj
    obtain ⟨hold, hc⟩ := hok dev ha hdev
    rw [heq, hc]
    exact h.current dev hold j hcur
  case upcoming =>
    intro j hj
    rw [ht.upcomingJob] at hj
    rw [ht.jobs j (hinv.ne_of_upcoming hj (mem_ids_of_cons ht.queue))]
    exact h.upcoming j hj

/-- Only the service time of the current job of a device changes. -/
theorem Timed.reserve {dev : Dev} {j : ℕ} (h : Timed conf c ok s) (hinv : Inv env.Serves s)
    (ht : Reserve s t dev j) (hlt : (t.jobs j).burstTime < 2 ^ 64)
    (hok : ∀ dev', dev' ≠ dev → ok' dev' → ok dev' ∧ c' dev' = c dev')
    (hfits : ok' dev → conf.Fits dev (c' dev + (t.jobs j).burstTime)) : Timed conf c' ok' t := by
  have hmem := hinv.mem_ids_of_current ht.current
  constructor
  case lt =>
    intro k
    by_cases hk : k = j
    · exact hk ▸ hlt
    · rw [ht.jobs k hk]
      exact h.lt k
  case waiting =>
    intro dev' n hn hne
    rw [ht.devices] at hn hne
    rw [ht.waiting hinv hn hne]
    exact h.waiting dev' n hn hne
  case current =>
    intro dev' hdev k hk
    rw [ht.devices] at hk
    by_cases hsame : dev' = dev
    · subst hsame
      obtain rfl : j = k := Option.some.inj (ht.current.symm.trans hk)
      exact hfits hdev
    · obtain ⟨hold, hc⟩ := hok dev' hsame hdev
      rw [ht.jobs k (hinv.ne_of_mem (Ne.symm hsame) hmem (hinv.mem_ids_of_current hk)), hc]
      exact h.current dev' hold k hk
  case upcoming =>
    intro k hk
    rw [ht.upcomingJob] at hk
    rw [ht.jobs k (hinv.ne_of_upcoming hk hmem)]
    exact h.upcoming k hk

/-- The head of a queue enters the device. -/
theorem Timed.enter {dev : Dev} {n : Node ℕ} {rest : List (Node ℕ)} (h : Timed conf c ok s)
    (hq : (s.devices dev).queue = n :: rest) (hidle : (s.devices dev).currentJob = none)
    (hzero : c' dev = 0) (hother : ∀ dev', dev' ≠ dev → c' dev' = c dev') :
    Timed conf c' ok (s.enter dev n.val) where
  lt := h.lt
  waiting dev' m hm hne := by
    by_cases hsame : dev' = dev
    · subst hsame
      exact h.waiting dev' m (by simpa using hm) (by simp [hidle])
    · exact h.waiting dev' m (by simpa [hsame] using hm) (by simpa [hsame] using hne)
  current dev' hdev j hj := by
    by_cases hsame : dev' = dev
    · subst hsame
      obtain rfl : n.val = j := by simpa using hj
      rw [hzero, Nat.zero_add]
      exact h.waiting dev' n (by rw [hq]; exact List.mem_cons_self) (by simp [hidle])
    · rw [hother dev' hsame]
      exact h.current dev' hdev j (by simpa [hsame] using hj)
  upcoming := h.upcoming

/-- The current job of the CPU is terminated. -/
theorem Timed.kill {n : Node ℕ} {rest : List (Node ℕ)} (h : Timed conf c ok s) (hinv : Inv env.Serves s)
    (hq : (s.devices .cpu).queue = n :: rest) (hcur : (s.devices .cpu).currentJob = some n.val)
    (hok : ∀ dev, dev ≠ .cpu → ok' dev → ok dev ∧ c' dev = c dev) :
    Timed conf c' ok' (s.kill n.val rest) where
  lt := h.lt
  waiting dev m hm hne := by
    cases dev with
    | cpu =>
      have hm' : m ∈ rest := by simpa using hm
      refine h.waiting .cpu m (by rw [hq]; exact List.mem_cons_of_mem n hm') ?_
      rw [hcur, ne_eq, Option.some.injEq]
      exact fun e => hinv.val_not_mem_rest hq (e ▸ List.mem_map_of_mem hm')
    | disk i => exact h.waiting (.disk i) m (by simpa using hm) (by simpa using hne)
  current dev hdev j hj := by
    cases dev with
    | cpu => simp at hj
    | disk i =>
      obtain ⟨hold, hc⟩ := hok (.disk i) Dev.noConfusion hdev
      rw [hc]
      exact h.current (.disk i) hold j (by simpa using hj)
  upcoming := h.upcoming

/-- One unit of service time. -/
theorem Timed.decBurst {dev : Dev} {j : ℕ} (h : Timed conf c ok s) (hinv : Inv env.Serves s)
    (hcur : (s.devices dev).currentJob = some j) (hpos : 0 < (s.jobs j).burstTime) (hdev : ok dev)
    (hserved : c' dev = c dev + 1) (hother : ∀ dev', dev' ≠ dev → c' dev' = c dev') :
    Timed conf c' ok (s.decBurst dev j) := by
  have hburst : ((s.decBurst dev j).jobs j).burstTime = (s.jobs j).burstTime - 1 := by
    simp [sizeSub_of_le hpos (h.lt j)]
  have hlt := h.lt j
  refine h.reserve hinv (reserve_decBurst hcur hpos) (by omega)
    (fun dev' hne hok => ⟨hok, hother dev' hne⟩) fun _ => ?_
  have hsum : c' dev + ((s.decBurst dev j).jobs j).burstTime = c dev + (s.jobs j).burstTime := by
    omega
  rw [hsum]
  exact h.current dev hdev j hcur

/-- A new job is generated. -/
theorem Timed.generate (h : Timed conf c ok s) (hinv : Inv env.Serves s)
    (hfits : conf.Fits .cpu ((generateJob env s).2.jobs s.jobCount).burstTime) :
    Timed conf c ok ((generateJob env s).2.setUpcoming (some s.jobCount)) := by
  have hjobs : ∀ k, k ≠ s.jobCount →
      ((generateJob env s).2.setUpcoming (some s.jobCount)).jobs k = s.jobs k := fun k hk => by
    simp [generateJob, myrandom, hk]
  have hfresh : ∀ dev, ∀ k ∈ s.ids dev, k ≠ s.jobCount := fun dev k hk =>
    (hinv.settled.known_of_mem (i := .device dev) hk).ne
  constructor
  case lt =>
    intro k
    by_cases hk : k = s.jobCount
    · simpa [hk, generateJob, myrandom] using toSize_lt _
    · rw [hjobs k hk]
      exact h.lt k
  case waiting =>
    intro dev n hn hne
    rw [hjobs _ (hfresh dev _ (List.mem_map_of_mem hn))]
    exact h.waiting dev n hn hne
  case current =>
    intro dev hdev j hj
    rw [hjobs j (hfresh dev j (hinv.mem_ids_of_current hj))]
    exact h.current dev hdev j hj
  case upcoming =>
    intro j hj
    obtain rfl : s.jobCount = j := by simpa using hj
    exact hfits

/-- The upcoming job arrives at the CPU. -/
theorem Timed.arrive {j : ℕ} (h : Timed conf c ok s) (hinv : Inv env.Serves s)
    (hj : s.upcomingJob = some j) :
    Timed conf c ok ((arriveAtCPU j s).setUpcoming none) := by
  have hburst : ∀ k, (((arriveAtCPU j s).setUpcoming none).jobs k).burstTime =
      (s.jobs k).burstTime := fun k => by
    by_cases hk : k = j <;> simp [arriveAtCPU, hk]
  have hcurrent : ∀ dev, (((arriveAtCPU j s).setUpcoming none).devices dev).currentJob =
      (s.devices dev).currentJob := fun dev => by
    cases dev <;> simp [arriveAtCPU]
  constructor
  case lt =>
    intro k
    rw [hburst]
    exact h.lt k
  case waiting =>
    intro dev n hn hne
    rw [hburst]
    rw [hcurrent] at hne
    cases dev with
    | cpu =>
      have hmem : n ∈ pushQueue (s.devices .cpu).queue j s.simTime := by
        simpa [arriveAtCPU, hinv.toInt_simTime] using hn
      rcases (inserted_pushQueue (hinv.device .cpu).priority_le j).mem hmem with ⟨heq, -⟩ | hn
      · rw [heq]
        exact h.upcoming j hj
      · exact h.waiting .cpu n hn hne
    | disk i => exact h.waiting (.disk i) n (by simpa [arriveAtCPU] using hn) hne
  case current =>
    intro dev hdev k hk
    rw [hcurrent] at hk
    rw [hburst]
    exact h.current dev hdev k hk
  case upcoming => exact fun k hk => by simp at hk

end Timed

/-! ### The step -/

section Step

variable {random : ℕ → ℕ} {c c' : Dev → ℕ}

/-- A service time drawn with apt limits. -/
theorem Conf.Limits.fits (h : conf.Limits) {dev : Dev} (hdev : conf.AptFor dev) (random : ℕ → ℕ)
    (k : ℕ) : conf.Fits dev (toSize (intOutcome random k (toInt (conf.serviceMin dev))
      (toInt (conf.drawnMax dev)))) :=
  Apt.within ((h.min_le dev).trans_lt (h.max_lt dev)) (h.max_lt dev) hdev random k

theorem drawCpuBurst_fits (hconf : conf.Limits) (j : ℕ) (s : State) :
    conf.Fits .cpu ((drawCpuBurst (Env.ofInt conf random) j s).jobs j).burstTime := by
  have hcpu : conf.AptFor .cpu := hconf.aptFor Dev.noConfusion
  have hfits := hconf.fits hcpu random s.calls
  simpa [drawCpuBurst, myrandom, Env.ofInt, Conf.serviceMin, Conf.drawnMax] using hfits

theorem arriveAtDisk_fits (hconf : conf.Limits) {i : Fin 2} (hi : conf.AptFor (.disk i)) (j : ℕ)
    (s : State) :
    conf.Fits (.disk i) ((arriveAtDisk (Env.ofInt conf random) j i s).jobs j).burstTime := by
  have hfits := hconf.fits hi random s.calls
  simpa [arriveAtDisk, myrandom, Env.ofInt, Conf.serviceMin, Conf.drawnMax] using hfits

theorem arriveAtDisk_lt (env : Env) (j : ℕ) (i : Fin 2) (s : State) :
    ((arriveAtDisk env j i s).jobs j).burstTime < 2 ^ 64 := by
  simpa [arriveAtDisk, myrandom] using toSize_lt _

theorem drawCpuBurst_lt (env : Env) (j : ℕ) (s : State) :
    ((drawCpuBurst env j s).jobs j).burstTime < 2 ^ 64 := by
  simpa [drawCpuBurst, myrandom] using toSize_lt _

/-- The job that will return to the CPU has got its service time there. -/
theorem Timed.draw {dev : Dev} {j : ℕ} (h : Timed conf c (fun _ => True) s) (hinv : Inv env.Serves s)
    (hcur : (s.devices dev).currentJob = some j) :
    Timed conf c (· ≠ dev) (drawCpuBurst env j s) :=
  h.reserve hinv (reserve_drawCpuBurst env hcur) (drawCpuBurst_lt env j s)
    (fun _ _ _ => ⟨trivial, rfl⟩) fun hne => absurd rfl hne

/-- The job of the CPU has finished. -/
theorem Timed.finish {j : ℕ} (h : Timed conf c (fun _ => True) s) (hinv : Inv env.Serves s)
    (hcur : (s.devices .cpu).currentJob = some j) (hpos : 0 < (s.jobs j).burstTime) :
    Timed conf c (· ≠ .cpu) (s.finished j) := by
  have hlt := h.lt j
  refine h.reserve hinv (reserve_finished hcur hpos) ?_ (fun _ _ _ => ⟨trivial, rfl⟩)
    fun hne => absurd rfl hne
  simp [State.finished, sizeSub_of_le hpos (h.lt j)]
  omega

section Moves

variable {i : Fin 2} {n : Node ℕ} {rest : List (Node ℕ)} (h : Timed conf c (fun _ => True) s)
  (hconf : conf.Limits) (hinv : Inv (Env.ofInt conf random).Serves s)
include h hconf hinv

/-- A job returns from a disk. -/
theorem Timed.back (hq : (s.devices (.disk i)).queue = n :: rest)
    (hcur : (s.devices (.disk i)).currentJob = some n.val) :
    Timed conf c (fun _ => True)
      (((drawCpuBurst (Env.ofInt conf random) n.val s).leave (.disk i) n.val rest).pushEnd i
        n.val) := by
  have hdraw := hinv.reserve (reserve_drawCpuBurst (Env.ofInt conf random) hcur)
  exact (h.draw hinv hcur).transfer hdraw (hdraw.transfer_back hq hcur) (drawCpuBurst_lt _ _ _)
    (drawCpuBurst_fits hconf n.val s) fun _ hne _ => ⟨hne, rfl⟩

/-- The finished job of a disk and the finished job of the CPU change places. -/
theorem Timed.swap (hi : conf.AptFor (.disk i)) {k : Node ℕ} {cpuRest : List (Node ℕ)}
    (hq : (s.devices (.disk i)).queue = n :: rest)
    (hcur : (s.devices (.disk i)).currentJob = some n.val)
    (hcpu : (s.devices .cpu).queue = k :: cpuRest)
    (hwait : (s.devices .cpu).currentJob = some k.val) :
    Timed conf c (fun _ => True)
      (s.swapped (Env.ofInt conf random) i n.val k.val rest cpuRest) := by
  have hdraw := hinv.reserve (reserve_drawCpuBurst (Env.ofInt conf random) hcur)
  have hsent := hdraw.transfer_swap (Env.ofInt conf random) i hcpu hwait
  -- the job of the disk has its service time on the CPU already, so the disk is left out
  have hmid : Timed conf c (· ≠ .disk i) (arriveAtDisk (Env.ofInt conf random) k.val i
      ((drawCpuBurst (Env.ofInt conf random) n.val s).leave .cpu k.val cpuRest)) :=
    (h.draw hinv hcur).transfer hdraw hsent (arriveAtDisk_lt _ _ _ _)
      (arriveAtDisk_fits hconf hi k.val _) fun _ _ hok => ⟨hok, rfl⟩
  have hinv' := hdraw.transfer hsent fun hserves => arriveAtDisk_burst hserves k.val _
  have hdev := hinv.swapping_disk (Env.ofInt conf random) hq k.val cpuRest
  have hne : n.val ≠ k.val :=
    hinv.ne_of_mem (d := .cpu) Dev.noConfusion (mem_ids_of_cons hcpu) (mem_ids_of_cons hq)
  have hburst :
      ((s.swapped (Env.ofInt conf random) i n.val k.val rest cpuRest).jobs n.val).burstTime =
        ((drawCpuBurst (Env.ofInt conf random) n.val s).jobs n.val).burstTime := by
    simp [State.swapped, arriveAtDisk, myrandom, hne]
  have hlt := drawCpuBurst_lt (Env.ofInt conf random) n.val s
  have hfits : conf.Fits .cpu
      ((drawCpuBurst (Env.ofInt conf random) n.val s).jobs n.val).burstTime :=
    drawCpuBurst_fits hconf n.val s
  rw [← hburst] at hlt hfits
  exact hmid.transfer hinv' (hinv'.transfer_back (by rw [hdev]) (by rw [hdev, hcur])) hlt hfits
    fun _ hother _ => ⟨hother, rfl⟩

/-- A finished job goes from the CPU to a disk. -/
theorem Timed.send (hi : conf.AptFor (.disk i)) (hq : (s.devices .cpu).queue = n :: rest)
    (hcur : (s.devices .cpu).currentJob = some n.val) (hpos : 0 < (s.jobs n.val).burstTime)
    (hother : ∀ dev, dev ≠ .cpu → c' dev = c dev) :
    Timed conf c' (fun _ => True)
      ((arriveAtDisk (Env.ofInt conf random) n.val i (s.finished n.val)).leave .cpu n.val rest) := by
  have hdone := hinv.reserve (reserve_finished hcur hpos)
  exact (h.finish hinv hcur hpos).transfer hdone (hdone.transfer_send (Env.ofInt conf random) i hq hcur)
    (arriveAtDisk_lt _ _ _ _) (arriveAtDisk_fits hconf hi n.val _)
    fun dev hne _ => ⟨hne, hother dev hne⟩

end Moves

/-- **A move keeps the service times within the limits**, if it draws with limits that suit it. -/
theorem Timed.step {m : Move} (h : Timed conf c (fun _ => True) s) (hconf : conf.Limits)
    (hinv : Inv (Env.ofInt conf random).Serves s) (hstep : Step (Env.ofInt conf random) s m t)
    (hm : conf.Suits m) :
    Timed conf (fun dev => m.spent dev (c dev)) (fun _ => True) t := by
  have hsame : m.enters = none → m.serves = none → (fun dev => m.spent dev (c dev)) = c :=
    fun henters hserves => funext fun dev =>
      Move.spent_of_ne (by simp [henters]) (by simp [hserves]) (c dev)
  cases hstep with
  | clock _ =>
    rw [hsame rfl rfl]
    exact ⟨h.lt, h.waiting, h.current, h.upcoming⟩
  | generate _ =>
    rw [hsame rfl rfl]
    refine h.generate hinv ?_
    have hcpu : conf.AptFor .cpu := hconf.aptFor Dev.noConfusion
    have hfits := hconf.fits hcpu random (s.calls + 1)
    simpa [generateJob, myrandom, Env.ofInt, Conf.serviceMin, Conf.drawnMax] using hfits
  | arrive hj _ =>
    rw [hsame rfl rfl]
    exact h.arrive hinv hj
  | back hq hcur _ _ =>
    rw [hsame rfl rfl]
    exact h.back hconf hinv hq hcur
  | swap hq hcur _ hcpu hwait _ =>
    rw [hsame rfl rfl]
    exact h.swap hconf hinv (hconf.aptFor_disk hm) hq hcur hcpu hwait
  | fetch hidle hq =>
    exact h.enter hq hidle (Move.spent_of_enters rfl _) fun dev hne =>
      Move.spent_of_enters_ne rfl hne _
  | @work j hcur hpos _ =>
    exact h.decBurst hinv hcur hpos trivial (Move.spent_of_serves (j := j) rfl _) fun dev hne =>
      Move.spent_of_serves_ne (j := j) rfl hne _
  | @send i n rest hq hcur hfin _ _ =>
    exact h.send hconf hinv (hconf.aptFor_disk hm) hq hcur hfin.1 fun dev hne =>
      Move.spent_of_serves_ne (j := n.val) rfl hne _
  | @keep j hcur hfin _ _ =>
    have hdec : Timed conf (fun dev => (Move.keep j).spent dev (c dev)) (fun _ => True)
        (s.decBurst .cpu j) :=
      h.decBurst hinv hcur hfin.1 trivial (Move.spent_of_serves (j := j) rfl _) fun dev hne =>
        Move.spent_of_serves_ne (j := j) rfl hne _
    exact ⟨hdec.lt, hdec.waiting, hdec.current, hdec.upcoming⟩
  | @kill n rest hq hcur hfin _ =>
    exact (h.finish hinv hcur hfin.1).kill (hinv.reserve (reserve_finished hcur hfin.1)) hq hcur
      fun dev hne _ => ⟨hne, Move.spent_of_serves_ne (j := n.val) rfl hne _⟩
  | enter hq hidle _ =>
    exact h.enter hq hidle (Move.spent_of_enters rfl _) fun dev hne =>
      Move.spent_of_enters_ne rfl hne _
  | @serve i j hcur hpos =>
    exact h.decBurst hinv hcur hpos trivial (Move.spent_of_serves (j := j) rfl _) fun dev hne =>
      Move.spent_of_serves_ne (j := j) rfl hne _
  | record =>
    rw [hsame rfl rfl]
    exact ⟨h.lt, h.waiting, h.current, h.upcoming⟩

/-- A service that is over has taken the time that was drawn for it. -/
theorem Timed.fits_of_finishes {m : Move} {dev : Dev} {j : ℕ}
    (h : Timed conf c (fun _ => True) s) (hstep : Step env s m t)
    (hserves : m.serves = some (dev, j)) (hfin : s.Finishes j) : conf.Fits dev (m.spent dev (c dev)) := by
  have hcur := hstep.current_of_serves hserves
  have hone : (s.jobs j).burstTime = 1 := by
    have hzero := hfin.2
    rw [sizeSub_of_le hfin.1 (h.lt j)] at hzero
    have := hfin.1
    omega
  have hfits := h.current dev trivial j hcur
  rwa [hone, ← Move.spent_of_serves hserves] at hfits

end Step

/-! ### Runs -/

theorem timed_init (conf : Conf) : Timed conf (served []) (fun _ => True) init := by
  constructor <;> simp [init]

/-- In every run of moves that draw with suitable limits, the service times are within the limits
of the devices. -/
theorem timed_run {random : ℕ → ℕ} (hconf : conf.Limits) {ms : List Move}
    (hrun : Run (Step (Env.ofInt conf random)) init ms s) (hms : ∀ m ∈ ms, conf.Suits m) :
    Timed conf (served ms) (fun _ => True) s := by
  have h0 : Inv (Env.ofInt conf random).Serves init ∧ Timed conf (served []) (fun _ => True) init :=
    ⟨inv_init _, timed_init conf⟩
  have hall := Run.trace (P := fun seen u => Inv (Env.ofInt conf random).Serves u ∧
    Timed conf (served seen) (fun _ => True) u) (fun seen u m v hu hstep => ?_) h0
      (hrun.restrict hms)
  · rw [List.nil_append] at hall
    exact hall.2
  · have hnext : served (seen ++ [m]) = fun dev => m.spent dev (served seen dev) :=
      funext fun dev => served_snoc seen m dev
    rw [hnext]
    exact ⟨hu.1.step hstep.1, hu.2.step hconf hu.1 hstep.1 hstep.2⟩

/-- No call of `myrandom` divides by zero, and each service that is over has taken as long as the
limits of the device say. -/
structure Regular (env : Env) (ms : List Move) : Prop where
  defined : ∀ m ∈ ms, ∀ c ∈ m.draws env.conf, divisor c.low c.high ≠ 0
  service : ∀ pre m post, ms = pre ++ m :: post → ∀ u v, Run (Step env) init pre u →
    Step env u m v → ∀ dev j, m.serves = some (dev, j) → u.Finishes j →
      env.conf.serviceMin dev ≤ served (pre ++ [m]) dev ∧
        served (pre ++ [m]) dev ≤ env.conf.serviceMax dev

/-- The moves of a tick: no device spends more than one unit of time. -/
def Round (env : Env) (s : State) (ms : List Move) (t : State) : Prop :=
  tick env s = some t ∧ Run (Step env) s ms t ∧ ∀ dev, (ms.map (Move.units dev)).sum ≤ 1

/-- The CPU and the disks are served once each. -/
theorem priced_units (dev : Dev) : Priced (Move.units dev) (fun _ => 0)
    (if .cpu = dev then 1 else 0) (fun i => if .disk i = dev then 1 else 0) where
  clock := rfl
  generate := rfl
  arrive _ := rfl
  back _ _ := le_rfl
  swap _ _ _ := le_rfl
  fetch _ := rfl
  compute m hm := by
    rcases hm with ⟨j, rfl | ⟨i, rfl⟩ | rfl | rfl⟩ <;> simp [Move.units, Move.serves]
  enter _ _ := rfl
  serve i j := by simp [Move.units, Move.serves]
  record := rfl

theorem Inv.exists_round (h : Inv env.Serves s) (hclock : s.simTime + 1 < 2 ^ 31)
    (ht : tick env s = some t) : ∃ ms, Round env s ms t := by
  obtain ⟨ms, hrun, -, hcost⟩ := h.run_of_tick hclock ht
  refine ⟨.clock :: ms, ht, hrun, fun dev => (hcost _ _ _ _ (priced_units dev)).trans ?_⟩
  -- the devices are different ones
  cases dev with
  | cpu => simp
  | disk i =>
    have hi : i = 0 ∨ i = 1 := by omega
    rcases hi with rfl | rfl <;> decide

/-- The ticks of the simulation are rounds. -/
theorem exists_rounds (hfin : env.conf.finTime < 2 ^ 31) {n : ℕ} (hn : n ≤ env.conf.finTime)
    (hs : ticks env n = some s) : ∃ mss, mss.length = n ∧ Run (Round env) init mss s := by
  obtain ⟨mss, hlen, hrounds, -⟩ := exists_run_of_ticks (r := Round env)
    (fun u t hinv hclock ht => by
      obtain ⟨ms, hround⟩ := hinv.exists_round hclock ht
      exact ⟨ms, hround.2.1, hround⟩) (hn.trans_lt hfin) hs
  exact ⟨mss, hlen, hrounds⟩

/-- The time that a device spends in a run of rounds. -/
theorem units_rounds_le {mss : List (List Move)} (hrun : Run (Round env) s mss t) (dev : Dev) :
    (mss.flatten.map (Move.units dev)).sum ≤ mss.length := by
  induction hrun with
  | nil => exact le_rfl
  | cons hround _ ih =>
    have hone := hround.2.2 dev
    rw [List.flatten_cons, List.map_append, List.sum_append, List.length_cons]
    omega

/-- **Service times.** The ticks of the simulation are rounds; in every run of rounds whose moves
draw with suitable limits, no call of `myrandom` divides by zero, and each service that is over has
taken as long as the limits of the device say. -/
theorem ticks_services {random : ℕ → ℕ} (hconf : conf.Limits) {n : ℕ} (hn : n ≤ conf.finTime)
    (hs : ticks (Env.ofInt conf random) n = some s) :
    (∃ mss, mss.length = n ∧ Run (Round (Env.ofInt conf random)) init mss s) ∧
      ∀ mss, mss.length = n → Run (Round (Env.ofInt conf random)) init mss s →
        (∀ m ∈ mss.flatten, conf.Suits m) → Regular (Env.ofInt conf random) mss.flatten := by
  refine ⟨exists_rounds hconf.finTime hn hs, fun mss hlen hrun hsuits => ?_⟩
  constructor
  case defined => exact fun m hm => (hsuits m hm).divisor_ne_zero hconf
  case service =>
    intro pre m post heq u v hpre hstep dev j hserves hfin
    have hlast : Timed conf (served pre) (fun _ => True) u :=
      timed_run hconf hpre fun m' hm' => hsuits m' (by rw [heq]; exact List.mem_append_left _ hm')
    have hfits := hlast.fits_of_finishes hstep hserves hfin
    rw [← served_snoc] at hfits
    refine hfits ?_
    -- the service is not longer than the run
    have hle := served_le (pre ++ [m]) dev
    have hunits := units_rounds_le hrun dev
    have hfin := hconf.finTime
    rw [heq] at hunits
    simp only [List.map_append, List.map_cons, List.sum_append, List.sum_cons, List.map_nil,
      List.sum_nil] at hle hunits
    omega

theorem confTxt_limits : confTxt.Limits := by
  constructor <;> decide

theorem confTxt_suits (m : Move) : confTxt.Suits m := by
  have hapt : confTxt.AptFor (.disk 1) := by decide
  cases m with
  | generate => exact (by decide : (150 + 1) % 2 ^ 32 ≠ 1 % 2 ^ 32)
  | swap i j k => exact fun _ => hapt
  | send j i => exact fun _ => hapt
  | _ => trivial

/-- In tick 16 job `0` comes back from disk 1, where it has been served for 15 units of time. -/
theorem ticks_services_returned : ∃ s mss,
    ticks (Env.ofInt confTxt fun k => if k = 2 then 100 else 0) 16 = some s ∧
      (16, .returnedFrom 0 0) ∈ s.events ∧ mss.length = 16 ∧
      Run (Round (Env.ofInt confTxt fun k => if k = 2 then 100 else 0)) init mss s ∧
      Regular (Env.ofInt confTxt fun k => if k = 2 then 100 else 0) mss.flatten := by
  have hlog : ((ticks (Env.ofInt confTxt fun k => if k = 2 then 100 else 0) 16).map fun s =>
      decide ((16, .returnedFrom 0 0) ∈ s.events)) = some true := by
    decide +kernel
  obtain ⟨s, hs, hmem⟩ := Option.map_eq_some_iff.1 hlog
  obtain ⟨⟨mss, hlen, hrun⟩, hall⟩ := ticks_services confTxt_limits (by decide : 16 ≤ 100000) hs
  exact ⟨s, mss, hs, of_decide_eq_true hmem, hlen, hrun,
    hall mss hlen hrun fun m _ => confTxt_suits m⟩

/-! ### Two disks that are not alike -/

/-- A service on the second disk takes one unit of time, one on the first disk up to three. -/
def confQuick : Conf where
  finTime := 100
  arriveMin := 1
  arriveMax := 5
  quitProb := 0
  cpuMin := 1
  cpuMax := 1
  disk1Min := 1
  disk1Max := 3
  disk2Min := 1
  disk2Max := 1

/-- Jobs `0` and `1` arrive in the first two ticks, and get three and two units on their disks. -/
def quickRandom (k : ℕ) : ℕ := if k = 3 then 2 else if k = 0 ∨ k = 4 then 0 else 1

/-- Job `0` keeps the first disk busy, so that job `1` goes to the second one. -/
def quickRounds : List (List Move) := [
  [.clock, .generate, .arrive 0, .fetch 0, .send 0 0, .enter 0 0, .serve 0 0, .record],
  [.clock, .generate, .arrive 1, .fetch 1, .send 1 1, .serve 0 0, .enter 1 1, .serve 1 1, .record]]

/-- In the third tick the service of job `1` is over. -/
theorem quick_run : ∃ s u v t, ticks (Env.ofInt confQuick quickRandom) 3 = some t ∧
    Run (Round (Env.ofInt confQuick quickRandom)) init quickRounds s ∧
    Run (Step (Env.ofInt confQuick quickRandom)) s [.clock, .generate, .serve 0 0] u ∧
    Step (Env.ofInt confQuick quickRandom) u (.serve 1 1) v ∧ u.Finishes 1 ∧
    Run (Step (Env.ofInt confQuick quickRandom)) v [.record] t ∧
    tick (Env.ofInt confQuick quickRandom) s = some t := by
  refine ⟨_, _, _, _, ?_, .cons ⟨?_, .cons (.clock (by decide)) (.cons (.generate rfl)
    (.cons (.arrive rfl (by decide))
    (.cons (.fetch (n := ⟨0, toInt 1⟩) rfl rfl)
    (.cons (.send (n := ⟨0, toInt 1⟩) rfl rfl ⟨by decide +kernel, by decide +kernel⟩
      (by decide +kernel) (by decide +kernel))
    (.cons (.enter (n := ⟨0, toInt 1⟩) rfl rfl (by decide +kernel))
    (.cons (.serve rfl (by decide +kernel)) (.cons .record (.nil _)))))))), ?_⟩
    (.cons ⟨?_, .cons (.clock (by decide)) (.cons (.generate rfl)
    (.cons (.arrive rfl (by decide +kernel))
    (.cons (.fetch (n := ⟨1, toInt 2⟩) rfl rfl)
    (.cons (.send (n := ⟨1, toInt 2⟩) rfl rfl ⟨by decide +kernel, by decide +kernel⟩
      (by decide +kernel) (by decide +kernel))
    (.cons (.serve rfl (by decide +kernel))
    (.cons (.enter (n := ⟨1, toInt 2⟩) rfl rfl (by decide +kernel))
    (.cons (.serve rfl (by decide +kernel)) (.cons .record (.nil _))))))))), ?_⟩ (.nil _)),
    .cons (.clock (by decide)) (.cons (.generate rfl) (.cons (.serve rfl (by decide +kernel))
      (.nil _))), .serve rfl (by decide +kernel), ⟨by decide +kernel, by decide +kernel⟩,
    .cons .record (.nil _), ?_⟩
  · rfl
  · rfl
  · decide
  · rfl
  · decide
  · rfl

/-- A job that has come to a disk has had its service time drawn. -/
theorem exists_draw_of_arrived {ms : List Move} {i : Fin 2} {e : ℕ × Event} {j : ℕ}
    (hrun : Run (Step env) s ms t) (he : e.2 = .arrivedAt (.disk i) j) (hin : e ∈ t.events)
    (hnew : e ∉ s.events) :
    ∃ m ∈ ms, env.conf.serviceDraw .arriveAtDisk (.disk i) ∈ m.draws env.conf := by
  induction hrun with
  | nil => exact absurd hin hnew
  | @cons s u t m ms hstep _ ih =>
    by_cases hu : e ∈ u.events
    · refine ⟨m, List.mem_cons_self, ?_⟩
      rw [hstep.events, List.mem_append] at hu
      obtain ⟨e', hlog, rfl⟩ := List.mem_map.1 (hu.resolve_left hnew)
      obtain rfl : e' = .arrivedAt (.disk i) j := he
      cases m <;> simp_all [Move.log, Move.draws]
    · obtain ⟨m', hm', hdraw⟩ := ih hin hu
      exact ⟨m', List.mem_cons_of_mem _ hm', hdraw⟩

/-- Each service on the second disk takes longer than any on the first one. -/
def confSlow : Conf := { confTxt with disk2Min := 51, disk2Max := 100 }

/-- Job `0` keeps the first disk busy when job `1` is sent to a disk. -/
def slowRandom (k : ℕ) : ℕ := if k = 2 ∨ k = 6 then 100 else 0

/-- The simulation is a run of rounds, and not regular. -/
def Irregular (env : Env) (n : ℕ) : Prop :=
  ∃ s mss, ticks env n = some s ∧ mss.length = n ∧ Run (Round env) init mss s ∧
    ¬Regular env mss.flatten

/-- The service of job `1` on the second disk takes two units of time. -/
theorem irregular_quick : Irregular (Env.ofInt confQuick quickRandom) 3 := by
  obtain ⟨s, u, v, t, ht, hrounds, hrun, hserve, hfin, hlast, htick⟩ := quick_run
  have hround : Round (Env.ofInt confQuick quickRandom) s
      ([.clock, .generate, .serve 0 0] ++ .serve 1 1 :: [.record]) t :=
    ⟨htick, hrun.append (.cons hserve hlast), by decide⟩
  refine ⟨t, quickRounds ++ [_], ht, rfl, hrounds.snoc hround, fun hregular => ?_⟩
  have hflat : Run (Step (Env.ofInt confQuick quickRandom)) init quickRounds.flatten s :=
    (hrounds.mono fun _ _ _ hround => hround.2.1).flatten
  have hservice := hregular.service (quickRounds.flatten ++ [.clock, .generate, .serve 0 0])
    (.serve 1 1) [.record] rfl u v (hflat.append hrun) hserve (.disk 1) 1 rfl hfin
  exact absurd hservice.2 (by decide)

/-- The service time of job `1` is drawn between `51` and the upper limit `50` of the first disk. -/
theorem irregular_slow : Irregular (Env.ofInt confSlow slowRandom) 2 := by
  have hlog : ((ticks (Env.ofInt confSlow slowRandom) 2).map fun s =>
      decide ((2, .arrivedAt (.disk 1) 1) ∈ s.events)) = some true := by
    decide +kernel
  obtain ⟨s, hs, hmem⟩ := Option.map_eq_some_iff.1 hlog
  obtain ⟨mss, hlen, hrun⟩ := exists_rounds (by decide : 100000 < 2 ^ 31)
    (by decide : 2 ≤ 100000) hs
  refine ⟨s, mss, hs, hlen, hrun, fun hregular => ?_⟩
  have hflat : Run (Step (Env.ofInt confSlow slowRandom)) init mss.flatten s :=
    (hrun.mono fun _ _ _ hround => hround.2.1).flatten
  obtain ⟨m, hm, hdraw⟩ := exists_draw_of_arrived hflat rfl (of_decide_eq_true hmem)
    List.not_mem_nil
  exact hregular.defined m hm _ hdraw (by decide)

/-- **Wrong service times.** `arriveAtDisk` draws for both disks with the upper limit of the first
one.  A service on the second disk takes longer than its limits say; if they are higher than those
of the first disk, there may be a division by zero. -/
theorem services_wrong : (confQuick.Limits ∧ confQuick.Suits .generate ∧
      Irregular (Env.ofInt confQuick quickRandom) 3) ∧
    confSlow.Limits ∧ confSlow.Suits .generate ∧ Irregular (Env.ofInt confSlow slowRandom) 2 := by
  have hquick : confQuick.Limits := by constructor <;> decide
  have hslow : confSlow.Limits := by constructor <;> decide
  exact ⟨⟨hquick, (by decide : (5 + 1) % 2 ^ 32 ≠ 1 % 2 ^ 32), irregular_quick⟩, hslow,
    (by decide : (150 + 1) % 2 ^ 32 ≠ 1 % 2 ^ 32), irregular_slow⟩

end Simulation
