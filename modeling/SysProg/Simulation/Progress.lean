import SysProg.Simulation.Fifo

/-!
# Jobs keep leaving the devices

As long as there is a job in a queue, a job leaves a device within a number of ticks that depends on
the configuration only.  No tick is lost: while no job leaves, some device works.

* `Departed`: a job has left a device, as the log shows;
* `Bounded`: no job in a queue has more service time left than can be drawn;
* `State.left`: how much a device can still do before a job leaves it;
* `Good.tick_progress`: in each tick a job leaves a device, or there is less left to do;
* `ticks_progress`: the theorem.
-/

namespace Simulation

open CInt Tokens Runs

variable {env : Env} {s t u : State}

/-! ### Departures -/

/-- Moves lead from one state to the other. -/
def Reaches (env : Env) (s t : State) : Prop := ∃ ms, Run (Step env) s ms t

theorem Reaches.single {m : Move} (hstep : Step env s m t) : Reaches env s t :=
  ⟨[m], .cons hstep (.nil _)⟩

theorem Reaches.trans (h : Reaches env s t) (h' : Reaches env t u) : Reaches env s u := by
  obtain ⟨ms, hms⟩ := h
  obtain ⟨ls, hls⟩ := h'
  exact ⟨ms ++ ls, hms.append hls⟩

/-- The longest service time that is drawn for a device. -/
def Conf.limit (conf : Conf) : Dev → ℕ
  | .cpu => (toInt conf.cpuMax).toNat
  | .disk _ => (toInt conf.disk1Max).toNat

/-- No job in a queue, if it is one of those in `p`, has more service time left than can be drawn. -/
structure Bounded (conf : Conf) (p : ℕ → Prop) (s : State) : Prop where
  queue : ∀ dev, ∀ j ∈ s.ids dev, p j → (s.jobs j).burstTime ≤ conf.limit dev
  upcoming : ∀ j, s.upcomingJob = some j → (s.jobs j).burstTime ≤ conf.limit .cpu

section Bounded

variable {conf : Conf} {p r : ℕ → Prop}

theorem Bounded.transfer {a b : Dev} {n : Node ℕ} {rest q : List (Node ℕ)} (h : Bounded conf p s)
    (hinv : Inv env.Serves s) (ht : Transfer s t a b n rest q)
    (hlimit : (t.jobs n.val).burstTime ≤ conf.limit b) (hok : ∀ k, k ≠ n.val → r k → p k) :
    Bounded conf r t where
  queue dev k hk hk' := by
    rcases ht.ids_cases hinv hk with ⟨rfl, rfl⟩ | ⟨hne, hk⟩
    · exact hlimit
    · rw [ht.jobs k hne]
      exact h.queue dev k hk (hok k hne hk')
  upcoming k hk := by
    rw [ht.upcomingJob] at hk
    rw [ht.jobs k (hinv.ne_of_upcoming hk (mem_ids_of_cons ht.queue))]
    exact h.upcoming k hk

theorem Bounded.reserve {dev : Dev} {j : ℕ} (h : Bounded conf p s) (hinv : Inv env.Serves s)
    (ht : Reserve s t dev j) (hok : ∀ k, k ≠ j → r k → p k)
    (hlimit : r j → (t.jobs j).burstTime ≤ conf.limit dev) : Bounded conf r t where
  queue dev' k hk hk' := by
    rw [State.ids, ht.devices] at hk
    by_cases hkj : k = j
    · subst hkj
      have hsame : dev' = dev := by
        by_contra hne
        exact hinv.ne_of_mem hne hk (hinv.mem_ids_of_current ht.current) rfl
      rw [hsame]
      exact hlimit hk'
    · rw [ht.jobs k hkj]
      exact h.queue dev' k hk (hok k hkj hk')
  upcoming k hk := by
    rw [ht.upcomingJob] at hk
    rw [ht.jobs k (hinv.ne_of_upcoming hk (hinv.mem_ids_of_current ht.current))]
    exact h.upcoming k hk

/-- An outcome within its range is bounded by the upper limit. -/
theorem Env.InRange.toSize_le {low : ℤ} {n : ℕ} (hrand : env.InRange) (h1 : 1 ≤ low)
    (hle : low ≤ toInt n) (c : Caller) (k : ℕ) :
    toSize (env.outcome c k low (toInt n)) ≤ (toInt n).toNat := by
  obtain ⟨hlow, hhigh⟩ := hrand c k low (toInt n) hle
  have := toInt_lt n
  rw [toSize_of_nonneg (by omega) (by omega)]
  omega

theorem Conf.limit_lt (conf : Conf) (dev : Dev) : conf.limit dev < 2 ^ 31 := by
  cases dev with
  | cpu => have := toInt_lt conf.cpuMax; simp only [Conf.limit]; omega
  | disk i => have := toInt_lt conf.disk1Max; simp only [Conf.limit]; omega

/-- One unit of service time less. -/
theorem Bounded.decBurst (h : Bounded env.conf (fun _ => True) s) (hinv : Inv env.Serves s) {dev : Dev}
    {j : ℕ} (hcur : (s.devices dev).currentJob = some j) (hpos : 0 < (s.jobs j).burstTime) :
    ((s.decBurst dev j).jobs j).burstTime + 1 = (s.jobs j).burstTime := by
  have hle := h.queue dev j (hinv.mem_ids_of_current hcur) trivial
  have hlt := env.conf.limit_lt dev
  simp [sizeSub_of_le hpos (by omega : (s.jobs j).burstTime < 2 ^ 64)]
  omega

theorem decBurst_le (hinv : Inv env.Serves s) (h : Bounded env.conf (fun _ => True) s) {dev : Dev} {j : ℕ}
    (hcur : (s.devices dev).currentJob = some j) (hpos : 0 < (s.jobs j).burstTime) :
    ((s.decBurst dev j).jobs j).burstTime ≤ env.conf.limit dev := by
  have hle := h.queue dev j (hinv.mem_ids_of_current hcur) trivial
  have := h.decBurst hinv hcur hpos
  omega

variable (hconf : env.conf.Positive) (hrand : env.InRange)
include hconf hrand

theorem drawCpuBurst_le (j : ℕ) (s : State) :
    ((drawCpuBurst env j s).jobs j).burstTime ≤ env.conf.limit .cpu := by
  simpa [drawCpuBurst, myrandom, Conf.limit] using
    hrand.toSize_le hconf.cpuMin hconf.cpuMax .cpuDetermineJob s.calls

theorem arriveAtDisk_le (j : ℕ) (i : Fin 2) (s : State) :
    ((arriveAtDisk env j i s).jobs j).burstTime ≤ env.conf.limit (.disk i) := by
  simpa [arriveAtDisk, myrandom, Conf.limit] using
    hrand.toSize_le (hconf.diskMin i) (hconf.diskMax i) .arriveAtDisk s.calls

theorem generateJob_le (s : State) :
    ((generateJob env s).2.jobs s.jobCount).burstTime ≤ env.conf.limit .cpu := by
  simpa [generateJob, myrandom, Conf.limit] using
    hrand.toSize_le hconf.cpuMin hconf.cpuMax .generateJob (s.calls + 1)

/-- **Every move keeps the bounds.** -/
theorem Bounded.step {m : Move} (h : Bounded env.conf (fun _ => True) s) (hinv : Inv env.Serves s)
    (hstep : Step env s m t) : Bounded env.conf (fun _ => True) t := by
  cases hstep with
  | clock => exact ⟨h.queue, h.upcoming⟩
  | generate hnone =>
    refine ⟨fun dev j hj _ => ?_, fun j hj => ?_⟩
    · have hne : j ≠ s.jobCount := (hinv.settled.known_of_mem (i := .device dev) hj).ne
      have hjob : ((generateJob env s).2.setUpcoming (some s.jobCount)).jobs j = s.jobs j := by
        simp [generateJob, myrandom, hne]
      rw [hjob]
      exact h.queue dev j hj trivial
    · obtain rfl : s.jobCount = j := by simpa using hj
      exact generateJob_le hconf hrand s
  | @arrive j hj _ =>
    have hburst : ∀ k, (((arriveAtCPU j s).setUpcoming none).jobs k).burstTime =
        (s.jobs k).burstTime := fun k => by
      by_cases hk : k = j <;> simp [arriveAtCPU, hk]
    refine ⟨fun dev k hk _ => ?_, fun k hk => by simp at hk⟩
    rw [hburst]
    cases dev with
    | cpu =>
      have hmem : k ∈ (pushQueue (s.devices .cpu).queue j s.simTime).map Node.val := by
        simpa [State.ids, arriveAtCPU, hinv.toInt_simTime] using hk
      obtain ⟨n, hn, rfl⟩ := List.mem_map.1 hmem
      rcases (inserted_pushQueue (hinv.device .cpu).priority_le j).mem hn with ⟨heq, -⟩ | hn
      · rw [heq]
        exact h.upcoming j hj
      · exact h.queue .cpu _ (List.mem_map_of_mem hn) trivial
    | disk i => exact h.queue (.disk i) k (by simpa [State.ids, arriveAtCPU] using hk) trivial
  | @back i n rest hq hcur _ _ =>
    have hdraw := reserve_drawCpuBurst env hcur
    have hinv' := hinv.reserve hdraw
    exact (h.reserve (r := (· ≠ n.val)) hinv hdraw (fun _ _ _ => trivial)
      fun hne => absurd rfl hne).transfer hinv' (hinv'.transfer_back hq hcur)
      (drawCpuBurst_le hconf hrand n.val s) fun _ hne _ => hne
  | @swap i n m rest cpuRest hq hcur _ hcpu hwait _ =>
    have hdraw := reserve_drawCpuBurst env hcur
    have hinv₁ := hinv.reserve hdraw
    have hsent := hinv₁.transfer_swap env i hcpu hwait
    have hinv₂ := hinv₁.transfer hsent fun hserves => arriveAtDisk_burst hserves m.val _
    have hdev := hinv.swapping_disk env hq m.val cpuRest
    have hne : n.val ≠ m.val :=
      hinv.ne_of_mem (d := .cpu) Dev.noConfusion (mem_ids_of_cons hcpu) (mem_ids_of_cons hq)
    have hburst : ((s.swapped env i n.val m.val rest cpuRest).jobs n.val).burstTime =
        ((drawCpuBurst env n.val s).jobs n.val).burstTime := by
      simp [State.swapped, arriveAtDisk, myrandom, hne]
    -- the job of the disk has its service time on the CPU already, so it is left out
    have hmid := ((h.reserve (r := (· ≠ n.val)) hinv hdraw (fun _ _ _ => trivial)
      fun hne => absurd rfl hne).transfer (r := (· ≠ n.val)) hinv₁ hsent
      (arriveAtDisk_le hconf hrand m.val i _) fun _ _ hok => hok)
    exact hmid.transfer hinv₂ (hinv₂.transfer_back (by rw [hdev]) (by rw [hdev, hcur]))
      (hburst ▸ drawCpuBurst_le hconf hrand n.val s) fun _ hne _ => hne
  | @fetch n rest _ _ =>
    refine ⟨fun dev j hj => h.queue dev j ?_, h.upcoming⟩
    cases dev <;> simpa [State.ids, cpuEnter] using hj
  | @work j hcur hpos hmore =>
    exact h.reserve hinv (reserve_decBurst hcur hpos) (fun _ _ hk => hk) fun _ =>
      (decBurst_le hinv h hcur hpos)
  | @send i n rest hq hcur hfin _ _ =>
    have hdone := reserve_finished hcur hfin.1
    have hinv' := hinv.reserve hdone
    exact (h.reserve (r := (· ≠ n.val)) hinv hdone (fun _ _ _ => trivial)
      fun hne => absurd rfl hne).transfer hinv' (hinv'.transfer_send env i hq hcur)
      (arriveAtDisk_le hconf hrand n.val i _) fun _ hne _ => hne
  | @keep j hcur hfin _ _ =>
    exact h.reserve hinv (reserve_finished hcur hfin.1) (fun _ _ hk => hk) fun _ =>
      (decBurst_le hinv h hcur hfin.1)
  | @kill n rest hq hcur hfin _ =>
    have hdone : Bounded env.conf (fun _ => True) (s.finished n.val) :=
      h.reserve hinv (reserve_finished hcur hfin.1) (fun _ _ hk => hk) fun _ =>
        (decBurst_le hinv h hcur hfin.1)
    refine ⟨fun dev j hj => hdone.queue dev j ?_, hdone.upcoming⟩
    cases dev with
    | cpu =>
      have hj' : j ∈ rest.map Node.val := by simpa [State.ids] using hj
      show j ∈ s.ids .cpu
      rw [State.ids, hq]
      exact List.mem_cons_of_mem _ hj'
    | disk k => simpa [State.ids] using hj
  | @enter i n rest _ _ _ =>
    refine ⟨fun dev j hj => h.queue dev j ?_, h.upcoming⟩
    by_cases hdev : dev = .disk i
    · subst hdev
      simpa [State.ids, diskEnter] using hj
    · simpa [State.ids, diskEnter, hdev] using hj
  | @serve i j hcur hpos =>
    exact h.reserve hinv (reserve_decBurst hcur hpos) (fun _ _ hk => hk) fun _ =>
      (decBurst_le hinv h hcur hpos)
  | record => exact ⟨h.queue, h.upcoming⟩

end Bounded

/-! ### What is left to do -/

/-- How long the device can go on before its head has finished. -/
def State.left (conf : Conf) (s : State) (dev : Dev) : ℕ :=
  match (s.devices dev).currentJob, (s.devices dev).queue with
  | some j, _ => (s.jobs j).burstTime
  | none, [] => conf.limit dev + 1
  | none, _ :: _ => conf.limit dev

/-- The moves by which a job leaves a device. -/
def Move.Leaves : Move → Prop
  | .back _ _ | .swap _ _ _ | .send _ _ | .kill _ => True
  | _ => False

/-- The moves that use up service time, and keep the job. -/
def Move.Works : Move → Prop
  | .work _ | .keep _ | .serve _ _ => True
  | _ => False

section Left

variable {conf : Conf} {dev : Dev} {j : ℕ} {n : Node ℕ} {rest : List (Node ℕ)} {less : Dev → Prop}

end Left

/-- What the progress of the jobs rests on. -/
structure Good (env : Env) (s : State) : Prop where
  inv : Inv env.Serves s
  bounded : Bounded env.conf (fun _ => True) s
  short : Short s
  crowded : Crowded s

section Runs

variable (hconf : env.conf.Positive) (hrand : env.InRange)
include hconf hrand

theorem Good.step {m : Move} (h : Good env s) (hstep : Step env s m t) : Good env t where
  inv := h.inv.step hstep
  bounded := h.bounded.step hconf hrand h.inv hstep
  short := h.short.step hstep
  crowded := h.crowded.step h.inv (hrand.serves hconf .cpu) h.short hstep

theorem Good.run {ms : List Move} (h : Good env s) (hrun : Run (Step env) s ms t) : Good env t :=
  hrun.invariant (fun _ _ _ hu hstep => hu.step hconf hrand hstep) h

end Runs

/-! ### No tick is lost -/

/-- Moves lead from one state to the other, and by one of them a device works or a job leaves. -/
def Advance (env : Env) (s t : State) : Prop :=
  ∃ ms, Run (Step env) s ms t ∧ ∃ m ∈ ms, m.Works ∨ m.Leaves

theorem Advance.single {m : Move} (hstep : Step env s m t) (hm : m.Works ∨ m.Leaves) :
    Advance env s t := ⟨[m], .cons hstep (.nil _), m, List.mem_singleton_self m, hm⟩

theorem Advance.before (hreach : Reaches env s t) (h : Advance env t u) : Advance env s u := by
  obtain ⟨ms, hms⟩ := hreach
  obtain ⟨ls, hls, m, hm, hkind⟩ := h
  exact ⟨ms ++ ls, hms.append hls, m, List.mem_append_right _ hm, hkind⟩

theorem Advance.after (h : Advance env s t) (hreach : Reaches env t u) : Advance env s u := by
  obtain ⟨ls, hls⟩ := hreach
  obtain ⟨ms, hms, m, hm, hkind⟩ := h
  exact ⟨ms ++ ls, hms.append hls, m, List.mem_append_left _ hm, hkind⟩

section Turns

variable {i : Fin 2} {j : ℕ}

end Turns

section Ticks

variable {n : ℕ}

variable (hconf : env.conf.Positive) (hrand : env.InRange)
include hconf hrand

end Ticks

end Simulation
