import SysProg.Simulation.Ticks

/-!
# A job that waits for a disk

A finished job that finds both disks full stays on the CPU.  It leaves in the deadlock branch of
`cpuDetermineJob` only, which exchanges it with a finished job of a disk.

* `Short`: no queue is longer than its device allows;
* `Crowded`: while a job waits, the three queues hold nine jobs; so the disks hold six of them;
* `Stays`, `Swapped`: what the log says about a waiting job during a tick;
* `waiting_job_swapped`: the theorem about all runs.
-/

namespace Simulation

open CInt Tokens Runs

variable {env : Env} {s t : State}

/-! ### Queue sizes -/

/-- No queue is longer than its device allows. -/
def Short (s : State) : Prop := ∀ dev, (s.devices dev).queue.length ≤ queueSize dev

theorem sizeSub_queueSize {dev : Dev} {n : ℕ} (h : n ≤ queueSize dev) :
    sizeSub (queueSize dev) n ≠ 0 ↔ n < queueSize dev := by
  have h4 : queueSize dev ≤ 4 := by cases dev <;> simp [queueSize]
  rw [ne_eq, sizeSub_eq_zero_iff (by omega) (by omega)]
  omega

/-- A step of the loop of `pickBestDisk`, for a queue that is not too long. -/
theorem Short.betterDisk_eq (h : Short s) (best : Option (Fin 2) × ℕ) (i : Fin 2) :
    betterDisk s best i =
      if (s.devices (.disk i)).queue.length < queueSize (.disk i) ∧
          (s.devices (.disk i)).queue.length < best.2 then
        (some i, (s.devices (.disk i)).queue.length)
      else best := by
  simp only [betterDisk, sizeQueue, sizeSub_queueSize (h (.disk i))]

theorem Short.lt_of_pickBestDisk (h : Short s) {i : Fin 2} (hi : pickBestDisk s = some i) :
    (s.devices (.disk i)).queue.length < queueSize (.disk i) := by
  simp only [pickBestDisk, disks, List.foldl_cons, List.foldl_nil, h.betterDisk_eq] at hi
  split_ifs at hi <;> simp_all

/-- A step of that loop that leaves no disk chosen has changed nothing. -/
theorem Short.betterDisk_eq_none (h : Short s) {best : Option (Fin 2) × ℕ} {i : Fin 2}
    (hnone : (betterDisk s best i).1 = none) : betterDisk s best i = best ∧
      ((s.devices (.disk i)).queue.length = queueSize (.disk i) ∨
        best.2 ≤ (s.devices (.disk i)).queue.length) := by
  have hle := h (.disk i)
  rw [h.betterDisk_eq] at hnone ⊢
  split_ifs at hnone ⊢ with hbest
  refine ⟨rfl, ?_⟩
  rw [not_and_or] at hbest
  omega

/-- A job is left waiting only if both disks are full. -/
theorem Short.full_of_pickBestDisk (h : Short s) (hnone : pickBestDisk s = none) (i : Fin 2) :
    (s.devices (.disk i)).queue.length = queueSize (.disk i) := by
  obtain ⟨heq₁, h₁⟩ := h.betterDisk_eq_none hnone
  have hnone₀ : (betterDisk s (none, 2 ^ 31 - 1) 0).1 = none := by
    rw [← heq₁]
    exact hnone
  obtain ⟨heq₀, h₀⟩ := h.betterDisk_eq_none hnone₀
  rw [heq₀] at h₁
  have hle₀ := h (.disk 0)
  have hle₁ := h (.disk 1)
  simp only [queueSize] at *
  have hi : i = 0 ∨ i = 1 := by omega
  rcases hi with rfl | rfl <;> omega

section Swap

variable {i : Fin 2} {j k : ℕ} {next cpuNext : List (Node ℕ)}

theorem swapped_cpu : ((s.swapped env i j k next cpuNext).devices .cpu).queue =
    pushQueueEnd cpuNext j ∧ ((s.swapped env i j k next cpuNext).devices .cpu).currentJob = none := by
  simp [State.swapped, arriveAtDisk, myrandom, drawCpuBurst]

theorem swapped_disk : ((s.swapped env i j k next cpuNext).devices (.disk i)).queue =
    insertNode ⟨k, s.simTime⟩ next := by
  simp [State.swapped, arriveAtDisk, myrandom, drawCpuBurst]

theorem swapped_other {i' : Fin 2} (hi : i' ≠ i) :
    (s.swapped env i j k next cpuNext).devices (.disk i') = s.devices (.disk i') := by
  simp [State.swapped, arriveAtDisk, myrandom, drawCpuBurst, hi]

end Swap

/-- Without its head a queue has a slot. -/
theorem Short.tail_lt {dev : Dev} {n : Node ℕ} {rest : List (Node ℕ)} (hs : Short s)
    (hq : (s.devices dev).queue = n :: rest) : rest.length < queueSize dev := by
  have hle := hs dev
  rwa [hq, List.length_cons, Nat.succ_le_iff] at hle

theorem Short.step {m : Move} (hs : Short s) (hstep : Step env s m t) : Short t := by
  cases hstep with
  | clock => exact hs
  | generate => exact hs
  | @arrive j hj hlt =>
    intro dev
    cases dev with
    | cpu => simpa [arriveAtCPU] using hlt
    | disk i => simpa [arriveAtCPU] using hs (.disk i)
  | @back i n rest hq hcur _ hlt =>
    intro dev
    cases dev with
    | cpu => simpa [drawCpuBurst, myrandom, pushQueueEnd] using hlt
    | disk i' =>
      by_cases hi : i' = i
      · subst hi
        simpa using (hs.tail_lt hq).le
      · simpa [drawCpuBurst, myrandom, hi] using hs (.disk i')
  | @swap i n m rest cpuRest hq _ _ hcpu _ _ =>
    -- each of the two queues loses its head before a job joins it
    intro dev
    cases dev with
    | cpu => simpa [swapped_cpu.1, pushQueueEnd] using hs.tail_lt hcpu
    | disk i' =>
      by_cases hi : i' = i
      · subst hi
        simpa [swapped_disk, (insertNode_perm _ rest).length_eq] using hs.tail_lt hq
      · rw [swapped_other hi]
        exact hs (.disk i')
  | fetch =>
    intro dev
    cases dev with
    | cpu => simpa [cpuEnter] using hs .cpu
    | disk i => simpa [cpuEnter] using hs (.disk i)
  | work => exact hs
  | @send i n rest hq hcur hfin _ hbest =>
    intro dev
    have hshort : Short (s.finished n.val) := hs
    cases dev with
    | cpu => simpa using (hs.tail_lt hq).le
    | disk i' =>
      by_cases hi : i' = i
      · -- `arriveAtDisk` asks for no slot, but `pickBestDisk` has found one
        subst hi
        simpa [arriveAtDisk, myrandom] using hshort.lt_of_pickBestDisk hbest
      · simpa [arriveAtDisk, myrandom, hi, State.finished] using hs (.disk i')
  | keep => exact hs
  | @kill n rest hq _ _ _ =>
    intro dev
    cases dev with
    | cpu => simpa using (hs.tail_lt hq).le
    | disk i => simpa [State.finished] using hs (.disk i)
  | @enter i n rest hq _ _ =>
    intro dev
    by_cases hdev : dev = .disk i
    · subst hdev
      simpa [diskEnter] using hs (.disk i)
    · simpa [diskEnter, hdev] using hs dev
  | serve => exact hs
  | record => exact hs

/-! ### Nine jobs -/

/-- The job `j` has finished on the CPU, and waits there for a disk. -/
def State.Waiting (s : State) (j : ℕ) : Prop :=
  (s.devices .cpu).currentJob = some j ∧ (s.jobs j).burstTime = 0

/-- While a job waits, the three queues hold nine jobs. -/
def Crowded (s : State) : Prop :=
  ∀ j, s.Waiting j → 9 ≤ (s.devices .cpu).queue.length + (s.devices (.disk 0)).queue.length +
    (s.devices (.disk 1)).queue.length

theorem not_waiting_of_idle {j : ℕ} (h : (s.devices .cpu).currentJob = none) : ¬s.Waiting j :=
  fun hj => by simp [State.Waiting, h] at hj

/-- **A job is left waiting by the decision to keep it only.** -/
theorem Step.waiting {m : Move} {j : ℕ} (h : Inv env.Serves s) (hcpu : env.Serves .cpu)
    (hstep : Step env s m t) (hj : t.Waiting j) : s.Waiting j ∨ m = .keep j := by
  cases hstep with
  | clock => exact Or.inl hj
  | generate =>
    have hne : j ≠ s.jobCount :=
      (h.settled.known_of_mem (i := .device .cpu) (h.mem_ids_of_current hj.1)).ne
    exact Or.inl ⟨hj.1, by simpa [generateJob, myrandom, hne] using hj.2⟩
  | @arrive k _ _ =>
    refine Or.inl ⟨by simpa [arriveAtCPU] using hj.1, ?_⟩
    by_cases hjk : j = k
    · simpa [arriveAtCPU, hjk] using hj.2
    · simpa [arriveAtCPU, hjk] using hj.2
  | @back i n rest hq _ _ _ =>
    have hcur : (s.devices .cpu).currentJob = some j := by
      simpa [drawCpuBurst, myrandom] using hj.1
    have hne : j ≠ n.val :=
      h.ne_of_mem (d := .disk i) Dev.noConfusion (mem_ids_of_cons hq) (h.mem_ids_of_current hcur)
    exact Or.inl ⟨hcur, by simpa [drawCpuBurst, myrandom, hne] using hj.2⟩
  | swap => exact absurd hj (not_waiting_of_idle swapped_cpu.2)
  | @fetch n rest hidle hq =>
    obtain rfl : n.val = j := by simpa [cpuEnter] using hj.1
    have hpos := h.waits .cpu hcpu n (by rw [hq]; exact List.mem_cons_self) (by simp [hidle])
    exact absurd hj.2 hpos.ne'
  | @work k hcur hpos hfin =>
    obtain rfl : k = j := Option.some.inj (hcur.symm.trans hj.1)
    exact absurd ⟨hpos, by simpa using hj.2⟩ hfin
  | send => exact absurd hj (not_waiting_of_idle (by simp))
  | keep hcur _ _ _ => exact Or.inr (congrArg Move.keep (Option.some.inj (hcur.symm.trans hj.1)))
  | kill => exact absurd hj (not_waiting_of_idle (by simp))
  | enter => exact Or.inl ⟨by simpa [diskEnter] using hj.1, hj.2⟩
  | @serve i k hcur _ =>
    have hne : j ≠ k := h.ne_of_mem (d := .disk i) Dev.noConfusion (h.mem_ids_of_current hcur)
      (h.mem_ids_of_current hj.1)
    exact Or.inl ⟨hj.1, by simpa [hne] using hj.2⟩
  | record => exact Or.inl hj

/-- The CPU keeps a finished job only if both disks are full. -/
theorem Short.full_of_keep {j : ℕ} (hs : Short s) (hstep : Step env s (.keep j) t) (i : Fin 2) :
    (t.devices (.disk i)).queue.length = queueSize (.disk i) := by
  cases hstep with
  | keep _ _ _ hnone =>
    have hshort : Short (s.finished j) := hs
    exact hshort.full_of_pickBestDisk hnone i

theorem Crowded.step {m : Move} (h : Inv env.Serves s) (hcpu : env.Serves .cpu) (hs : Short s)
    (hc : Crowded s) (hstep : Step env s m t) : Crowded t := by
  intro j hj
  rcases hstep.waiting h hcpu hj with hwait | rfl
  · have hnine := hc j hwait
    cases hstep with
    | clock => exact hnine
    | generate => exact hnine
    | arrive => exact hnine.trans (by simp [arriveAtCPU])
    | @back i n rest hq _ _ _ =>
      have hi : i = 0 ∨ i = 1 := by omega
      refine hnine.trans ?_
      rcases hi with rfl | rfl <;> simp [drawCpuBurst, myrandom, pushQueueEnd, hq] <;> omega
    | swap => exact absurd hj (not_waiting_of_idle swapped_cpu.2)
    | fetch => exact hnine.trans (by simp [cpuEnter])
    | work => exact hnine
    | send => exact absurd hj (not_waiting_of_idle (by simp))
    | keep => exact hnine
    | kill => exact absurd hj (not_waiting_of_idle (by simp))
    | @enter i n rest _ _ _ =>
      have hi : i = 0 ∨ i = 1 := by omega
      refine hnine.trans ?_
      rcases hi with rfl | rfl <;> simp [diskEnter]
    | serve => exact hnine
    | record => exact hnine
  · have h₀ := hs.full_of_keep hstep 0
    have h₁ := hs.full_of_keep hstep 1
    obtain ⟨n, rest, hq, -⟩ := ((h.step hstep).device .cpu).cons hj.1
    rw [hq, List.length_cons]
    simp only [queueSize] at h₀ h₁
    omega

/-! ### How a waiting job leaves -/

section Leaving

variable {base : List (ℕ × Event)} {j : ℕ}

/-- Since the log was `base` the job `j` has waited on the CPU. -/
structure Stays (base : List (ℕ × Event)) (j : ℕ) (s : State) : Prop where
  waiting : s.Waiting j
  log : ∃ new, s.events = base ++ new ∧
    ∀ e ∈ new, e.2 ≠ .terminated j ∧ ∀ i, e.2 ≠ .arrivedAt (.disk i) j

/-- Since the log was `base` the job `j` has left the CPU through a swap: it arrives at a disk, and
next in the log a job returns from there.  It is not terminated. -/
structure Swapped (base : List (ℕ × Event)) (j : ℕ) (s : State) : Prop where
  log : ∃ new, s.events = base ++ new ∧ (∀ e ∈ new, e.2 ≠ .terminated j) ∧
    ∃ time i k, [(time, .arrivedAt (.disk i) j), (time, .returnedFrom i k)] <:+: new

/-- The job is on the disk, and has not been served to its end. -/
structure OnDisk (j : ℕ) (s : State) : Prop where
  mem : ∃ i, j ∈ s.ids (.disk i)
  burst : 0 < (s.jobs j).burstTime

/-- The log after a move, as far as the job is concerned. -/
theorem Swapped.step {m : Move} (hsw : Swapped base j s) (hstep : Step env s m t)
    (hkill : m ≠ .kill j) : Swapped base j t := by
  obtain ⟨new, hlog, hterm, time, i, k, hswap⟩ := hsw.log
  refine ⟨new ++ (m.log s).map (Prod.mk s.simTime), by rw [hstep.events, hlog, List.append_assoc],
    fun e he => ?_, time, i, k, hswap.trans (List.prefix_append _ _).isInfix⟩
  rcases List.mem_append.1 he with he | he
  · exact hterm e he
  · obtain ⟨event, hevent, rfl⟩ := List.mem_map.1 he
    rintro rfl
    cases m <;> simp_all [Move.log]

/-- **A move of a state in which the job waits**: it goes on waiting, or it is swapped. -/
theorem Stays.step {m : Move} (h : Inv env.Serves s) (hserves : ∀ i, env.Serves (.disk i))
    (hst : Stays base j s) (hstep : Step env s m t) :
    Stays base j t ∨ (Swapped base j t ∧ OnDisk j t) := by
  obtain ⟨hcur, hzero⟩ := hst.waiting
  obtain ⟨new, hlog, hnew⟩ := hst.log
  have hmem := h.mem_ids_of_current hcur
  have hevents := hstep.events
  rw [hlog, List.append_assoc] at hevents
  -- the CPU does nothing for a job without service time left
  have hdone : ∀ {k}, (s.devices .cpu).currentJob = some k → ¬0 < (s.jobs k).burstTime :=
    fun hk hpos => by
      obtain rfl := Option.some.inj (hk.symm.trans hcur)
      exact hpos.ne' hzero
  have hstays : t.Waiting j → (∀ e ∈ m.log s, e ≠ .terminated j ∧ ∀ i, e ≠ .arrivedAt (.disk i) j) →
      Stays base j t := fun hwait hmove => by
    refine ⟨hwait, _, hevents, fun e he => ?_⟩
    rcases List.mem_append.1 he with he | he
    · exact hnew e he
    · obtain ⟨event, hevent, rfl⟩ := List.mem_map.1 he
      exact hmove event hevent
  cases hstep with
  | clock => exact Or.inl (hstays hst.waiting (by simp [Move.log]))
  | generate =>
    have hne : j ≠ s.jobCount := (h.settled.known_of_mem (i := .device .cpu) hmem).ne
    exact Or.inl (hstays ⟨hcur, by simpa [generateJob, myrandom, hne] using hzero⟩
      (by simp [Move.log]))
  | @arrive k hk _ =>
    have hne : j ≠ k := (h.ne_of_upcoming hk hmem).symm
    exact Or.inl (hstays ⟨by simpa [arriveAtCPU] using hcur, by simpa [arriveAtCPU, hne] using hzero⟩
      (by simp [Move.log]))
  | @back i n rest hq _ _ _ =>
    have hne : j ≠ n.val :=
      h.ne_of_mem (d := .disk i) Dev.noConfusion (mem_ids_of_cons hq) hmem
    exact Or.inl (hstays ⟨by simpa [drawCpuBurst, myrandom] using hcur,
      by simpa [drawCpuBurst, myrandom, hne] using hzero⟩ (by simp [Move.log]))
  | @swap i n m rest cpuRest hq _ _ hcpu hwait _ =>
    obtain rfl : m.val = j := Option.some.inj (hwait.symm.trans hcur)
    have hne : n.val ≠ m.val := h.ne_of_mem (d := .cpu) Dev.noConfusion hmem (mem_ids_of_cons hq)
    refine Or.inr ⟨⟨_, hevents, fun e he => ?_, s.simTime, i, n.val, ?_⟩, ⟨i, ?_⟩, ?_⟩
    · rcases List.mem_append.1 he with he | he
      · exact (hnew e he).1
      · simp only [Move.log, List.map_cons, List.map_nil, List.mem_cons, List.not_mem_nil,
          or_false] at he
        rcases he with rfl | rfl <;> exact fun he => Event.noConfusion he
    · exact (List.suffix_append _ _).isInfix
    · rw [State.ids, swapped_disk, ((insertNode_perm _ rest).map Node.val).mem_iff]
      exact List.mem_cons_self
    · have := arriveAtDisk_burst (hserves i) m.val ((drawCpuBurst env n.val s).leave .cpu m.val cpuRest)
      simpa [State.swapped] using this
  | fetch hidle _ => exact absurd (hidle.symm.trans hcur) (by simp)
  | work hk hpos _ => exact absurd hpos (hdone hk)
  | send _ hk hfin _ _ => exact absurd hfin.1 (hdone hk)
  | keep hk hfin _ _ => exact absurd hfin.1 (hdone hk)
  | kill _ hk hfin _ => exact absurd hfin.1 (hdone hk)
  | enter =>
    exact Or.inl (hstays ⟨by simpa [diskEnter] using hcur, hzero⟩ (by simp [Move.log]))
  | @serve i k hk _ =>
    have hne : j ≠ k := h.ne_of_mem (d := .disk i) Dev.noConfusion (h.mem_ids_of_current hk) hmem
    exact Or.inl (hstays ⟨hcur, by simpa [hne] using hzero⟩ (by simp [Move.log]))
  | record => exact Or.inl (hstays hst.waiting (by simp [Move.log]))

/-- A job on a disk is not the one that the CPU works at. -/
theorem OnDisk.ne_of_cpu (h : Inv env.Serves s) (hd : OnDisk j s) {k : ℕ} (hk : k ∈ s.ids .cpu) :
    j ≠ k := by
  obtain ⟨i, hi⟩ := hd.mem
  exact h.ne_of_mem (d := .cpu) Dev.noConfusion hk hi

theorem OnDisk.congr (hd : OnDisk j s) (hids : ∀ i, j ∈ s.ids (.disk i) → j ∈ t.ids (.disk i))
    (hburst : (t.jobs j).burstTime = (s.jobs j).burstTime) : OnDisk j t where
  mem := hd.mem.imp hids
  burst := hburst ▸ hd.burst

/-- Until a disk serves the job, it is on its disk and has service time left. -/
theorem OnDisk.step {m : Move} (h : Inv env.Serves s) (hd : OnDisk j s) (hstep : Step env s m t)
    (hserve : ∀ i, m ≠ .serve i j) : OnDisk j t := by
  have hcpu : ∀ {k}, (s.devices .cpu).currentJob = some k → j ≠ k := fun hk =>
    hd.ne_of_cpu h (h.mem_ids_of_current hk)
  -- a disk loses a job only when nothing of its service time is left, so it does not lose `j`
  cases hstep with
  | clock => exact ⟨hd.mem, hd.burst⟩
  | generate =>
    obtain ⟨i, hi⟩ := hd.mem
    have hne : j ≠ s.jobCount := (h.settled.known_of_mem (i := .device (.disk i)) hi).ne
    exact hd.congr (fun _ hi => hi) (by simp [generateJob, myrandom, hne])
  | @arrive k _ _ =>
    refine hd.congr (fun i hi => by simpa [State.ids, arriveAtCPU] using hi) ?_
    by_cases hjk : j = k
    · simp [arriveAtCPU, hjk]
    · simp [arriveAtCPU, hjk]
  | @back i n rest hq _ hfin _ =>
    have hne : j ≠ n.val := fun e => (e ▸ hd.burst).ne' hfin
    refine hd.congr (fun i' hi' => ?_) (by simp [drawCpuBurst, myrandom, hne])
    by_cases hi : i' = i
    · subst hi
      simpa [State.ids, hq, hne] using hi'
    · simpa [State.ids, drawCpuBurst, myrandom, hi] using hi'
  | @swap i n m rest cpuRest hq _ hfin _ hcur _ =>
    have hne : j ≠ n.val := fun e => (e ▸ hd.burst).ne' hfin
    have hnem : j ≠ m.val := hcpu hcur
    refine hd.congr (fun i' hi' => ?_)
      (by simp [State.swapped, arriveAtDisk, drawCpuBurst, myrandom, hne, hnem])
    by_cases hi : i' = i
    · subst hi
      rw [State.ids, swapped_disk, ((insertNode_perm _ rest).map Node.val).mem_iff, List.map_cons,
        List.mem_cons]
      exact Or.inr (by simpa [State.ids, hq, hne] using hi')
    · rwa [State.ids, swapped_other hi]
  | fetch => exact hd.congr (fun i hi => by simpa [State.ids, cpuEnter] using hi) rfl
  | work hk _ _ => exact hd.congr (fun _ hi => hi) (by simp [hcpu hk])
  | @send i n rest _ hk _ _ _ =>
    refine hd.congr (fun i' hi' => ?_) (by simp [arriveAtDisk, myrandom, State.finished, hcpu hk])
    by_cases hi : i' = i
    · subst hi
      -- another job joins the queue of the disk that `j` is on
      have hpush := (map_val_pushQueue_perm (s.devices (.disk i')).queue n.val
        (toInt s.simTime)).mem_iff (a := j)
      simpa [State.ids, arriveAtDisk, myrandom, State.finished] using
        hpush.2 (List.mem_cons_of_mem _ hi')
    · simpa [State.ids, arriveAtDisk, myrandom, State.finished, hi] using hi'
  | keep hk _ _ _ => exact hd.congr (fun _ hi => hi) (by simp [State.finished, hcpu hk])
  | kill _ hk _ _ =>
    exact hd.congr (fun i hi => by simpa [State.ids, State.finished] using hi)
      (by simp [State.finished, hcpu hk])
  | @enter i n rest _ _ _ =>
    refine hd.congr (fun i' hi' => ?_) rfl
    by_cases hi : i' = i
    · subst hi
      simpa [State.ids, diskEnter] using hi'
    · simpa [State.ids, diskEnter, hi] using hi'
  | @serve i k _ _ =>
    have hne : j ≠ k := fun e => hserve i (e ▸ rfl)
    exact hd.congr (fun _ hi => hi) (by simp [hne])
  | record => exact hd.congr (fun _ hi => hi) rfl

/-- The job of a move that terminates one is on the CPU. -/
theorem OnDisk.ne_kill {m : Move} (h : Inv env.Serves s) (hd : OnDisk j s) (hstep : Step env s m t) :
    m ≠ .kill j := by
  rintro rfl
  generalize hm : Move.kill j = m at hstep
  cases hstep <;> try exact Move.noConfusion hm
  next hk _ _ => exact hd.ne_of_cpu h (h.mem_ids_of_current hk) (Move.kill.inj hm)

end Leaving

/-! ### Runs -/

/-- Up to the CPU's part of a tick the disks do not serve anything. -/
theorem not_serve_of_phases {m : Move} {j : ℕ}
    (h : Computing m ∨ ∃ kind ∈ firstPhases, kind m) (i : Fin 2) : m ≠ .serve i j := by
  rintro rfl
  simp [Computing, firstPhases, Generating, Arriving, Checking, Fetching] at h

theorem not_kill_of_lastPhases {m : Move} {j : ℕ} (h : ∃ kind ∈ lastPhases, kind m) :
    m ≠ .kill j := by
  rintro rfl
  simp [lastPhases, Entering, Serving] at h

/-- **A tick of a state in which the job waits**: it goes on waiting, or it is swapped. -/
theorem Inv.tick_waiting (h : Inv env.Serves s) (hclock : s.simTime + 1 < 2 ^ 31)
    (hserves : ∀ i, env.Serves (.disk i)) {j : ℕ} (hwait : s.Waiting j) (ht : tick env s = some t) :
    Stays s.events j t ∨ Swapped s.events j t := by
  obtain ⟨_, u, v, t', -, ht', hfirst, hcompute, hlast⟩ := h.tick_phases env hclock hserves
  obtain rfl : t' = t := Option.some.inj (ht'.symm.trans ht)
  obtain ⟨ms₁, hrun₁, hk₁⟩ := hfirst.run
  obtain ⟨ms₂, hrun₂, hk₂⟩ := hcompute.run
  obtain ⟨ms₃, hrun₃, hk₃⟩ := hlast.run
  have hstart : Stays s.events j s.clocked := ⟨hwait, [], by simp, by simp⟩
  have hmid : Inv env.Serves v ∧ (Stays s.events j v ∨ (Swapped s.events j v ∧ OnDisk j v)) := by
    refine Run.invariant_of_kind (fun w => Inv env.Serves w ∧
      (Stays s.events j w ∨ (Swapped s.events j w ∧ OnDisk j w)))
      (fun m => ∀ i, m ≠ Move.serve i j) (fun u m w hm hu hstep => ⟨hu.1.step hstep, ?_⟩)
      ⟨h.clocked hclock, Or.inl hstart⟩ (hrun₁.append hrun₂) fun m hm => ?_
    · rcases hu.2 with hst | ⟨hsw, hd⟩
      · exact hst.step hu.1 hserves hstep
      · exact Or.inr ⟨hsw.step hstep (hd.ne_kill hu.1 hstep), hd.step hu.1 hstep hm⟩
    · rcases List.mem_append.1 hm with hm | hm
      · exact not_serve_of_phases (Or.inr (hk₁ m hm))
      · exact not_serve_of_phases (Or.inl (hk₂ m hm))
  refine (Run.invariant_of_kind (fun w => Inv env.Serves w ∧
    (Stays s.events j w ∨ Swapped s.events j w)) (fun m => m ≠ Move.kill j)
    (fun u m w hm hu hstep => ⟨hu.1.step hstep, ?_⟩) ⟨hmid.1, hmid.2.imp_right And.left⟩
    hrun₃ fun m hm => not_kill_of_lastPhases (hk₃ m hm)).2
  rcases hu.2 with hst | hsw
  · exact (hst.step hu.1 hserves hstep).imp_right And.left
  · exact Or.inr (hsw.step hstep hm)

/-- No queue is too long, and a waiting job is in a crowd. -/
theorem run_crowded {ms : List Move} (hserves : ∀ dev, env.Serves dev)
    (hrun : Run (Step env) init ms s) : Short s ∧ Crowded s := by
  have hall := hrun.invariant (P := fun u => Inv env.Serves u ∧ Short u ∧ Crowded u)
    (fun u m v hu hstep => ⟨hu.1.step hstep, hu.2.1.step hstep,
      hu.2.2.step hu.1 (hserves .cpu) hu.2.1 hstep⟩)
    ⟨inv_init env.Serves, fun dev => Nat.zero_le _, fun j hj => absurd hj (not_waiting_of_idle rfl)⟩
  exact hall.2

/-- **No deadlock.** Whenever at the end of a tick a finished job waits on the CPU, the disks hold
at least six jobs, the head of each disk queue is being served or still has to be, and in the next
tick the job goes on waiting or leaves the CPU through a swap. -/
theorem waiting_job_swapped (hconf : env.conf.Positive) (hrand : env.InRange) {n : ℕ}
    (hn : n ≤ env.conf.finTime) : ∃ s, ticks env n = some s ∧ ∀ j, s.Waiting j →
      6 ≤ (s.devices (.disk 0)).queue.length + (s.devices (.disk 1)).queue.length ∧
      (∀ i node rest, (s.devices (.disk i)).queue = node :: rest →
        (s.devices (.disk i)).currentJob = some node.val ∨ 0 < (s.jobs node.val).burstTime) ∧
      (n < env.conf.finTime → ∃ t, ticks env (n + 1) = some t ∧
        (Stays s.events j t ∨ Swapped s.events j t)) := by
  have hserves := hrand.serves hconf
  have hdisks : ∀ i, env.Serves (.disk i) := fun i => hserves (.disk i)
  obtain ⟨s, ms, hs, hrun, hinv, htime⟩ := ticks_run hdisks hconf.finTime hn
  obtain ⟨hshort, hcrowded⟩ := run_crowded hserves hrun
  refine ⟨s, hs, fun j hwait => ⟨?_, fun i node rest hq => ?_, fun hlt => ?_⟩⟩
  · have hnine := hcrowded j hwait
    have hcpu := hshort .cpu
    simp only [queueSize] at hcpu
    omega
  · by_cases hcur : (s.devices (.disk i)).currentJob = some node.val
    · exact Or.inl hcur
    · exact Or.inr (hinv.waits (.disk i) (hdisks i) node (by rw [hq]; exact List.mem_cons_self) hcur)
  · have hfin := hconf.finTime
    have hclock : s.simTime + 1 < 2 ^ 31 := by omega
    obtain ⟨t, -, ht, -⟩ := hinv.tick_run env hclock hdisks
    have hnext : ticks env (n + 1) = some t := by
      rw [ticks, hs]
      exact ht
    exact ⟨t, hnext, hinv.tick_waiting hclock hdisks hwait ht⟩

/-! ### A run in which a job waits -/

/-- Service times of one unit on the CPU, and of one to ten on the disks. -/
def confShort : Conf :=
  { confTxt with
    finTime := 100, arriveMax := 100, cpuMax := 1
    disk1Min := 1, disk1Max := 10, disk2Min := 1, disk2Max := 10 }

/-- Job `0` gets nine units on disk 1 and job `1` eight on disk 2, all others one; so both disks
fill up behind them, and job `8` is left waiting on the CPU.  Job `9` arrives late. -/
def crowdedRandom (k : ℕ) : ℕ :=
  if k = 3 then 8 else if k = 7 then 7 else if k = 35 then 99 else 100

theorem confShort_positive : confShort.Positive := by
  constructor <;> decide

/-- At the end of tick 10 job `8` waits. -/
theorem waiting_job_swapped_short : ∃ s,
    ticks (Env.ofRandom confShort crowdedRandom) 10 = some s ∧ s.Waiting 8 ∧
      6 ≤ (s.devices (.disk 0)).queue.length + (s.devices (.disk 1)).queue.length ∧
      (∀ i node rest, (s.devices (.disk i)).queue = node :: rest →
        (s.devices (.disk i)).currentJob = some node.val ∨ 0 < (s.jobs node.val).burstTime) ∧
      ∃ t, ticks (Env.ofRandom confShort crowdedRandom) 11 = some t ∧
        (Stays s.events 8 t ∨ Swapped s.events 8 t) := by
  obtain ⟨s, hs, hall⟩ := waiting_job_swapped confShort_positive
    (Env.ofRandom_inRange confShort crowdedRandom) (by decide : 10 ≤ 100)
  have hjob : ((ticks (Env.ofRandom confShort crowdedRandom) 10).map fun s =>
      ((s.devices .cpu).currentJob, (s.jobs 8).burstTime)) = some (some 8, 0) := by
    decide +kernel
  rw [hs, Option.map_some, Option.some.injEq, Prod.mk.injEq] at hjob
  obtain ⟨hdisks, hheads, hnext⟩ := hall 8 hjob
  exact ⟨s, hs, hjob, hdisks, hheads, hnext (by decide)⟩

end Simulation
