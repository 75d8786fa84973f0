import SysProg.Simulation.Moves

/-!
# A tick is a sequence of moves

Under the invariant, and if the jobs that wait for a disk have service time left, no function of the
code dereferences a null pointer, and each one makes the moves that it is meant to make.

* `beforeCompute`: the first half of a tick, up to the return of `cpuDetermineJob`;
* `beforeCompute_phases`, `tick_phases`: the phases of a tick, at most one move in each;
* `Inv.phases_of_tick`: the same for a tick that completes, whatever has been drawn;
* `Priced`: what the moves of a tick cost; `Inv.run_of_tick`: the moves of a tick and their costs;
* `exists_run_of_ticks`, `run_of_ticks`: the state after ticks that complete is reached by moves;
* `ticks_run`: every tick of the simulation completes, and the state after it is reached by moves
  and satisfies the invariant.
-/

namespace Simulation

open CInt Tokens Runs

variable {env : Env} {s t : State} {fed : Dev → Prop}

theorem removeJob_eq {dev : Dev} {j : ℕ} {n : Node ℕ} {rest : List (Node ℕ)}
    (hcur : (s.devices dev).currentJob = some j) (hq : (s.devices dev).queue = n :: rest) :
    removeJob dev s = some (s.leave dev j rest) := by
  simp [removeJob, hcur, hq, popQueue]

/-- To return a job from an idle disk is to dereference a null pointer. -/
theorem returnFromDisk_of_idle {i : Fin 2} {j : ℕ}
    (hidle : (s.devices (.disk i)).currentJob = none) : returnFromDisk j i s = none := by
  simp [returnFromDisk, removeJobFromDisk, removeJob, hidle]

/-! ### The functions of a tick -/

/-- The moves of a phase. -/
def Generating (m : Move) : Prop := m = .generate

def Arriving (m : Move) : Prop := ∃ j, m = .arrive j

/-- The moves of `cpuDetermineJob` at one disk. -/
def Checking (i : Fin 2) (m : Move) : Prop := (∃ j, m = .back i j) ∨ ∃ j k, m = .swap i j k

def Fetching (m : Move) : Prop := ∃ j, m = .fetch j

/-- The moves of a CPU that is not idle. -/
def Computing (m : Move) : Prop :=
  ∃ j, m = .work j ∨ (∃ i, m = .send j i) ∨ m = .keep j ∨ m = .kill j

def Entering (i : Fin 2) (m : Move) : Prop := ∃ j, m = .enter i j

def Serving (i : Fin 2) (m : Move) : Prop := ∃ j, m = .serve i j

theorem userActivity_phases (env : Env) (s : State) :
    ∃ u, AtMost (Step env) Generating s u ∧ AtMost (Step env) Arriving u (userActivity env s) := by
  obtain ⟨u, j, hget, hu, hgen⟩ : ∃ u j, getUpcoming env s = (j, u) ∧ u.upcomingJob = some j ∧
      AtMost (Step env) Generating s u := by
    cases hup : s.upcomingJob with
    | none => exact ⟨_, s.jobCount, by rw [getUpcoming, hup]; rfl, rfl, .single rfl (.generate hup)⟩
    | some j => exact ⟨s, j, by rw [getUpcoming, hup], hup, .refl _ _⟩
  refine ⟨u, hgen, ?_⟩
  rw [userActivity, hget]
  dsimp only
  split_ifs with hc
  · exact .single ⟨j, rfl⟩ (.arrive hu hc.2)
  · exact .refl _ _

section Check

variable (h : Inv fed s) {i : Fin 2}
include h

/-- A finished job at the head of a disk queue has entered the disk. -/
theorem Inv.current_of_finished (hfed : fed (.disk i)) {n : Node ℕ} {rest : List (Node ℕ)}
    (hq : (s.devices (.disk i)).queue = n :: rest) (hfin : (s.jobs n.val).burstTime = 0) :
    (s.devices (.disk i)).currentJob = some n.val := by
  by_contra hne
  have := h.waits (.disk i) hfed n (by rw [hq]; exact List.mem_cons_self) hne
  omega

/-- The moves at one disk, if the finished job at its head has entered. -/
theorem Inv.checkDisk_of_current (env : Env)
    (hcurrent : ∀ n rest, (s.devices (.disk i)).queue = n :: rest → (s.jobs n.val).burstTime = 0 →
      (s.devices (.disk i)).currentJob = some n.val) :
    ∃ t, checkDisk env s i = some t ∧ AtMost (Step env) (Checking i) s t := by
  rw [checkDisk]
  cases hq : (s.devices (.disk i)).queue with
  | nil => exact ⟨s, rfl, .refl _ _⟩
  | cons n rest =>
    dsimp only
    split_ifs with hfin hroom
    · have hcur := hcurrent n rest hq hfin
      refine ⟨_, ?_, .single (Or.inl ⟨_, rfl⟩) (.back hq hcur hfin hroom)⟩
      rw [returnFromDisk, removeJobFromDisk,
        removeJob_eq (s := drawCpuBurst env n.val s) hcur hq]
      rfl
    · have hcur := hcurrent n rest hq hfin
      cases hcpu : (s.devices .cpu).currentJob with
      | none => exact ⟨s, rfl, .refl _ _⟩
      | some k =>
        dsimp only
        split_ifs with hwait
        · obtain ⟨m, cpuRest, hcq, rfl⟩ := (h.device .cpu).cons hcpu
          refine ⟨_, ?_, .single (Or.inr ⟨_, _, rfl⟩) (.swap hq hcur hfin hcq hcpu hwait)⟩
          have hdev := h.swapping_disk env hq m.val cpuRest
          rw [swapJobs, removeJobFromCPU, removeJob_eq (s := drawCpuBurst env n.val s) hcpu hcq]
          simp only [Option.bind_eq_bind, Option.bind_some, returnFromDisk, removeJobFromDisk]
          rw [removeJob_eq (j := n.val) (by rw [hdev]; exact hcur) (by rw [hdev])]
          rfl
        · exact ⟨s, rfl, .refl _ _⟩
    · exact ⟨s, rfl, .refl _ _⟩

theorem Inv.checkDisk_phase (env : Env) (hfed : fed (.disk i)) :
    ∃ t, checkDisk env s i = some t ∧ AtMost (Step env) (Checking i) s t :=
  h.checkDisk_of_current env fun _ _ => h.current_of_finished hfed

/-- If the code gets past a disk, it has made at most one move there, whatever has been drawn. -/
theorem Inv.atMost_of_checkDisk (ht : checkDisk env s i = some t) :
    AtMost (Step env) (Checking i) s t := by
  by_cases hcurrent : ∀ n rest, (s.devices (.disk i)).queue = n :: rest →
      (s.jobs n.val).burstTime = 0 → (s.devices (.disk i)).currentJob = some n.val
  · obtain ⟨u, hu, hone⟩ := h.checkDisk_of_current env hcurrent
    obtain rfl : u = t := Option.some.inj (hu.symm.trans ht)
    exact hone
  · push Not at hcurrent
    obtain ⟨n, rest, hq, hfin, hne⟩ := hcurrent
    -- the job at the head has not entered, so nothing has
    have hidle : (s.devices (.disk i)).currentJob = none := by
      cases hcur : (s.devices (.disk i)).currentJob with
      | none => rfl
      | some j =>
        obtain ⟨m, _, hq', rfl⟩ := (h.device (.disk i)).cons hcur
        rw [hq, List.cons.injEq] at hq'
        exact absurd (hq'.1 ▸ hcur) hne
    rw [checkDisk, hq] at ht
    simp only [hfin, if_true] at ht
    split_ifs at ht with hroom
    · rw [returnFromDisk_of_idle (by simpa [drawCpuBurst, myrandom] using hidle)] at ht
      exact absurd ht (by simp)
    · cases hcpu : (s.devices .cpu).currentJob with
      | none =>
        simp only [hcpu] at ht
        exact Or.inl (Option.some.inj ht).symm
      | some k =>
        simp only [hcpu] at ht
        split_ifs at ht with hwait
        · obtain ⟨m, cpuRest, hcq, rfl⟩ := (h.device .cpu).cons hcpu
          rw [swapJobs, removeJobFromCPU,
            removeJob_eq (s := drawCpuBurst env n.val s) hcpu hcq] at ht
          simp only [Option.bind_eq_bind, Option.bind_some] at ht
          rw [returnFromDisk_of_idle
            (by simpa [arriveAtDisk, drawCpuBurst, myrandom] using hidle)] at ht
          exact absurd ht (by simp)
        · exact Or.inl (Option.some.inj ht).symm

end Check

/-- Nothing is fetched if the CPU has a job. -/
theorem cpuFetchNextJob_phase (env : Env) (s : State) :
    AtMost (Step env) Fetching s (cpuFetchNextJob s).2 ∧
      ((cpuFetchNextJob s).1 = true →
        ∃ j, ((cpuFetchNextJob s).2.devices .cpu).currentJob = some j) := by
  rw [cpuFetchNextJob]
  cases hcur : (s.devices .cpu).currentJob with
  | some j => exact ⟨.refl _ _, fun _ => ⟨j, hcur⟩⟩
  | none =>
    cases hq : (s.devices .cpu).queue with
    | nil => exact ⟨.refl _ _, fun hf => Bool.noConfusion hf⟩
    | cons n rest =>
      exact ⟨.single ⟨n.val, rfl⟩ (.fetch hcur hq), fun _ => ⟨n.val, by simp [cpuEnter]⟩⟩

theorem Inv.cpuCompute_phase (h : Inv fed s) (env : Env) {j : ℕ}
    (hcur : (s.devices .cpu).currentJob = some j) (hpos : 0 < (s.jobs j).burstTime) :
    ∃ t, cpuCompute env s = some t ∧ AtMost (Step env) Computing s t := by
  obtain ⟨n, rest, hq, rfl⟩ := (h.device .cpu).cons hcur
  have hburst : ((s.decBurst .cpu n.val).jobs n.val).burstTime =
      sizeSub (s.jobs n.val).burstTime 1 := by simp
  rw [cpuCompute, hcur]
  simp only [Option.bind_eq_bind, Option.bind_some, hburst]
  split_ifs with hfin hneeds
  · have hpick : pickBestDisk (jobNeedsDisk env (s.decBurst .cpu n.val)).2 =
        pickBestDisk (s.finished n.val) := rfl
    rw [hpick]
    cases hbest : pickBestDisk (s.finished n.val) with
    | none =>
      exact ⟨_, rfl, .single ⟨n.val, Or.inr (Or.inr (Or.inl rfl))⟩
        (.keep hcur ⟨hpos, hfin⟩ hneeds hbest)⟩
    | some i =>
      refine ⟨_, ?_, .single ⟨n.val, Or.inr (Or.inl ⟨i, rfl⟩)⟩
        (.send hq hcur ⟨hpos, hfin⟩ hneeds hbest)⟩
      exact removeJob_eq (s := arriveAtDisk env n.val i (s.finished n.val)) hcur hq
  · refine ⟨_, ?_, .single ⟨n.val, Or.inr (Or.inr (Or.inr rfl))⟩
      (.kill hq hcur ⟨hpos, hfin⟩ (Bool.eq_false_iff.2 hneeds))⟩
    rw [killJob, show ((jobNeedsDisk env (s.decBurst .cpu n.val)).2.devices .cpu).queue = n :: rest
      from hq]
    rfl
  · exact ⟨_, rfl, .single ⟨n.val, Or.inl rfl⟩ (.work hcur hpos fun e => hfin e.2)⟩

theorem enterDisk_phase (i : Fin 2) (s : State) :
    AtMost (Step env) (Entering i) s (enterDisk i s) := by
  rw [enterDisk]
  split
  · next n rest hcur hq =>
    split_ifs with hpos
    · exact .single ⟨n.val, rfl⟩ (.enter hq hcur hpos)
    · exact .refl _ _
  · exact .refl _ _

theorem serveDisk_phase (i : Fin 2) (s : State) :
    AtMost (Step env) (Serving i) s (serveDisk i s) := by
  rw [serveDisk]
  split
  · next j hcur =>
    split_ifs with hpos
    · exact .single ⟨j, rfl⟩ (.serve hcur hpos)
    · exact .refl _ _
  · exact .refl _ _

/-! ### The whole tick -/

/-- The first half of a tick, up to the return of `cpuDetermineJob`. -/
def beforeCompute (env : Env) (s : State) : Option (Bool × State) :=
  cpuDetermineJob env (userActivity env s.clocked)

/-- The second half of a tick: the CPU, the disks and the record. -/
theorem tick_eq {busy : Bool} {u : State} (hu : beforeCompute env s = some (busy, u)) :
    tick env s = (if busy then cpuCompute env u else some u).map fun v =>
      recordCommonStats (diskCompute v) := by
  rw [beforeCompute] at hu
  rw [tick]
  simp only [hu, Option.bind_eq_bind, Option.bind_some]
  cases busy with
  | true =>
    simp only [if_true]
    cases cpuCompute env u <;> rfl
  | false => rfl

theorem exists_beforeCompute (ht : tick env s = some t) :
    ∃ busy u, beforeCompute env s = some (busy, u) := by
  cases hu : beforeCompute env s with
  | none =>
    rw [beforeCompute] at hu
    simp [tick, hu] at ht
  | some p => exact ⟨p.1, p.2, rfl⟩

/-- The phases of the first half of a tick. -/
def firstPhases : List (Move → Prop) := [Generating, Arriving, Checking 0, Checking 1, Fetching]

/-- The phases behind the CPU. -/
def lastPhases : List (Move → Prop) :=
  [Entering 0, Serving 0, Entering 1, Serving 1, (· = .record)]

/-- The disks compute in phases. -/
theorem diskCompute_phases (s : State) :
    Phases (Step env) [Entering 0, Serving 0, Entering 1, Serving 1] s (diskCompute s) :=
  .cons (enterDisk_phase 0 s) (.cons (serveDisk_phase 0 _) (.cons (enterDisk_phase 1 _)
    (.cons (serveDisk_phase 1 _) (.nil _))))

theorem lastPhases_of (s : State) :
    Phases (Step env) lastPhases s (recordCommonStats (diskCompute s)) :=
  (diskCompute_phases s).append (.cons (.single rfl .record) (.nil _))

/-- No time passes within a phase. -/
theorem clock_not_mem {ms : List Move}
    (h : ∀ m ∈ ms, ∃ kind ∈ firstPhases ++ Computing :: lastPhases, kind m) : .clock ∉ ms := by
  intro hmem
  simpa [firstPhases, lastPhases, Generating, Arriving, Checking, Fetching, Computing, Entering,
    Serving] using h _ hmem

/-- Bounds on what the moves of a tick cost: those that look at the disks, those of the CPU, and
those that serve the jobs on the disks.  The other ones cost nothing. -/
structure Priced (cost : Move → ℕ) (check : Fin 2 → ℕ) (work : ℕ) (serve : Fin 2 → ℕ) : Prop where
  clock : cost .clock = 0
  generate : cost .generate = 0
  arrive : ∀ j, cost (.arrive j) = 0
  back : ∀ i j, cost (.back i j) ≤ check i
  swap : ∀ i j k, cost (.swap i j k) ≤ check i
  fetch : ∀ j, cost (.fetch j) = 0
  compute : ∀ m, Computing m → cost m ≤ work
  enter : ∀ i j, cost (.enter i j) = 0
  serve : ∀ i j, cost (.serve i j) ≤ serve i
  record : cost .record = 0

theorem Priced.phases {cost : Move → ℕ} {check serve : Fin 2 → ℕ} {work : ℕ}
    (h : Priced cost check work serve) :
    List.Forall₂ (fun kind k => ∀ m, kind m → cost m ≤ k) (firstPhases ++ Computing :: lastPhases)
      [0, 0, check 0, check 1, 0, work, 0, serve 0, 0, serve 1, 0] := by
  have hgenerate : ∀ m, Generating m → cost m ≤ 0 := by rintro m rfl; exact h.generate.le
  have harrive : ∀ m, Arriving m → cost m ≤ 0 := by rintro m ⟨j, rfl⟩; exact (h.arrive j).le
  have hcheck : ∀ i m, Checking i m → cost m ≤ check i := by
    rintro i m (⟨j, rfl⟩ | ⟨j, k, rfl⟩)
    · exact h.back i j
    · exact h.swap i j k
  have hfetch : ∀ m, Fetching m → cost m ≤ 0 := by rintro m ⟨j, rfl⟩; exact (h.fetch j).le
  have henter : ∀ i m, Entering i m → cost m ≤ 0 := by rintro i m ⟨j, rfl⟩; exact (h.enter i j).le
  have hserve : ∀ i m, Serving i m → cost m ≤ serve i := by rintro i m ⟨j, rfl⟩; exact h.serve i j
  have hrecord : ∀ m : Move, m = .record → cost m ≤ 0 := by rintro m rfl; exact h.record.le
  exact .cons hgenerate (.cons harrive (.cons (hcheck 0) (.cons (hcheck 1) (.cons hfetch
    (.cons h.compute (.cons (henter 0) (.cons (hserve 0) (.cons (henter 1) (.cons (hserve 1)
      (.cons hrecord .nil))))))))))

theorem Inv.atMost {kind : Move → Prop} (h : Inv env.Serves s) (ht : AtMost (Step env) kind s t) :
    Inv env.Serves t := by
  obtain ⟨ms, hrun, -⟩ := ht.run
  exact h.run hrun

theorem Inv.phases {kinds : List (Move → Prop)} (h : Inv env.Serves s)
    (ht : Phases (Step env) kinds s t) : Inv env.Serves t := by
  obtain ⟨ms, hrun, -⟩ := ht.run
  exact h.run hrun

/-- Whatever has been drawn, all of the invariant is kept that does not speak of service times. -/
theorem Inv.bare_atMost {kind : Move → Prop} (h : Inv (fun _ => False) s)
    (ht : AtMost (Step env) kind s t) : Inv (fun _ => False) t := by
  rcases ht with rfl | ⟨m, -, hstep⟩
  · exact h
  · exact h.step_of_drawn hstep fun _ _ => False.elim

theorem Inv.bare_phases {kinds : List (Move → Prop)} (h : Inv (fun _ => False) s)
    (ht : Phases (Step env) kinds s t) : Inv (fun _ => False) t := by
  induction ht with
  | nil => exact h
  | cons hone _ ih => exact ih (h.bare_atMost hone)

/-- A phase that draws for other devices only. -/
theorem Inv.atMost_of_undrawn {kind : Move → Prop} (h : Inv fed s)
    (ht : AtMost (Step env) kind s t)
    (hkind : ∀ m, kind m → ∀ u, ∀ d ∈ m.drawn env u, ¬fed d.1) : Inv fed t := by
  rcases ht with rfl | ⟨m, hm, hstep⟩
  · exact h
  · exact h.step_of_drawn hstep fun d hd hfed => absurd hfed (hkind m hm s d hd)

section Tick

variable (h : Inv fed s) (hclock : s.simTime + 1 < 2 ^ 31)
include h hclock

theorem Inv.phases_of_beforeCompute {busy : Bool} {u : State}
    (hu : beforeCompute env s = some (busy, u)) : Phases (Step env) firstPhases s.clocked u ∧
      (busy = true → ∃ j, (u.devices .cpu).currentJob = some j ∧ 0 < (u.jobs j).burstTime) := by
  obtain ⟨a, hgen, harr⟩ := userActivity_phases env s.clocked
  have hbare : Inv (fun _ => False) s.clocked := (h.clocked hclock).mono fun _ => False.elim
  have hinv := (hbare.bare_atMost hgen).bare_atMost harr
  simp only [beforeCompute, cpuDetermineJob, disks, List.foldlM_cons, List.foldlM_nil,
    Option.bind_eq_bind, Option.pure_def, Option.bind_eq_some_iff, Option.some.injEq] at hu
  obtain ⟨c, ⟨b, hb, c', hc, rfl⟩, hu⟩ := hu
  have hcheck₀ := hinv.atMost_of_checkDisk hb
  have hcheck₁ := (hinv.bare_atMost hcheck₀).atMost_of_checkDisk hc
  obtain ⟨hfetch, hsome⟩ := cpuFetchNextJob_phase env c'
  have hphases : Phases (Step env) firstPhases s.clocked (cpuFetchNextJob c').2 :=
    .cons hgen (.cons harr (.cons hcheck₀ (.cons hcheck₁ (.cons hfetch (.nil _)))))
  split_ifs at hu with hf
  · obtain ⟨j, hj⟩ := hsome hf
    rw [hj, Option.bind_some, Option.some.injEq, Prod.mk.injEq] at hu
    obtain ⟨rfl, rfl⟩ := hu
    exact ⟨hphases, fun hbusy => ⟨j, hj, Nat.pos_of_ne_zero (of_decide_eq_true hbusy)⟩⟩
  · rw [Option.some.injEq, Prod.mk.injEq] at hu
    obtain ⟨rfl, rfl⟩ := hu
    exact ⟨hphases, fun hbusy => Bool.noConfusion hbusy⟩

/-- **A tick that completes** makes at most one move in each of its phases, whatever has been
drawn. -/
theorem Inv.phases_of_tick (ht : tick env s = some t) : ∃ busy u v,
    beforeCompute env s = some (busy, u) ∧ Phases (Step env) firstPhases s.clocked u ∧
      AtMost (Step env) Computing u v ∧ t = recordCommonStats (diskCompute v) := by
  obtain ⟨busy, u, hu⟩ := exists_beforeCompute ht
  rw [tick_eq hu] at ht
  obtain ⟨v, hv, rfl⟩ := Option.map_eq_some_iff.1 ht
  obtain ⟨hfirst, hbusy⟩ := h.phases_of_beforeCompute hclock hu
  have hbare : Inv (fun _ => False) s.clocked := (h.clocked hclock).mono fun _ => False.elim
  have hinv := hbare.bare_phases hfirst
  refine ⟨busy, u, v, hu, hfirst, ?_, rfl⟩
  cases busy with
  | true =>
    obtain ⟨j, hcur, hpos⟩ := hbusy rfl
    obtain ⟨v', hv', hcompute⟩ := hinv.cpuCompute_phase env hcur hpos
    obtain rfl : v' = v := Option.some.inj (hv'.symm.trans hv)
    exact hcompute
  | false =>
    obtain rfl : u = v := Option.some.inj hv
    exact .refl _ _

/-- The moves of a tick, and what they cost. -/
theorem Inv.run_of_tick (ht : tick env s = some t) : ∃ ms, Run (Step env) s (.clock :: ms) t ∧
    .clock ∉ ms ∧ ∀ (cost : Move → ℕ) check work serve, Priced cost check work serve →
      ((Move.clock :: ms).map cost).sum ≤ check 0 + check 1 + work + serve 0 + serve 1 := by
  obtain ⟨_, u, v, -, hfirst, hcompute, rfl⟩ := h.phases_of_tick hclock ht
  obtain ⟨ms, hrun, hkinds, hcost⟩ :=
    (hfirst.append (.cons hcompute (lastPhases_of v))).run_sum_le
  refine ⟨ms, .cons (.clock hclock) hrun, clock_not_mem hkinds, fun cost check work serve h => ?_⟩
  have hsum := hcost cost _ h.phases
  have hclock := h.clock
  simp only [List.map_cons, List.sum_cons, List.sum_nil] at hsum ⊢
  omega

variable (env) (hfed : ∀ i, fed (.disk i))
include hfed

theorem Inv.beforeCompute_phases : ∃ busy u, beforeCompute env s = some (busy, u) ∧
    Phases (Step env) firstPhases s.clocked u ∧
    (busy = true → ∃ j, (u.devices .cpu).currentJob = some j ∧ 0 < (u.jobs j).burstTime) := by
  obtain ⟨a, hgen, harr⟩ := userActivity_phases env s.clocked
  have hdisks : Inv (· ≠ .cpu) s.clocked := (h.clocked hclock).mono fun dev hdev => by
    cases dev with
    | cpu => exact absurd rfl hdev
    | disk i => exact hfed i
  have hinv := (hdisks.atMost_of_undrawn hgen fun m hm u d hd => by
    subst hm
    obtain rfl := List.mem_singleton.1 hd
    exact fun hne => hne rfl).atMost_of_undrawn harr fun m ⟨j, hm⟩ u d hd => by
      subst hm
      exact absurd hd List.not_mem_nil
  obtain ⟨b, hb, hcheck₀⟩ := hinv.checkDisk_phase env (i := 0) Dev.noConfusion
  -- what the first disk does, draws nothing for the second one
  have hsecond : Inv (· = .disk 1) b := by
    refine (hinv.mono fun dev hdev => ?_).atMost_of_undrawn hcheck₀ fun m hm u d hd hone => ?_
    · rw [hdev]
      exact Dev.noConfusion
    · rcases hm with ⟨j, rfl⟩ | ⟨j, k, rfl⟩ <;> simp [Move.drawn] at hd
      · rw [hd] at hone
        cases hone
      · rcases hd with rfl | rfl <;> cases hone
  obtain ⟨c, hc, -⟩ := hsecond.checkDisk_phase env rfl
  obtain ⟨-, hsome⟩ := cpuFetchNextJob_phase env c
  obtain ⟨busy, u, hu⟩ : ∃ busy u, beforeCompute env s = some (busy, u) := by
    rw [beforeCompute, cpuDetermineJob, disks, List.foldlM_cons, hb]
    simp only [Option.bind_eq_bind, Option.bind_some, List.foldlM_cons, hc, List.foldlM_nil,
      Option.pure_def]
    split_ifs with hf
    · obtain ⟨j, hj⟩ := hsome hf
      exact ⟨_, _, by rw [hj]; rfl⟩
    · exact ⟨_, _, rfl⟩
  exact ⟨busy, u, hu, h.phases_of_beforeCompute hclock hu⟩

/-- **A tick completes**, and makes at most one move in each of its phases. -/
theorem Inv.tick_phases : ∃ busy u v t, beforeCompute env s = some (busy, u) ∧
    tick env s = some t ∧ Phases (Step env) firstPhases s.clocked u ∧
    AtMost (Step env) Computing u v ∧ Phases (Step env) lastPhases v t := by
  obtain ⟨busy, u, hu, hfirst, hbusy⟩ := h.beforeCompute_phases env hclock hfed
  have hbare : Inv (fun _ => False) s.clocked := (h.clocked hclock).mono fun _ => False.elim
  have hinv := hbare.bare_phases hfirst
  obtain ⟨v, hv⟩ : ∃ v, (if busy then cpuCompute env u else some u) = some v := by
    cases busy with
    | true =>
      obtain ⟨j, hcur, hpos⟩ := hbusy rfl
      obtain ⟨v, hv, -⟩ := hinv.cpuCompute_phase env hcur hpos
      exact ⟨v, hv⟩
    | false => exact ⟨u, rfl⟩
  have ht : tick env s = some (recordCommonStats (diskCompute v)) := by
    rw [tick_eq hu, hv]
    rfl
  obtain ⟨busy', u', v', hu', hfirst', hcompute, heq⟩ := h.phases_of_tick hclock ht
  rw [heq] at ht
  exact ⟨busy', u', v', _, hu', ht, hfirst', hcompute, lastPhases_of v'⟩

theorem Inv.tick_run : ∃ t ms, tick env s = some t ∧ Run (Step env) s (.clock :: ms) t ∧
    .clock ∉ ms := by
  obtain ⟨_, _, _, t, -, ht, -⟩ := h.tick_phases env hclock hfed
  obtain ⟨ms, hrun, hms, -⟩ := h.run_of_tick hclock ht
  exact ⟨t, ms, ht, hrun, hms⟩

end Tick

/-! ### Runs of the simulation -/

theorem Step.simTime {m : Move} (h : Step env s m t) (hm : m ≠ .clock) :
    t.simTime = s.simTime := by
  cases h with
  | clock => exact absurd rfl hm
  | _ => rfl

/-- The clock does not go back. -/
theorem Step.simTime_le {m : Move} (h : Step env s m t) : s.simTime ≤ t.simTime := by
  cases h with
  | clock => exact Nat.le_succ _
  | _ => exact le_rfl

theorem simTime_of_run {ms : List Move} (h : Run (Step env) s ms t) (hms : .clock ∉ ms) :
    t.simTime = s.simTime := by
  induction h with
  | nil => rfl
  | cons hstep _ ih =>
    rw [List.mem_cons, not_or] at hms
    rw [ih hms.2, hstep.simTime (Ne.symm hms.1)]

/-- The clock counts the ticks. -/
theorem Inv.simTime_of_tick (h : Inv fed s) (hclock : s.simTime + 1 < 2 ^ 31)
    (ht : tick env s = some t) : t.simTime = s.simTime + 1 := by
  obtain ⟨ms, hrun, hms, -⟩ := h.run_of_tick hclock ht
  cases hrun with
  | cons hstep hrun =>
    cases hstep
    exact simTime_of_run hrun hms

/-- **Every tick of the simulation completes**, the state after it satisfies the invariant, and it
is reached by moves. -/
theorem ticks_run (hserves : ∀ i, env.Serves (.disk i)) (hfin : env.conf.finTime < 2 ^ 31) {n : ℕ}
    (hn : n ≤ env.conf.finTime) : ∃ s ms, ticks env n = some s ∧ Run (Step env) init ms s ∧
      Inv env.Serves s ∧ s.simTime = n := by
  induction n with
  | zero => exact ⟨init, [], rfl, .nil _, inv_init env.Serves, rfl⟩
  | succ n ih =>
    obtain ⟨s, ms, hs, hrun, hinv, htime⟩ := ih (by omega)
    have hclock : s.simTime + 1 < 2 ^ 31 := by omega
    obtain ⟨t, ls, ht, hls, -⟩ := hinv.tick_run env hclock hserves
    refine ⟨t, ms ++ .clock :: ls, ?_, hrun.append hls, hinv.run hls, ?_⟩
    · rw [ticks, hs]
      exact ht
    · rw [hinv.simTime_of_tick hclock ht, htime]

/-- **The ticks of the simulation are runs of moves**, whatever has been drawn, if they complete. -/
theorem exists_run_of_ticks {r : State → List Move → State → Prop}
    (hone : ∀ s t, Inv env.Serves s → s.simTime + 1 < 2 ^ 31 → tick env s = some t →
      ∃ ms, Run (Step env) s ms t ∧ r s ms t) {n : ℕ} (hn : n < 2 ^ 31)
    (hs : ticks env n = some s) : ∃ mss, mss.length = n ∧ Run r init mss s ∧
      Run (Step env) init mss.flatten s ∧ s.simTime = n := by
  induction n generalizing s with
  | zero =>
    obtain rfl : init = s := Option.some.inj hs
    exact ⟨[], rfl, .nil _, .nil _, rfl⟩
  | succ n ih =>
    obtain ⟨u, hu, hs⟩ := Option.bind_eq_some_iff.1 hs
    obtain ⟨mss, hlen, hticks, hrun, htime⟩ := ih (by omega) hu
    have hinv := (inv_init env.Serves).run hrun
    obtain ⟨ms, hms, htick⟩ := hone u s hinv (by omega) hs
    refine ⟨mss ++ [ms], by simp [hlen], hticks.snoc htick, ?_, ?_⟩
    · rw [List.flatten_append, List.flatten_singleton]
      exact hrun.append hms
    · rw [hinv.simTime_of_tick (by omega) hs, htime]

/-- The state after a tick is reached by moves. -/
theorem run_of_ticks {n : ℕ} (hn : n < 2 ^ 31) (hs : ticks env n = some s) :
    ∃ ms, Run (Step env) init ms s ∧ s.simTime = n := by
  obtain ⟨mss, -, -, hrun, htime⟩ := exists_run_of_ticks (r := fun _ _ _ => True)
    (fun u t hinv hclock ht => by
      obtain ⟨ms, hms, -⟩ := hinv.run_of_tick hclock ht
      exact ⟨_, hms, trivial⟩) hn hs
  exact ⟨mss.flatten, hrun, htime⟩

/-- A run whose steps are ticks. -/
theorem ticks_of_run {r : State → List Move → State → Prop} {mss : List (List Move)}
    (hone : ∀ s ms t, r s ms t → tick env s = some t) (hrun : Run r init mss s) :
    ticks env mss.length = some s := by
  have hall : ticks env ([] ++ mss).length = some s :=
    hrun.trace (P := fun seen u => ticks env seen.length = some u)
      (fun seen u ms v hu hv => by
        rw [List.length_append, List.length_singleton, ticks, hu]
        exact hone u ms v hv) rfl
  exact hall

/-- The simulation ends. -/
theorem simulate_isSome (hserves : ∀ i, env.Serves (.disk i)) (hfin : env.conf.finTime < 2 ^ 31) :
    (simulate env).isSome := by
  obtain ⟨s, ms, hs, -⟩ := ticks_run hserves hfin le_rfl
  rw [simulate, hs]
  rfl

end Simulation
