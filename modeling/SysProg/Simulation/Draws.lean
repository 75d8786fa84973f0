import SysProg.Simulation.Ticks

/-!
# The draws of `myrandom`

`myrandom(low, high)` takes `random()` modulo `high - low + 1`.  The limits are `uint`s of the
configuration.  For the service time on a disk the lower one is that of the disk, but the upper one
is always that of disk 1.

* `divisor`, `intOutcome`: `myrandom` with the arithmetic of `int`;
* `Apt`: limits of a draw that suit the limits of a device; `apt_iff`: no others do;
* `Move.draws`: the calls of `myrandom` in a move; it depends on no others (`Step.congr`);
* `Conf.Suits`: the moves that draw with apt limits.
-/

namespace Simulation

open CInt Tokens Runs

variable {env env' : Env} {s t : State} {conf : Conf}

/-! ### The arithmetic of a draw -/

/-- `high-low+1` -/
def divisor (low high : ℤ) : ℤ := Int.bmod (high - low + 1) (2 ^ 32)

/-- `myrandom` of `misc.c`, from the values of `random()`, for any limits. -/
def intOutcome (random : ℕ → ℕ) (k : ℕ) (low high : ℤ) : ℤ :=
  Int.bmod (low + (random k : ℤ).tmod (divisor low high)) (2 ^ 32)

/-- A configuration and the values of `random()`. -/
def Env.ofInt (conf : Conf) (random : ℕ → ℕ) : Env where
  conf := conf
  outcome _ := intOutcome random

/-- As long as nothing wraps around, this is `randomOutcome`. -/
theorem intOutcome_eq {low high : ℤ} (h0 : 0 ≤ low) (hle : low ≤ high) (hlt : high < 2 ^ 31 - 1)
    (random : ℕ → ℕ) (k : ℕ) : intOutcome random k low high = randomOutcome random k low high := by
  have hd : divisor low high = high - low + 1 := Int.bmod_eq_of_le (by omega) (by omega)
  have hlow := Int.tmod_nonneg (high - low + 1) (Int.natCast_nonneg (random k))
  have hhigh := Int.tmod_lt_of_pos (random k : ℤ) (by omega : 0 < high - low + 1)
  rw [intOutcome, randomOutcome, hd]
  exact Int.bmod_eq_of_le (by omega) (by omega)

theorem divisor_toInt (low high : ℕ) :
    divisor (toInt low) (toInt high) = Int.bmod ((high : ℤ) - low + 1) (2 ^ 32) :=
  calc Int.bmod (toInt high - toInt low + 1) (2 ^ 32)
      = Int.bmod (Int.bmod (toInt high - toInt low) (2 ^ 32) + 1) (2 ^ 32) :=
        Int.bmod_add_bmod.symm
    _ = Int.bmod (Int.bmod ((high : ℤ) - low) (2 ^ 32) + 1) (2 ^ 32) := by rw [bmod_toInt_sub]
    _ = Int.bmod ((high : ℤ) - low + 1) (2 ^ 32) := Int.bmod_add_bmod

theorem divisor_eq_zero_iff (low high : ℕ) :
    divisor (toInt low) (toInt high) = 0 ↔ (high + 1) % 2 ^ 32 = low % 2 ^ 32 := by
  rw [divisor_toInt, Int.bmod_def]
  split_ifs <;> omega

/-- A service of `n` units of time is within the limits, if it is over before the clock stops. -/
def Within (low max n : ℕ) : Prop := n < 2 ^ 31 → low ≤ n ∧ n ≤ max

/-- The longest service time that may be drawn: one of `2 ^ 31` units is never over. -/
def longest (max : ℕ) : ℕ := if max + 1 < 2 ^ 31 then max else 2 ^ 32 - 1

/-- The limits `low` and `high` of a draw suit a device whose limits are `low` and `max`. -/
def Apt (low high max : ℕ) : Prop :=
  (high + 1) % 2 ^ 32 ≠ low ∧
    low + (Int.bmod ((high : ℤ) - low + 1) (2 ^ 32)).natAbs ≤ longest max + 1

theorem le_longest {max : ℕ} (h : max < 2 ^ 32) : max ≤ longest max ∧ longest max < 2 ^ 32 := by
  rw [longest]
  split_ifs <;> omega

theorem apt_self {low max : ℕ} (hpos : 1 ≤ low) (hle : low ≤ max) (hmax : max < 2 ^ 32) :
    Apt low max max := by
  refine ⟨by omega, ?_⟩
  rw [Int.bmod_def, longest]
  split_ifs <;> omega

section Apt

variable {low high max : ℕ} (hlow : low < 2 ^ 32)
include hlow

theorem Apt.divisor_ne_zero (h : Apt low high max) : divisor (toInt low) (toInt high) ≠ 0 := by
  rw [ne_eq, divisor_eq_zero_iff, Nat.mod_eq_of_lt hlow]
  exact h.1

variable (hmax : max < 2 ^ 32)
include hmax

/-- **A draw with apt limits** is within the limits of the device. -/
theorem Apt.within (h : Apt low high max) (random : ℕ → ℕ) (k : ℕ) :
    Within low max (toSize (intOutcome random k (toInt low) (toInt high))) := by
  intro hlt
  have hd := h.divisor_ne_zero hlow
  have hr := Int.tmod_nonneg (divisor (toInt low) (toInt high)) (Int.natCast_nonneg (random k))
  have hr' : (random k : ℤ).tmod (divisor (toInt low) (toInt high)) <
      (divisor (toInt low) (toInt high)).natAbs := by
    rw [← Int.natAbs_of_nonneg hr, Int.natAbs_tmod]
    exact_mod_cast Nat.mod_lt _ (Int.natAbs_pos.2 hd)
  have htop := h.2
  rw [← divisor_toInt] at htop
  rw [intOutcome, bmod_toInt_add] at hlt ⊢
  have heq := toSize_bmod_of_lt hlt
  generalize (random k : ℤ).tmod (divisor (toInt low) (toInt high)) = r at *
  generalize toSize (Int.bmod (low + r) (2 ^ 32)) = n at *
  -- the value drawn is at most the longest one, so it has not wrapped around
  obtain ⟨-, hlongest⟩ := le_longest hmax
  have hn : (n : ℤ) = low + r := by omega
  have hle : n ≤ longest max := by omega
  rw [longest] at hle
  split_ifs at hle <;> omega

/-- With other limits there is a division by zero or, for some value of `random()`, a draw outside
the limits of the device. -/
theorem apt_of_within (hpos : 1 ≤ low) (hle : low ≤ max)
    (hd : divisor (toInt low) (toInt high) ≠ 0)
    (hwithin : ∀ r < 2 ^ 31,
      Within low max (toSize (intOutcome (fun _ => r) 0 (toInt low) (toInt high)))) :
    Apt low high max := by
  refine ⟨?_, ?_⟩
  · rwa [ne_eq, divisor_eq_zero_iff, Nat.mod_eq_of_lt hlow] at hd
  · rw [← divisor_toInt]
    by_contra hlt
    obtain ⟨hle', hlongest⟩ := le_longest hmax
    have hsmall : (divisor (toInt low) (toInt high)).natAbs ≤ 2 ^ 31 := by
      rw [divisor, Int.bmod_def]
      split_ifs <;> omega
    -- the value of `random()` for which the draw is one too long
    have hr : ((longest max + 1 - low : ℕ) : ℤ).tmod (divisor (toInt low) (toInt high)) =
        (longest max + 1 - low : ℕ) := by
      rcases Int.natAbs_eq (divisor (toInt low) (toInt high)) with habs | habs
      · rw [habs]
        exact Int.tmod_eq_of_lt (Int.natCast_nonneg _) (by omega)
      · rw [habs, Int.tmod_neg]
        exact Int.tmod_eq_of_lt (Int.natCast_nonneg _) (by omega)
    have hout := hwithin (longest max + 1 - low) (by omega)
    have hsum : (low : ℤ) + (longest max + 1 - low : ℕ) = (longest max + 1 : ℕ) := by omega
    rw [intOutcome, bmod_toInt_add, hr, hsum] at hout
    rw [longest] at hout
    split_ifs at hout with hmax'
    · rw [Int.bmod_eq_of_le (by omega) (by omega), toSize_of_nonneg (by omega) (by omega)] at hout
      have := hout (by omega)
      omega
    · have hzero : toSize (Int.bmod ((2 ^ 32 - 1 + 1 : ℕ) : ℤ) (2 ^ 32)) = 0 := by decide
      rw [hzero] at hout
      have := hout (by norm_num)
      omega

/-- **The apt limits** are those with which there is no division by zero, and whatever is drawn is
within the limits of the device. -/
theorem apt_iff (hpos : 1 ≤ low) (hle : low ≤ max) : Apt low high max ↔
    divisor (toInt low) (toInt high) ≠ 0 ∧ ∀ random k, (∀ k, random k < 2 ^ 31) →
      Within low max (toSize (intOutcome random k (toInt low) (toInt high))) :=
  ⟨fun h => ⟨h.divisor_ne_zero hlow, fun random k _ => h.within hlow hmax random k⟩, fun h =>
    apt_of_within hlow hmax hpos hle h.1 fun r hr => h.2 (fun _ => r) 0 fun _ => hr⟩

end Apt

/-! ### The configuration -/

/-- The limits of the service times of a device. -/
def Conf.serviceMin (conf : Conf) : Dev → ℕ
  | .cpu => conf.cpuMin
  | .disk i => conf.diskMin i

def Conf.serviceMax (conf : Conf) : Dev → ℕ
  | .cpu => conf.cpuMax
  | .disk i => conf.diskMax i

/-- The upper limit that the code draws with. -/
def Conf.drawnMax (conf : Conf) : Dev → ℕ
  | .cpu => conf.cpuMax
  | .disk _ => conf.disk1Max

/-- A configuration with limits for the CPU and for each disk, which are `uint`s, and with a clock
that is an `int`. -/
structure Conf.Limits (conf : Conf) : Prop where
  one_le : ∀ dev, 1 ≤ conf.serviceMin dev
  min_le : ∀ dev, conf.serviceMin dev ≤ conf.serviceMax dev
  max_lt : ∀ dev, conf.serviceMax dev < 2 ^ 32
  finTime : conf.finTime < 2 ^ 31

/-- A service time drawn for the device is within its limits. -/
def Conf.AptFor (conf : Conf) (dev : Dev) : Prop :=
  Apt (conf.serviceMin dev) (conf.drawnMax dev) (conf.serviceMax dev)

instance (dev : Dev) : Decidable (conf.AptFor dev) := inferInstanceAs (Decidable (_ ∧ _))

/-- Only the second disk has another upper limit than the one that the code draws with. -/
theorem Conf.Limits.aptFor (h : conf.Limits) {dev : Dev} (hdev : dev ≠ .disk 1) :
    conf.AptFor dev := by
  have heq : conf.drawnMax dev = conf.serviceMax dev := by
    cases dev with
    | cpu => rfl
    | disk i =>
      have hi : i = 0 := by
        have : i ≠ 1 := fun e => hdev (e ▸ rfl)
        omega
      rw [hi]
      rfl
  rw [Conf.AptFor, heq]
  exact apt_self (h.one_le dev) (h.min_le dev) (h.max_lt dev)

/-! ### The calls of a move -/

/-- A call of `myrandom`. -/
structure Draw where
  caller : Caller
  low : ℤ
  high : ℤ

/-- The call that draws a service time. -/
def Conf.serviceDraw (conf : Conf) (c : Caller) (dev : Dev) : Draw :=
  ⟨c, toInt (conf.serviceMin dev), toInt (conf.drawnMax dev)⟩

/-- The calls in a move. -/
def Move.draws (conf : Conf) : Move → List Draw
  | .generate => [⟨.generateJob, toInt conf.arriveMin, toInt conf.arriveMax⟩,
      conf.serviceDraw .generateJob .cpu]
  | .back _ _ => [conf.serviceDraw .cpuDetermineJob .cpu]
  | .swap i _ _ => [conf.serviceDraw .cpuDetermineJob .cpu,
      conf.serviceDraw .arriveAtDisk (.disk i)]
  | .send _ i => [⟨.jobNeedsDisk, 0, 100⟩, conf.serviceDraw .arriveAtDisk (.disk i)]
  | .keep _ => [⟨.jobNeedsDisk, 0, 100⟩]
  | .kill _ => [⟨.jobNeedsDisk, 0, 100⟩]
  | _ => []

section Congr

variable (hconf : env'.conf = env.conf)
include hconf

theorem drawCpuBurst_congr (hout : ∀ k, env'.outcome .cpuDetermineJob k (toInt env.conf.cpuMin)
      (toInt env.conf.cpuMax) =
    env.outcome .cpuDetermineJob k (toInt env.conf.cpuMin) (toInt env.conf.cpuMax))
    (j : ℕ) (s : State) : drawCpuBurst env j s = drawCpuBurst env' j s := by
  simp only [drawCpuBurst, myrandom, hconf, hout]

theorem arriveAtDisk_congr {i : Fin 2} (hout : ∀ k, env'.outcome .arriveAtDisk k
      (toInt (env.conf.diskMin i)) (toInt env.conf.disk1Max) =
    env.outcome .arriveAtDisk k (toInt (env.conf.diskMin i)) (toInt env.conf.disk1Max))
    (j : ℕ) (s : State) : arriveAtDisk env j i s = arriveAtDisk env' j i s := by
  simp only [arriveAtDisk, myrandom, hconf, hout]

theorem jobNeedsDisk_congr (hout : ∀ k, env'.outcome .jobNeedsDisk k 0 100 =
    env.outcome .jobNeedsDisk k 0 100) (s : State) : jobNeedsDisk env s = jobNeedsDisk env' s := by
  rw [jobNeedsDisk, jobNeedsDisk, myrandom, myrandom, hout, hconf]

/-- **A move depends on its calls only.** -/
theorem Step.congr {m : Move} (h : Step env s m t)
    (hdraws : ∀ c ∈ m.draws env.conf, ∀ k,
      env'.outcome c.caller k c.low c.high = env.outcome c.caller k c.low c.high) :
    Step env' s m t := by
  cases h <;> simp only [Move.draws, List.forall_mem_cons, Conf.serviceDraw, Conf.serviceMin,
    Conf.drawnMax] at hdraws
  case clock hlt => exact .clock hlt
  case generate hnone =>
    have heq : generateJob env s = generateJob env' s := by
      simp only [generateJob, myrandom, hconf, hdraws.1, hdraws.2.1]
    rw [heq]
    exact .generate hnone
  case arrive hj hroom => exact .arrive hj hroom
  case back hq hcur hfin hroom =>
    rw [drawCpuBurst_congr hconf hdraws.1]
    exact .back hq hcur hfin hroom
  case swap hq hcur hfin hcq hwait hcfin =>
    rw [State.swapped, drawCpuBurst_congr hconf hdraws.1, arriveAtDisk_congr hconf hdraws.2.1]
    exact .swap hq hcur hfin hcq hwait hcfin
  case fetch hidle hq => exact .fetch hidle hq
  case work hcur hpos hfin => exact .work hcur hpos hfin
  case send hq hcur hfin hdone hbest =>
    rw [jobNeedsDisk_congr hconf hdraws.1] at hdone
    rw [arriveAtDisk_congr hconf hdraws.2.1]
    exact .send hq hcur hfin hdone hbest
  case keep hcur hfin hdone hbest =>
    rw [jobNeedsDisk_congr hconf hdraws.1] at hdone
    exact .keep hcur hfin hdone hbest
  case kill hq hcur hfin hdone =>
    rw [jobNeedsDisk_congr hconf hdraws.1] at hdone
    exact .kill hq hcur hfin hdone
  case enter hq hidle hpos => exact .enter hq hidle hpos
  case serve hcur hpos => exact .serve hcur hpos
  case record => exact .record

end Congr

/-- With limits for which nothing wraps around, the moves are those of `Env.ofRandom`. -/
theorem step_ofInt_iff {random : ℕ → ℕ} {m : Move}
    (hdraws : ∀ c ∈ m.draws conf, 0 ≤ c.low ∧ c.low ≤ c.high ∧ c.high < 2 ^ 31 - 1) :
    Step (Env.ofInt conf random) s m t ↔ Step (Env.ofRandom conf random) s m t := by
  have hout : ∀ c ∈ m.draws conf, ∀ k,
      intOutcome random k c.low c.high = randomOutcome random k c.low c.high := fun c hc k => by
    obtain ⟨h0, hle, hlt⟩ := hdraws c hc
    exact intOutcome_eq h0 hle hlt random k
  constructor
  · intro h
    refine Step.congr ?_ h fun c hc k => (hout c hc k).symm
    rfl
  · intro h
    refine Step.congr ?_ h hout
    rfl

/-- The move draws with limits that suit it: the interval between two arrivals can be drawn, and if
a job goes to the second disk, its service time is apt. -/
def Conf.Suits (conf : Conf) : Move → Prop
  | .generate => (conf.arriveMax + 1) % 2 ^ 32 ≠ conf.arriveMin % 2 ^ 32
  | .swap i _ _ => i = 1 → conf.AptFor (.disk 1)
  | .send _ i => i = 1 → conf.AptFor (.disk 1)
  | _ => True

theorem Conf.Limits.aptFor_disk (h : conf.Limits) {i : Fin 2}
    (hi : i = 1 → conf.AptFor (.disk 1)) : conf.AptFor (.disk i) := by
  by_cases hone : i = 1
  · exact hone ▸ hi hone
  · exact h.aptFor fun e => hone (Dev.disk.inj e)

theorem Conf.Limits.divisor_ne_zero (h : conf.Limits) {dev : Dev} (hdev : conf.AptFor dev)
    (c : Caller) :
    divisor (conf.serviceDraw c dev).low (conf.serviceDraw c dev).high ≠ 0 := by
  have hlow := (h.min_le dev).trans_lt (h.max_lt dev)
  simp only [Conf.serviceDraw]
  exact Apt.divisor_ne_zero hlow hdev

/-- **No division by zero** in a move that draws with suitable limits. -/
theorem Conf.Suits.divisor_ne_zero {m : Move} (hm : conf.Suits m) (h : conf.Limits) :
    ∀ c ∈ m.draws conf, divisor c.low c.high ≠ 0 := by
  have hcpu : ∀ c, divisor (conf.serviceDraw c .cpu).low (conf.serviceDraw c .cpu).high ≠ 0 :=
    h.divisor_ne_zero (h.aptFor Dev.noConfusion)
  have hneeds : divisor 0 100 ≠ 0 := by decide
  cases m with
  | generate =>
    have harrive : divisor (toInt conf.arriveMin) (toInt conf.arriveMax) ≠ 0 := by
      rw [ne_eq, divisor_eq_zero_iff]
      exact hm
    simpa [Move.draws] using ⟨harrive, hcpu _⟩
  | back i j => simpa [Move.draws] using hcpu _
  | swap i j k => simpa [Move.draws] using ⟨hcpu _, h.divisor_ne_zero (h.aptFor_disk hm) _⟩
  | send j i => simpa [Move.draws] using ⟨hneeds, h.divisor_ne_zero (h.aptFor_disk hm) _⟩
  | keep j => simpa [Move.draws] using hneeds
  | kill j => simpa [Move.draws] using hneeds
  | _ => simp [Move.draws]

end Simulation
