import SysProg.Simulation.Ticks

/-!
# Jobs are conserved

Every job that was ever generated is the upcoming one, or in one of the three queues, or
terminated, and it is there only once (`ticks_conserve_jobs`).
-/

namespace Simulation

open CInt Tokens Runs

variable {env : Env}

/-- **Job conservation.** At the end of every tick each job generated so far is in exactly one
place, once, and nothing else is in any place. -/
theorem ticks_conserve_jobs (hconf : env.conf.Positive) (hrand : env.InRange) {n : ℕ}
    (hn : n ≤ env.conf.finTime) : ∃ s, ticks env n = some s ∧
      (∀ j < s.jobCount, ∃ p, (s.places p).count j = 1 ∧ ∀ q, q ≠ p → j ∉ s.places q) ∧
      ∀ p, ∀ j ∈ s.places p, j < s.jobCount := by
  obtain ⟨s, ms, hs, -, hinv, -⟩ :=
    ticks_run (fun i => hrand.serves hconf (.disk i)) hconf.finTime hn
  exact ⟨s, hs, fun j hj => hinv.settled.exists_place hj, fun p j hj =>
    hinv.settled.known_of_mem hj⟩

theorem ticks_conserve_jobs_confTxt : ∃ s, ticks (Env.ofRandom confTxt id) 100000 = some s ∧
    (∀ j < s.jobCount, ∃ p, (s.places p).count j = 1 ∧ ∀ q, q ≠ p → j ∉ s.places q) ∧
    ∀ p, ∀ j ∈ s.places p, j < s.jobCount :=
  ticks_conserve_jobs confTxt_positive (Env.ofRandom_inRange confTxt id) (le_refl 100000)

end Simulation
