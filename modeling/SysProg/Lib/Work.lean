import Mathlib.Algebra.Order.BigOperators.Group.Finset
import Mathlib.Data.Fintype.BigOperators
import SysProg.Lib.Clients

/-!
# The work that is left

Threads inside of a monitor come to rest by themselves: a notification sends the waiting threads to
look at the shared value again, but the thread that gives it has gone further by more than that.

* `Run.length_add_le`, `exists_stuck`: a measure that each step lowers bounds the runs, and a run
  leads to where no step is left;
* `Run.count`, `exists_stuck_of_length_le`: the same for a quantity that counts the steps, and for any
  bound on the runs;
* `Pc.work`, `work`: the measure of a monitor;
* `Step.work_lt`, `Step.work_call`: what the steps do to it.
-/

namespace Runs

variable {σ α : Type*} {step : σ → α → σ → Prop} {work : σ → ℕ}

/-- What holds for the label of each step holds for all labels of a run. -/
theorem Run.forall_mem {kind : α → Prop} {s t : σ} {ls : List α} (h : Run step s ls t)
    (hstep : ∀ s a t, step s a t → kind a) : ∀ a ∈ ls, kind a := by
  induction h with
  | nil s => exact fun _ ha => absurd ha List.not_mem_nil
  | cons ha _ ih => exact List.forall_mem_cons.2 ⟨hstep _ _ _ ha, ih⟩

/-- Steps that lower a measure are not more than it. -/
theorem Run.length_add_le {s t : σ} {ls : List α} (h : Run step s ls t)
    (hstep : ∀ s a t, step s a t → work t < work s) : ls.length + work t ≤ work s := by
  induction h with
  | nil s => exact (Nat.zero_add _).le
  | cons ha _ ih =>
    have hlt := hstep _ _ _ ha
    rw [List.length_cons]
    omega

/-- A quantity that each step raises by one counts the steps of a run. -/
theorem Run.count {f : σ → ℕ} {s t : σ} {ls : List α} (h : Run step s ls t)
    (hstep : ∀ s a t, step s a t → f t = f s + 1) : f t = f s + ls.length := by
  induction h with
  | nil s => rfl
  | cons ha _ ih =>
    have hone := hstep _ _ _ ha
    rw [List.length_cons]
    omega

/-- Where all runs are bounded, one of them leads to where no step is left. -/
theorem exists_stuck_of_length_le {n : ℕ} {s : σ} (hle : ∀ ls t, Run step s ls t → ls.length ≤ n) :
    ∃ ls t, Run step s ls t ∧ ∀ a u, ¬step t a u := by
  by_contra hnone
  have hlong : ∀ m, ∃ ls t, Run step s ls t ∧ ls.length = m := by
    intro m
    induction m with
    | zero => exact ⟨[], s, .nil s, rfl⟩
    | succ m ih =>
      obtain ⟨ls, t, hrun, hlength⟩ := ih
      obtain ⟨a, u, ha⟩ : ∃ a u, step t a u := by
        by_contra hstuck
        exact hnone ⟨ls, t, hrun, fun a u ha => hstuck ⟨a, u, ha⟩⟩
      exact ⟨ls ++ [a], u, hrun.snoc ha, by rw [List.length_append, hlength, List.length_singleton]⟩
  obtain ⟨ls, t, hrun, hlength⟩ := hlong (n + 1)
  have hn := hle ls t hrun
  omega

/-- Steps that lower a measure lead to where no step is left. -/
theorem exists_stuck (hstep : ∀ s a t, step s a t → work t < work s) (s : σ) :
    ∃ ls t, Run step s ls t ∧ ∀ a u, ¬step t a u :=
  exists_stuck_of_length_le fun _ _ hrun => (Nat.le_add_right _ _).trans (hrun.length_add_le hstep)

end Runs

/-- A sum in which one summand changes. -/
theorem sum_add_of_ne {τ : Type*} [DecidableEq τ] {S : Finset τ} {f g : τ → ℕ} {t : τ} (ht : t ∈ S)
    (h : ∀ u, u ≠ t → g u = f u) : ∑ u ∈ S, g u + f t = ∑ u ∈ S, f u + g t := by
  have hsame : ∑ u ∈ S.erase t, g u = ∑ u ∈ S.erase t, f u :=
    Finset.sum_congr rfl fun u hu => h u (Finset.ne_of_mem_erase hu)
  rw [← Finset.add_sum_erase _ g ht, ← Finset.add_sum_erase _ f ht, hsame]
  omega

theorem sum_update_add {τ : Type*} [DecidableEq τ] {S : Finset τ} {t : τ} (ht : t ∈ S) (f : τ → ℕ)
    (b : ℕ) : ∑ u ∈ S, Function.update f t b u + f t = ∑ u ∈ S, f u + b := by
  have hsum := sum_add_of_ne (f := f) (g := Function.update f t b) ht
    fun u hu => Function.update_of_ne hu b f
  rwa [Function.update_self] at hsum

namespace Monitor

open Runs

variable {τ σ ω ρ : Type*}

/-- What is left to do for a thread in an operation, among `n` threads: a notification, which comes
before the return, may cost each of them three steps. -/
def Pc.work (n : ℕ) : Pc ω ρ → ℕ
  | outside => 0
  | returning _ => 1
  | notifying _ => 3 * n + 2
  | unlocking _ => 3 * n + 3
  | parked _ => 3 * n + 3
  | acting _ => 3 * n + 4
  | blocking _ => 3 * n + 4
  | testing _ => 3 * n + 5
  | locking _ => 3 * n + 6
  | waking _ => 3 * n + 6

theorem Pc.work_woken_le (n : ℕ) (p : Pc ω ρ) : p.woken.work n ≤ p.work n + 3 := by
  cases p <;> simp [woken, work]

variable [Fintype τ]

/-- What is left to do in a monitor. -/
def work (s : State τ σ ω ρ) : ℕ := ∑ t, (s.pc t).work (Fintype.card τ)

variable [DecidableEq τ] {M : Object σ ω ρ} {s s' : State τ σ ω ρ} {t : τ} {e : Event ω ρ} {o : ω}

theorem work_goto (s : State τ σ ω ρ) (t : τ) (p : Pc ω ρ) :
    work (s.goto t p) + (s.pc t).work (Fintype.card τ) = work s + p.work (Fintype.card τ) := by
  have hsum := sum_add_of_ne (f := fun u => (s.pc u).work (Fintype.card τ))
    (g := fun u => ((s.goto t p).pc u).work (Fintype.card τ)) (Finset.mem_univ t)
    fun u hu => by rw [State.goto_pc_of_ne _ _ hu]
  simpa [work] using hsum

/-- A call brings work in. -/
theorem Step.work_call (h : Step M s (t, .call o) s') :
    work s' = work s + (3 * Fintype.card τ + 6) := by
  cases h with
  | call _ h =>
    have hgoto := work_goto s t (.locking o)
    rw [h] at hgoto
    exact hgoto

/-- **Each other step that happens for a reason lowers the work that is left.** -/
theorem Step.work_lt (h : Step M s (t, e) s') (hcall : ∀ o, e ≠ .call o) (hwake : e ≠ .wake) :
    work s' < work s := by
  have hgoto : ∀ (q : State τ σ ω ρ) (p : Pc ω ρ), q.pc = s.pc →
      p.work (Fintype.card τ) < (s.pc t).work (Fintype.card τ) → work (q.goto t p) < work s := by
    intro q p hq hlt
    have heq := work_goto q t p
    have hsame : work q = work s := by rw [work, work, hq]
    rw [hq, hsame] at heq
    omega
  cases h with
  | call o _ => exact absurd rfl (hcall o)
  | wake _ => exact absurd rfl hwake
  | @notify t r h =>
    -- the others are woken
    have hwoken : ∑ u, (s.pc u).woken.work (Fintype.card τ) ≤ work s + 3 * Fintype.card τ := by
      have hle := Finset.sum_le_sum (s := Finset.univ)
        fun u (_ : u ∈ Finset.univ) => (s.pc u).work_woken_le (Fintype.card τ)
      rw [Finset.sum_add_distrib, Finset.sum_const, Finset.card_univ, smul_eq_mul] at hle
      rw [work]
      omega
    have heq := work_goto { s with pc := fun u => (s.pc u).woken } t (.returning r)
    have hall : work { s with pc := fun u => (s.pc u).woken } ≤ work s + 3 * Fintype.card τ := hwoken
    have hself : (s.pc t).woken.work (Fintype.card τ) = 3 * Fintype.card τ + 2 := by
      rw [h]
      rfl
    simp only [hself] at heq
    have hret : (Pc.returning r : Pc ω ρ).work (Fintype.card τ) = 1 := rfl
    omega
  | _ => exact hgoto _ _ rfl (by simp_all [Pc.work])

end Monitor
