import Mathlib.Logic.Relation
import Mathlib.Tactic

/-!
# Runs of a labelled step relation

A step relation `step : σ → α → σ → Prop` with labels in `α`.  `Run step s ls t` says that the
labels `ls`, taken one after another, lead from `s` to `t`.

* `Run.invariant`: what every step preserves, every run preserves;
* `Run.invariant_of_kind`: the same for runs with labels of one kind only;
* `Run.trace`: the same for a property of the labels seen so far and the state reached;
* `Run.balance`: what each step balances, first in and first out, every run does;
* `Run.le_add_sum`: what each step raises by its cost, every run raises by the sum of the costs;
* `Run.mono`, `Run.restrict`: weakening and strengthening the step relation;
* `Run.append`, `Run.snoc`, `Run.flatten`: joining runs;
* `invariant_of_star`: the invariant rule for the reflexive transitive closure;
* `Phases step kinds s t`: at most one step for each kind of label, in this order; it is a run
  (`Phases.run`), whose labels cost no more than the bounds for the kinds (`Phases.run_sum_le`).
-/

namespace Runs

variable {σ α : Type*} {step step' : σ → α → σ → Prop} {s t u : σ} {ls ms : List α}

/-- The labels `ls` lead from one state to another. -/
inductive Run (step : σ → α → σ → Prop) : σ → List α → σ → Prop
  | nil (s : σ) : Run step s [] s
  | cons {s t u : σ} {a : α} {ls : List α} : step s a t → Run step t ls u → Run step s (a :: ls) u

theorem Run.append (h : Run step s ls t) (h' : Run step t ms u) : Run step s (ls ++ ms) u := by
  induction h with
  | nil s => exact h'
  | cons ha _ ih => exact Run.cons ha (ih h')

theorem Run.snoc {a : α} (h : Run step s ls t) (ha : step t a u) : Run step s (ls ++ [a]) u :=
  h.append (Run.cons ha (Run.nil u))

/-- A run whose steps are runs. -/
theorem Run.flatten {lss : List (List α)} (h : Run (Run step) s lss t) :
    Run step s lss.flatten t := by
  induction h with
  | nil s => exact Run.nil s
  | cons hrun _ ih =>
    rw [List.flatten_cons]
    exact hrun.append ih

/-- To build a run with a property of its end, one step at a time. -/
theorem Run.exists_cons {P : σ → Prop} {a : α} (ha : step s a t)
    (h : ∃ u, Run step t ls u ∧ P u) : ∃ u, Run step s (a :: ls) u ∧ P u := by
  obtain ⟨u, hrun, hu⟩ := h
  exact ⟨u, .cons ha hrun, hu⟩

/-- A run of a smaller step relation is a run of a larger one. -/
theorem Run.mono (hsub : ∀ s a t, step s a t → step' s a t) (h : Run step s ls t) :
    Run step' s ls t := by
  induction h with
  | nil s => exact Run.nil s
  | cons ha _ ih => exact Run.cons (hsub _ _ _ ha) ih

/-- A run with labels of one kind takes steps of that kind. -/
theorem Run.restrict {kind : α → Prop} (h : Run step s ls t) (hkind : ∀ a ∈ ls, kind a) :
    Run (fun s a t => step s a t ∧ kind a) s ls t := by
  induction h with
  | nil s => exact Run.nil s
  | cons ha _ ih =>
    exact Run.cons ⟨ha, hkind _ List.mem_cons_self⟩
      (ih fun b hb => hkind b (List.mem_cons_of_mem _ hb))

/-- **The invariant rule.** What each step preserves holds at the end of each run. -/
theorem Run.invariant {P : σ → Prop} (hstep : ∀ s a t, P s → step s a t → P t) (h0 : P s)
    (h : Run step s ls t) : P t := by
  induction h with
  | nil s => exact h0
  | cons ha _ ih => exact ih (hstep _ _ _ h0 ha)

/-- The invariant rule for runs with labels of one kind. -/
theorem Run.invariant_of_kind (P : σ → Prop) (kind : α → Prop)
    (hstep : ∀ s a t, kind a → P s → step s a t → P t) (h0 : P s) (h : Run step s ls t)
    (hkind : ∀ a ∈ ls, kind a) : P t := by
  induction h with
  | nil s => exact h0
  | cons ha _ ih =>
    exact ih (hstep _ _ _ (hkind _ List.mem_cons_self) h0 ha)
      fun b hb => hkind b (List.mem_cons_of_mem _ hb)

/-- The invariant rule for a property of the labels seen so far and of the state reached. -/
theorem Run.trace {P : List α → σ → Prop}
    (hstep : ∀ seen s a t, P seen s → step s a t → P (seen ++ [a]) t) {seen : List α}
    (h0 : P seen s) (h : Run step s ls t) : P (seen ++ ls) t := by
  induction h generalizing seen with
  | nil s => simpa using h0
  | cons ha _ ih => simpa using ih (hstep _ _ _ _ h0 ha)

/-- **The balance rule.** What is there before a step and what comes in with it is what goes out and
what is there after it; so it is for runs, and the order is kept. -/
theorem Run.balance {β : Type*} {f : σ → List β} {enter leave : α → Option β}
    (hstep : ∀ s a t, step s a t → f s ++ (enter a).toList = (leave a).toList ++ f t)
    (h : Run step s ls t) : f s ++ ls.filterMap enter = ls.filterMap leave ++ f t := by
  induction h with
  | nil s => simp
  | @cons s t u a ls ha _ ih =>
    have hone := hstep s a t ha
    have hsplit : ∀ g : α → Option β, (a :: ls).filterMap g = (g a).toList ++ ls.filterMap g := by
      intro g
      cases hg : g a <;> simp [hg]
    rw [hsplit enter, hsplit leave, ← List.append_assoc, hone, List.append_assoc, ih,
      List.append_assoc]

/-- A measure that each step raises by at most its cost: a run raises it by at most what its labels
cost. -/
theorem Run.le_add_sum {f : σ → ℕ} {cost : α → ℕ}
    (hstep : ∀ s a t, step s a t → f t ≤ f s + cost a) (h : Run step s ls t) :
    f t ≤ f s + (ls.map cost).sum := by
  induction h with
  | nil s => exact Nat.le_add_right _ _
  | @cons s t u a ls ha _ ih =>
    have hone := hstep s a t ha
    rw [List.map_cons, List.sum_cons]
    omega

/-- The invariant rule for the reflexive transitive closure of a relation. -/
theorem invariant_of_star {r : σ → σ → Prop} {P : σ → Prop} (hstep : ∀ s t, P s → r s t → P t)
    (h0 : P s) (h : Relation.ReflTransGen r s t) : P t := by
  induction h with
  | refl => exact h0
  | tail _ hr ih => exact hstep _ _ ih hr

/-! ### Phases -/

/-- At most one step, with a label of the given kind. -/
def AtMost (step : σ → α → σ → Prop) (kind : α → Prop) (s t : σ) : Prop :=
  t = s ∨ ∃ a, kind a ∧ step s a t

theorem AtMost.refl (kind : α → Prop) (s : σ) : AtMost step kind s s := Or.inl rfl

theorem AtMost.single {kind : α → Prop} {a : α} (hk : kind a) (h : step s a t) :
    AtMost step kind s t := Or.inr ⟨a, hk, h⟩

theorem AtMost.run {kind : α → Prop} (h : AtMost step kind s t) :
    ∃ ls, Run step s ls t ∧ ∀ a ∈ ls, kind a := by
  rcases h with rfl | ⟨a, hk, h⟩
  · exact ⟨[], .nil _, fun _ ha => absurd ha List.not_mem_nil⟩
  · exact ⟨[a], .cons h (.nil _), fun b hb => List.mem_singleton.1 hb ▸ hk⟩

/-- At most one step for each kind of label, in this order. -/
inductive Phases (step : σ → α → σ → Prop) : List (α → Prop) → σ → σ → Prop
  | nil (s : σ) : Phases step [] s s
  | cons {s t u : σ} {kind : α → Prop} {kinds : List (α → Prop)} :
      AtMost step kind s t → Phases step kinds t u → Phases step (kind :: kinds) s u

theorem Phases.append {kinds kinds' : List (α → Prop)} (h : Phases step kinds s t)
    (h' : Phases step kinds' t u) : Phases step (kinds ++ kinds') s u := by
  induction h with
  | nil s => exact h'
  | cons hone _ ih => exact Phases.cons hone (ih h')

/-- Phases are a run.  Each label is of one of the kinds, and whatever the labels cost, all of them
cost no more than the bounds on the costs of the kinds. -/
theorem Phases.run_sum_le {kinds : List (α → Prop)} (h : Phases step kinds s t) :
    ∃ ls, Run step s ls t ∧ (∀ a ∈ ls, ∃ kind ∈ kinds, kind a) ∧ ∀ (cost : α → ℕ) (l : List ℕ),
      List.Forall₂ (fun kind k => ∀ a, kind a → cost a ≤ k) kinds l →
        (ls.map cost).sum ≤ l.sum := by
  induction h with
  | nil s => exact ⟨[], .nil s, fun _ ha => absurd ha List.not_mem_nil, fun _ _ _ => Nat.zero_le _⟩
  | @cons s t u kind kinds hone _ ih =>
    obtain ⟨ms, hms, hkinds, hsum⟩ := ih
    have hmem : ∀ b ∈ ms, ∃ k ∈ kind :: kinds, k b := fun b hb => by
      obtain ⟨k, hk, hkb⟩ := hkinds b hb
      exact ⟨k, List.mem_cons_of_mem _ hk, hkb⟩
    rcases hone with rfl | ⟨a, ha, hone⟩
    · refine ⟨ms, hms, hmem, fun cost l hcost => ?_⟩
      cases hcost with
      | cons _ hcost =>
        rw [List.sum_cons]
        exact (hsum cost _ hcost).trans (Nat.le_add_left _ _)
    · refine ⟨a :: ms, .cons hone hms, fun b hb => ?_, fun cost l hcost => ?_⟩
      · rcases List.mem_cons.1 hb with rfl | hb
        · exact ⟨kind, List.mem_cons_self, ha⟩
        · exact hmem b hb
      · cases hcost with
        | cons hk hcost =>
          rw [List.map_cons, List.sum_cons, List.sum_cons]
          exact Nat.add_le_add (hk a ha) (hsum cost _ hcost)

/-- Phases are a run, and each label is of one of the kinds. -/
theorem Phases.run {kinds : List (α → Prop)} (h : Phases step kinds s t) :
    ∃ ls, Run step s ls t ∧ ∀ a ∈ ls, ∃ kind ∈ kinds, kind a := by
  obtain ⟨ls, hls, hkinds, -⟩ := h.run_sum_le
  exact ⟨ls, hls, hkinds⟩

end Runs
