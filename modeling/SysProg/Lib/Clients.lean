import SysProg.Lib.Monitor

/-!
# The clients of a monitor

What the code around a monitor sees of it: an operation that a thread has called and that has not
acted yet (`Pc.pending`), a result that it has not returned yet (`Pc.inHand`), and the shared value.

* `Step.inside`, `Step.call_view`, `Step.act_view`, `Step.ret_view`: what each kind of step does to
  them;
* `Run.project`: the part of a run of a larger system that concerns one of its components;
* `Typed`, `Typed.step`: which operations each thread calls, and which results it gets;
* `Idle.exists_operation`: an operation that does not have to wait;
* `settled_of_stuck`: **no deadlock**, if no thread inside the monitor can take a step, the mutex is
  free and each thread is outside, or about to return, or waits for what is not the case.
-/

namespace Runs

/-- A step of a system is a step of a component, or leaves the component as it is: so a run of the
system is a run of the component. -/
theorem Run.project {σ α κ β : Type*} {step : σ → α → σ → Prop} {part : κ → β → κ → Prop}
    {f : σ → κ} {g : α → Option β} {s t : σ} {ls : List α} (h : Run step s ls t)
    (hstep : ∀ s a t, step s a t →
      (g a = none ∧ f t = f s) ∨ ∃ b, g a = some b ∧ part (f s) b (f t)) :
    Run part (f s) (ls.filterMap g) (f t) := by
  induction h with
  | nil s => exact .nil _
  | @cons s t u a ls ha _ ih =>
    rcases hstep _ _ _ ha with ⟨hg, heq⟩ | ⟨b, hg, hb⟩
    · rw [List.filterMap_cons_none hg, ← heq]
      exact ih
    · rw [List.filterMap_cons_some hg]
      exact .cons hb ih

/-- The steps of a run, each with what holds before it. -/
theorem Run.with_invariant {σ α : Type*} {step : σ → α → σ → Prop} {P : σ → Prop} {s t : σ}
    {ls : List α} (h : Run step s ls t) (hstep : ∀ s a t, P s → step s a t → P t) (h0 : P s) :
    Run (fun s a t => step s a t ∧ P s) s ls t := by
  induction h with
  | nil s => exact .nil _
  | cons ha _ ih => exact .cons ⟨ha, h0⟩ (ih (hstep _ _ _ h0 ha))

end Runs

namespace Monitor

open Runs

variable {τ σ ω ρ : Type*} [DecidableEq τ] {M : Object σ ω ρ} {s s' : State τ σ ω ρ} {t u : τ}
  {e : Event ω ρ} {o : ω} {r : ρ} {x : σ} {ls : List (τ × Event ω ρ)}

/-! ### What the clients see -/

/-- The events inside of an operation. -/
def Event.Within : Event ω ρ → Prop
  | .call _ | .ret _ => False
  | _ => True

/-- The events inside of an operation, apart from its act. -/
def Event.Inside : Event ω ρ → Prop
  | .call _ | .act _ _ | .ret _ => False
  | _ => True

theorem Event.Within.cases (he : e.Within) : e.Inside ∨ ∃ o r, e = .act o r := by
  cases e with
  | act o r => exact Or.inr ⟨o, r, rfl⟩
  | call _ => exact he.elim
  | ret _ => exact he.elim
  | _ => exact Or.inl trivial

/-- Nothing changes for a thread by the step of another one. -/
theorem Step.view_of_ne (h : Step M s (t, e) s') (hu : u ≠ t) :
    (s'.pc u).pending = (s.pc u).pending ∧ (s'.pc u).inHand = (s.pc u).inHand :=
  ⟨h.frame Pc.pending_woken hu, h.frame Pc.inHand_woken hu⟩

/-- Nothing changes by a step inside. -/
theorem Step.inside (h : Step M s (t, e) s') (he : e.Inside) : s'.shared = s.shared ∧
    ∀ u, (s'.pc u).pending = (s.pc u).pending ∧ (s'.pc u).inHand = (s.pc u).inHand := by
  refine ⟨?_, fun u => ?_⟩
  · cases h with
    | act _ _ => exact he.elim
    | _ => rfl
  · by_cases hu : u = t
    · subst hu
      cases h with
      | call _ _ => exact he.elim
      | act _ _ => exact he.elim
      | ret _ => exact he.elim
      | _ => simp_all [Pc.pending, Pc.inHand]
    · exact h.view_of_ne hu

theorem Step.call_view (h : Step M s (t, .call o) s') : s'.shared = s.shared ∧
    s.pc t = .outside ∧ (s'.pc t).pending = [o] ∧ (s'.pc t).inHand = [] := by
  cases h with
  | call _ h => exact ⟨rfl, h, by simp [Pc.pending], by simp [Pc.inHand]⟩

theorem Step.act_view (h : Step M s (t, .act o r) s') : M.act o s.shared = some (r, s'.shared) ∧
    (s.pc t).pending = [o] ∧ (s.pc t).inHand = [] ∧ (s'.pc t).pending = [] ∧
      (s'.pc t).inHand = [r] := by
  cases h with
  | act h hact =>
    exact ⟨hact, by rw [h]; rfl, by rw [h]; rfl, by simp [Pc.pending], by simp [Pc.inHand]⟩

theorem Step.ret_view (h : Step M s (t, .ret r) s') : s'.shared = s.shared ∧
    (s.pc t).pending = [] ∧ (s.pc t).inHand = [r] ∧ s'.pc t = .outside := by
  cases h with
  | ret h => exact ⟨rfl, by rw [h]; rfl, by rw [h]; rfl, by simp⟩

theorem Pc.eq_outside_iff (p : Pc ω ρ) : p = .outside ↔ p.pending = [] ∧ p.inHand = [] := by
  cases p <;> simp [Pc.pending, Pc.inHand]

/-- A thread that has called is inside. -/
theorem Step.ne_outside_of_call (h : Step M s (t, .call o) s') : s'.pc t ≠ .outside := fun hout => by
  have hpending := h.call_view.2.2.1
  rw [hout] at hpending
  cases hpending

/-- A thread that returns has been inside. -/
theorem Step.ne_outside_of_ret (h : Step M s (t, .ret r) s') : s.pc t ≠ .outside := fun hout => by
  have hhand := h.ret_view.2.2.1
  rw [hout] at hhand
  cases hhand

/-- Nobody comes in or out by a step inside, or by one of another thread. -/
theorem Step.outside_iff (h : Step M s (t, e) s') (hu : u ≠ t ∨ e.Within) :
    s'.pc u = .outside ↔ s.pc u = .outside := by
  by_cases hut : u = t
  · subst hut
    have he := hu.resolve_left (not_not.2 rfl)
    cases h with
    | call _ _ => exact he.elim
    | ret _ => exact he.elim
    | _ => simp_all
  · rw [Pc.eq_outside_iff, Pc.eq_outside_iff, (h.view_of_ne hut).1, (h.view_of_ne hut).2]

/-- Each thread has called operations of some kind only, and has results of some kind only. -/
def Typed (kind : τ → ω → Prop) (result : τ → ρ → Prop) (s : State τ σ ω ρ) : Prop :=
  ∀ t, (∀ o ∈ (s.pc t).pending, kind t o) ∧ ∀ r ∈ (s.pc t).inHand, result t r

/-- The kinds are kept, if the operations that are called are of their kind. -/
theorem Typed.step {kind : τ → ω → Prop} {result : τ → ρ → Prop} (htyped : Typed kind result s)
    (hact : ∀ t o x r y, kind t o → M.act o x = some (r, y) → result t r)
    (h : Step M s (t, e) s') (hcall : ∀ o, e = .call o → kind t o) : Typed kind result s' := by
  intro u
  by_cases hu : u = t
  · subst hu
    have hold := htyped u
    cases e with
    | call o =>
      obtain ⟨-, -, hpending, hhand⟩ := h.call_view
      rw [hpending, hhand]
      exact ⟨by simpa using hcall o rfl, by simp⟩
    | act o r =>
      obtain ⟨ha, hpending, -, hpending', hhand'⟩ := h.act_view
      rw [hpending', hhand']
      refine ⟨by simp, fun r' hr' => ?_⟩
      rw [List.mem_singleton.1 hr']
      exact hact u o _ _ _ (hold.1 o (by rw [hpending]; exact List.mem_singleton_self o)) ha
    | ret r =>
      rw [h.ret_view.2.2.2]
      exact ⟨by simp [Pc.pending], by simp [Pc.inHand]⟩
    | _ =>
      rw [((h.inside trivial).2 u).1, ((h.inside trivial).2 u).2]
      exact hold
  · rw [(h.view_of_ne hu).1, (h.view_of_ne hu).2]
    exact htyped u

/-! ### An operation that does not have to wait -/

/-- Nobody is inside. -/
def Idle (s : State τ σ ω ρ) : Prop := s.mutex = none ∧ ∀ t, s.pc t = .outside

/-- What a thread does between the call and the return. -/
def operation (t : τ) (o : ω) (r : ρ) : List (τ × Event ω ρ) :=
  [(t, .lock), (t, .test), (t, .act o r), (t, .unlock), (t, .notify)]

omit [DecidableEq τ] in
theorem within_operation (t : τ) (o : ω) (r : ρ) : ∀ a ∈ operation t o r, a.2.Within := by
  simp [operation, Event.Within]

/-- If nobody is inside, an operation that is ready goes through, and nobody is inside again. -/
theorem Idle.exists_operation (hidle : Idle s) (t : τ) (hready : M.ready o s.shared)
    (hact : M.act o s.shared = some (r, x)) : ∃ s₁ s₂ s₃, Step M s (t, .call o) s₁ ∧
      Run (Step M) s₁ (operation t o r) s₂ ∧ Step M s₂ (t, .ret r) s₃ ∧ Idle s₃ ∧ s₃.shared = x := by
  have hrun : ∃ s₂, Run (Step M) (s.goto t (.locking o)) (operation t o r) s₂ ∧
      s₂.mutex = none ∧ s₂.shared = x ∧ s₂.pc t = .returning r ∧ ∀ u, u ≠ t → s₂.pc u = .outside := by
    refine Run.exists_cons (.lock (State.goto_pc_self _ _ _) hidle.1) ?_
    refine Run.exists_cons (.ready (State.goto_pc_self _ _ _) hready) ?_
    refine Run.exists_cons (.act (State.goto_pc_self _ _ _) hact) ?_
    refine Run.exists_cons (.unlock (State.goto_pc_self _ _ _)) ?_
    refine Run.exists_cons (.notify (State.goto_pc_self _ _ _)) ?_
    refine ⟨_, .nil _, rfl, rfl, State.goto_pc_self _ _ _, fun u hu => ?_⟩
    simp [State.goto_pc_of_ne _ _ hu, hidle.2 u, Pc.woken]
  obtain ⟨s₂, hrun, hmutex, hshared, hret, hother⟩ := hrun
  refine ⟨_, s₂, _, .call o (hidle.2 t), hrun, .ret hret, ⟨hmutex, fun u => ?_⟩, hshared⟩
  by_cases hu : u = t
  · rw [hu, State.goto_pc_self]
  · rw [State.goto_pc_of_ne _ _ hu, hother u hu]

/-! ### No deadlock -/

/-- A thread inside the monitor can take a step: one that is not a call, not a return, and not a
wakeup without a reason. -/
def CanStep (M : Object σ ω ρ) (s : State τ σ ω ρ) : Prop :=
  ∃ t e s', Step M s (t, e) s' ∧ e.Within ∧ e ≠ .wake

/-- The mutex is free, and each thread is outside, about to return, or parked. -/
theorem Inv.free_of_stuck (hinv : Inv M s)
    (hact : ∀ o x, M.ready o x → ∃ a, M.act o x = some a) (hstuck : ¬CanStep M s) :
    s.mutex = none ∧ ∀ t, s.pc t = .outside ∨ (∃ r, s.pc t = .returning r) ∨
      ∃ o, s.pc t = .parked o := by
  have hstep : ∀ t e s', Step M s (t, e) s' → e.Within → e ≠ .wake → False :=
    fun t e s' h he hne => hstuck ⟨t, e, s', h, he, hne⟩
  -- the holder of the mutex could go on
  have hfree : s.mutex = none := by
    cases hm : s.mutex with
    | none => rfl
    | some t =>
      have hold := (hinv.holds t).2 hm
      cases hpc : s.pc t with
      | testing o =>
        by_cases hr : M.ready o s.shared
        · exact (hstep _ _ _ (.ready hpc hr) trivial (by simp)).elim
        · exact (hstep _ _ _ (.unready hpc hr) trivial (by simp)).elim
      | blocking o => exact (hstep _ _ _ (.wait hpc) trivial (by simp)).elim
      | acting o =>
        obtain ⟨⟨r, x⟩, ha⟩ := hact o _ (hinv.acting t o hpc)
        exact (hstep _ _ _ (.act hpc ha) trivial (by simp)).elim
      | unlocking r => exact (hstep _ _ _ (.unlock hpc) trivial (by simp)).elim
      | _ => rw [hpc] at hold; exact hold.elim
  refine ⟨hfree, fun t => ?_⟩
  have hnot : ¬(s.pc t).Holds := fun hold => by
    rw [(hinv.holds t).1 hold] at hfree
    cases hfree
  cases hpc : s.pc t with
  | outside => exact Or.inl rfl
  | returning r => exact Or.inr (Or.inl ⟨r, rfl⟩)
  | parked o => exact Or.inr (Or.inr ⟨o, rfl⟩)
  | locking o => exact (hstep _ _ _ (.lock hpc hfree) trivial (by simp)).elim
  | waking o => exact (hstep _ _ _ (.relock hpc hfree) trivial (by simp)).elim
  | notifying r => exact (hstep _ _ _ (.notify hpc) trivial (by simp)).elim
  | _ => rw [hpc] at hnot; exact absurd trivial hnot

/-- **No deadlock.** -/
theorem settled_of_stuck (h : Run (Step M) (start x) ls s)
    (hact : ∀ o x, M.ready o x → ∃ a, M.act o x = some a) (hstuck : ¬CanStep M s) (t : τ) :
    s.pc t = .outside ∨ (∃ r, s.pc t = .returning r) ∨
      ∃ o, s.pc t = .parked o ∧ ¬M.ready o s.shared := by
  have hsettled := ((run_inv h (inv_start M x)).free_of_stuck hact hstuck).2
  rcases hsettled t with hout | hret | ⟨o, hpark⟩
  · exact Or.inl hout
  · exact Or.inr (Or.inl hret)
  · refine Or.inr (Or.inr ⟨o, hpark, fun hready => ?_⟩)
    -- the thread that has still to notify it could go on
    obtain ⟨_, _, -, -, hawaits⟩ := run_awaited h hpark
    obtain ⟨u, -, howes, -⟩ := hawaits hready
    rcases hsettled u with hu | ⟨r, hu⟩ | ⟨o', hu⟩ <;> rw [hu] at howes <;> exact howes

end Monitor
