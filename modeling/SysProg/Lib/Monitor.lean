import SysProg.Lib.Runs

/-!
# Monitors

An object whose operations run under one mutex, with one condition variable.  Threads of a type `τ`
call operations in `ω`, which wait until they are ready, act on the shared value in `σ`, release the
mutex, wake all waiting threads and return a result in `ρ`.  A thread that waits may also wake up
for no reason.

* `Object`, `Pc`, `State`, `Event`, `Step`: the object, the places in the code of an operation, and
  the steps of the threads, in any order;
* `Inv`: the mutex is held by at most one thread, and what its holder has tested is true;
* `run_acts`: **linearization**, the acts of a run in their order are a sequential run of the object;
* `run_calls`, `run_returns`: each act lies between the call and the return of its operation;
* `run_awaited`: **no lost wakeup**, a waiting thread that is ready waits for a notification that
  another thread has still to give.
-/

namespace Monitor

open Runs

/-- The operations of an object: when they may act, and what they do then.  An act without a result
is undefined. -/
structure Object (σ ω ρ : Type*) where
  ready : ω → σ → Prop
  act : ω → σ → Option (ρ × σ)

/-- The places in the code of an operation. -/
inductive Pc (ω ρ : Type*)
  | outside
  | locking (o : ω)
  | testing (o : ω)
  | blocking (o : ω)
  | parked (o : ω)
  | waking (o : ω)
  | acting (o : ω)
  | unlocking (r : ρ)
  | notifying (r : ρ)
  | returning (r : ρ)

/-- The mutex with its holder, the shared value and the place of each thread. -/
structure State (τ σ ω ρ : Type*) where
  mutex : Option τ
  shared : σ
  pc : τ → Pc ω ρ

/-- What a thread does in one step. -/
inductive Event (ω ρ : Type*)
  | call (o : ω)
  | lock
  | test
  | wait
  | wake
  | act (o : ω) (r : ρ)
  | unlock
  | notify
  | ret (r : ρ)

variable {τ σ ω ρ : Type*}

namespace Pc

/-- The place of a thread after a notification. -/
def woken : Pc ω ρ → Pc ω ρ
  | parked o => waking o
  | p => p

/-- The places between taking the mutex and releasing it. -/
def Holds : Pc ω ρ → Prop
  | testing _ | blocking _ | acting _ | unlocking _ => True
  | _ => False

/-- The operation that was called and has not acted yet. -/
def pending : Pc ω ρ → List ω
  | locking o | testing o | blocking o | parked o | waking o | acting o => [o]
  | _ => []

/-- The result of an operation that has acted and has not returned yet. -/
def inHand : Pc ω ρ → List ρ
  | unlocking r | notifying r | returning r => [r]
  | _ => []

@[simp] theorem holds_woken (p : Pc ω ρ) : p.woken.Holds ↔ p.Holds := by cases p <;> rfl

@[simp] theorem pending_woken (p : Pc ω ρ) : p.woken.pending = p.pending := by cases p <;> rfl

@[simp] theorem inHand_woken (p : Pc ω ρ) : p.woken.inHand = p.inHand := by cases p <;> rfl

theorem woken_ne_parked (p : Pc ω ρ) (o : ω) : p.woken ≠ parked o := by
  cases p <;> simp [woken]

theorem woken_of_holds {p : Pc ω ρ} (h : p.Holds) : p.woken = p := by
  cases p <;> first | rfl | exact h.elim

end Pc

/-- All threads are outside of the operations. -/
def start (x : σ) : State τ σ ω ρ := ⟨none, x, fun _ => .outside⟩

/-- The holder of the mutex is the thread inside, and what it has tested is true. -/
structure Inv (M : Object σ ω ρ) (s : State τ σ ω ρ) : Prop where
  holds : ∀ t, (s.pc t).Holds ↔ s.mutex = some t
  acting : ∀ t o, s.pc t = .acting o → M.ready o s.shared
  blocking : ∀ t o, s.pc t = .blocking o → ¬M.ready o s.shared

theorem inv_start (M : Object σ ω ρ) (x : σ) : Inv M (start x : State τ σ ω ρ) where
  holds _ := ⟨False.elim, fun h => nomatch h⟩
  acting _ _ h := nomatch h
  blocking _ _ h := nomatch h

/-- **Mutual exclusion.** -/
theorem Inv.holds_unique {M : Object σ ω ρ} {s : State τ σ ω ρ} {t u : τ} (hinv : Inv M s)
    (ht : (s.pc t).Holds) (hu : (s.pc u).Holds) : u = t :=
  Option.some.inj (((hinv.holds u).1 hu).symm.trans ((hinv.holds t).1 ht))

variable [DecidableEq τ]

/-- The thread goes to another place. -/
def State.goto (s : State τ σ ω ρ) (t : τ) (p : Pc ω ρ) : State τ σ ω ρ :=
  { s with pc := Function.update s.pc t p }

/-- The steps of the threads. -/
inductive Step (M : Object σ ω ρ) :
    State τ σ ω ρ → τ × Event ω ρ → State τ σ ω ρ → Prop
  | call {s t} (o : ω) (h : s.pc t = .outside) : Step M s (t, .call o) (s.goto t (.locking o))
  | lock {s t o} (h : s.pc t = .locking o) (hfree : s.mutex = none) :
      Step M s (t, .lock) ({ s with mutex := some t }.goto t (.testing o))
  | ready {s t o} (h : s.pc t = .testing o) (hready : M.ready o s.shared) :
      Step M s (t, .test) (s.goto t (.acting o))
  | unready {s t o} (h : s.pc t = .testing o) (hready : ¬M.ready o s.shared) :
      Step M s (t, .test) (s.goto t (.blocking o))
  | wait {s t o} (h : s.pc t = .blocking o) :
      Step M s (t, .wait) ({ s with mutex := none }.goto t (.parked o))
  | wake {s t o} (h : s.pc t = .parked o) : Step M s (t, .wake) (s.goto t (.waking o))
  | relock {s t o} (h : s.pc t = .waking o) (hfree : s.mutex = none) :
      Step M s (t, .lock) ({ s with mutex := some t }.goto t (.testing o))
  | act {s t o r x} (h : s.pc t = .acting o) (hact : M.act o s.shared = some (r, x)) :
      Step M s (t, .act o r) ({ s with shared := x }.goto t (.unlocking r))
  | unlock {s t r} (h : s.pc t = .unlocking r) :
      Step M s (t, .unlock) ({ s with mutex := none }.goto t (.notifying r))
  | notify {s t r} (h : s.pc t = .notifying r) :
      Step M s (t, .notify) ({ s with pc := fun u => (s.pc u).woken }.goto t (.returning r))
  | ret {s t r} (h : s.pc t = .returning r) : Step M s (t, .ret r) (s.goto t .outside)

variable {M : Object σ ω ρ} {s s' : State τ σ ω ρ} {t u : τ} {e : Event ω ρ} {o : ω} {r : ρ} {x : σ}
  {ls : List (τ × Event ω ρ)}

namespace State

@[simp] theorem goto_mutex (s : State τ σ ω ρ) (t : τ) (p : Pc ω ρ) :
    (s.goto t p).mutex = s.mutex := rfl

@[simp] theorem goto_shared (s : State τ σ ω ρ) (t : τ) (p : Pc ω ρ) :
    (s.goto t p).shared = s.shared := rfl

@[simp] theorem goto_pc_self (s : State τ σ ω ρ) (t : τ) (p : Pc ω ρ) : (s.goto t p).pc t = p := by
  unfold goto
  exact Function.update_self t p s.pc

theorem goto_pc_of_ne (s : State τ σ ω ρ) (p : Pc ω ρ) (h : u ≠ t) : (s.goto t p).pc u = s.pc u := by
  unfold goto
  exact Function.update_of_ne h p s.pc

end State

/-! ### What one step does to the threads -/

/-- A step of a thread leaves the other ones where they are, or wakes them. -/
theorem Step.pc_of_ne (h : Step M s (t, e) s') (hu : u ≠ t) :
    s'.pc u = s.pc u ∨ e = .notify ∧ s'.pc u = (s.pc u).woken := by
  cases h with
  | notify h => exact Or.inr ⟨rfl, State.goto_pc_of_ne _ _ hu⟩
  | _ => exact Or.inl (State.goto_pc_of_ne _ _ hu)

/-- A thread keeps what does not change when it is woken. -/
theorem Step.frame {α : Type*} {f : Pc ω ρ → α} (hf : ∀ p, f p.woken = f p)
    (h : Step M s (t, e) s') (hu : u ≠ t) : f (s'.pc u) = f (s.pc u) := by
  rcases h.pc_of_ne hu with heq | ⟨-, heq⟩
  · rw [heq]
  · rw [heq, hf]

/-! ### The mutex -/

/-- Only a thread inside changes the shared value, so the other threads inside find it unchanged. -/
theorem Inv.shared_of_holds (hinv : Inv M s) (h : Step M s (t, e) s') (hu : u ≠ t)
    (hhold : (s.pc u).Holds) : s'.shared = s.shared := by
  cases h with
  | act h _ =>
    have ht : (s.pc t).Holds := by rw [h]; trivial
    exact absurd (hinv.holds_unique ht hhold) hu
  | _ => rfl

/-- A step of a thread neither gives the mutex to another one nor takes it away. -/
theorem Inv.mutex_of_ne (hinv : Inv M s) (h : Step M s (t, e) s') (hu : u ≠ t) :
    s'.mutex = some u ↔ s.mutex = some u := by
  have hne : some t ≠ some u := fun heq => hu (Option.some.inj heq).symm
  cases h with
  | lock _ hfree | relock _ hfree => simp [hfree, hne]
  | wait h | unlock h =>
    have ht : s.mutex = some t := (hinv.holds t).1 (by rw [h]; trivial)
    simp [ht, hne]
  | _ => rfl

theorem Inv.step_holds (hinv : Inv M s) (h : Step M s (t, e) s') (u : τ) :
    (s'.pc u).Holds ↔ s'.mutex = some u := by
  by_cases hu : u = t
  · subst hu
    have hold := hinv.holds u
    cases h <;> simp_all [Pc.Holds]
  · rw [h.frame (f := Pc.Holds) (fun p => propext (Pc.holds_woken p)) hu, hinv.holds u,
      hinv.mutex_of_ne h hu]

/-- A thread inside stays where it is and finds the same shared value, while others take a step. -/
theorem Inv.stays (hinv : Inv M s) (h : Step M s (t, e) s') (hu : u ≠ t)
    (hhold : (s'.pc u).Holds) : s'.pc u = s.pc u ∧ s'.shared = s.shared := by
  have hs : (s.pc u).Holds := by
    rwa [h.frame (f := Pc.Holds) (fun p => propext (Pc.holds_woken p)) hu] at hhold
  refine ⟨?_, hinv.shared_of_holds h hu hs⟩
  rcases h.pc_of_ne hu with heq | ⟨-, heq⟩
  · exact heq
  · rw [heq, Pc.woken_of_holds hs]

/-- **The step lemma.** -/
theorem Inv.step (hinv : Inv M s) (h : Step M s (t, e) s') : Inv M s' where
  holds := hinv.step_holds h
  acting u o hu := by
    by_cases hut : u = t
    · subst hut
      cases h with
      | ready _ hready => simp_all
      | _ => simp_all
    · obtain ⟨hpc, hshared⟩ := hinv.stays h hut (by rw [hu]; trivial)
      rw [hshared]
      exact hinv.acting u o (hpc ▸ hu)
  blocking u o hu := by
    by_cases hut : u = t
    · subst hut
      cases h <;> simp_all
    · obtain ⟨hpc, hshared⟩ := hinv.stays h hut (by rw [hu]; trivial)
      rw [hshared]
      exact hinv.blocking u o (hpc ▸ hu)

/-- **The run lemma.** -/
theorem run_inv (h : Run (Step M) s ls s') (hinv : Inv M s) : Inv M s' :=
  h.invariant (P := Inv M) (fun _ _ _ hinv hstep => hinv.step hstep) hinv

/-! ### Histories -/

/-- The operation that the thread calls with a step. -/
def called (u : τ) : τ × Event ω ρ → Option ω
  | (t, .call o) => if t = u then some o else none
  | _ => none

/-- The operation that the thread performs with a step. -/
def performed (u : τ) : τ × Event ω ρ → Option ω
  | (t, .act o _) => if t = u then some o else none
  | _ => none

/-- The result that the thread obtains with a step. -/
def obtained (u : τ) : τ × Event ω ρ → Option ρ
  | (t, .act _ r) => if t = u then some r else none
  | _ => none

/-- The result that the thread returns with a step. -/
def returned (u : τ) : τ × Event ω ρ → Option ρ
  | (t, .ret r) => if t = u then some r else none
  | _ => none

/-- The act of a step, by whichever thread. -/
def acted : τ × Event ω ρ → Option (ω × ρ)
  | (_, .act o r) => some (o, r)
  | _ => none

/-- The operations one after another, each when it is ready. -/
def Object.Seq (M : Object σ ω ρ) (x : σ) (a : ω × ρ) (y : σ) : Prop :=
  M.ready a.1 x ∧ M.act a.1 x = some (a.2, y)

/-- **Linearization.** The acts of a run, in their order, are a sequential run of the object. -/
theorem run_acts (hinv : Inv M s) (h : Run (Step M) s ls s') :
    Run M.Seq s.shared (ls.filterMap acted) s'.shared := by
  induction h with
  | nil s => exact .nil _
  | cons hstep _ ih =>
    have ih := ih (hinv.step hstep)
    cases hstep with
    | act h hact => exact .cons ⟨hinv.acting _ _ h, hact⟩ ih
    | _ => exact ih

/-- The operations that a thread has called are those that it has performed, and the pending one. -/
theorem run_calls (h : Run (Step M) s ls s') (u : τ) :
    (s.pc u).pending ++ ls.filterMap (called u) =
      ls.filterMap (performed u) ++ (s'.pc u).pending := by
  refine h.balance (f := fun s => (s.pc u).pending) fun s a s' hstep => ?_
  obtain ⟨t, e⟩ := a
  by_cases hu : u = t
  · subst hu
    cases hstep <;> simp_all [called, performed, Pc.pending]
  · rw [hstep.frame Pc.pending_woken hu]
    cases e <;> simp [called, performed, Ne.symm hu]

/-- The results that a thread has obtained are those that it has returned, and the one in hand. -/
theorem run_returns (h : Run (Step M) s ls s') (u : τ) :
    (s.pc u).inHand ++ ls.filterMap (obtained u) =
      ls.filterMap (returned u) ++ (s'.pc u).inHand := by
  refine h.balance (f := fun s => (s.pc u).inHand) fun s a s' hstep => ?_
  obtain ⟨t, e⟩ := a
  by_cases hu : u = t
  · subst hu
    cases hstep <;> simp_all [obtained, returned, Pc.inHand]
  · rw [hstep.frame Pc.inHand_woken hu]
    cases e <;> simp [obtained, returned, Ne.symm hu]

/-! ### Waiting threads -/

/-- The thread has acted and has not notified the others since then. -/
def Pc.Owes : Pc ω ρ → Prop
  | unlocking _ | notifying _ => True
  | _ => False

theorem Pc.owes_woken (p : Pc ω ρ) : p.woken.Owes ↔ p.Owes := by cases p <;> rfl

/-- After a part of the history, another thread has acted, and it has still to notify the rest. -/
def Awaits (s : State τ σ ω ρ) (t : τ) (post : List (τ × Event ω ρ)) : Prop :=
  ∃ u, u ≠ t ∧ (s.pc u).Owes ∧ ∃ before o r after,
    post = before ++ (u, .act o r) :: after ∧ (u, .notify) ∉ after

/-- The thread has been waiting since the point where the history splits, and if it is ready, then
it awaits a notification. -/
def Waited (M : Object σ ω ρ) (s : State τ σ ω ρ) (seen : List (τ × Event ω ρ)) (t : τ) (o : ω) :
    Prop :=
  ∃ pre post, seen = pre ++ (t, .wait) :: post ∧ (∀ a ∈ post, a.1 ≠ t) ∧
    (M.ready o s.shared → Awaits s t post)

/-- A step of another thread that notifies nobody. -/
theorem Awaits.step {post : List (τ × Event ω ρ)} (h : Awaits s t post) (hstep : Step M s (u, e) s')
    (he : e ≠ .notify) : Awaits s' t (post ++ [(u, e)]) := by
  obtain ⟨v, hv, howes, before, o, r, after, rfl, hafter⟩ := h
  refine ⟨v, hv, ?_, before, o, r, after ++ [(u, e)], by simp, ?_⟩
  · by_cases hvu : v = u
    · subst hvu
      cases hstep <;> simp_all [Pc.Owes]
    · rwa [hstep.frame (f := Pc.Owes) (fun p => propext p.owes_woken) hvu]
  · simp [hafter, Ne.symm he]

/-- A thread that waits after a step of another one waited before it, and nobody was notified. -/
theorem Step.parked_of_ne (h : Step M s (u, e) s') (ht : t ≠ u) (hpc : s'.pc t = .parked o) :
    s.pc t = .parked o ∧ e ≠ .notify := by
  rcases h.pc_of_ne ht with heq | ⟨-, heq⟩
  · refine ⟨heq ▸ hpc, ?_⟩
    rintro rfl
    cases h with
    | notify h => exact Pc.woken_ne_parked _ o ((State.goto_pc_of_ne _ _ ht).symm.trans hpc)
  · exact absurd (heq.symm.trans hpc) (Pc.woken_ne_parked _ o)

/-- **The step lemma for waiting threads.** -/
theorem Waited.step {seen : List (τ × Event ω ρ)} (hinv : Inv M s)
    (h : ∀ t o, s.pc t = .parked o → Waited M s seen t o) (hstep : Step M s (u, e) s') (t : τ)
    (o : ω) (hpc : s'.pc t = .parked o) : Waited M s' (seen ++ [(u, e)]) t o := by
  by_cases htu : t = u
  · -- the thread parks with this step, after it has found that it is not ready
    subst htu
    cases hstep with
    | @wait _ o' hb =>
      obtain rfl : o' = o := by simpa using hpc
      exact ⟨seen, [], rfl, by simp, fun hready => absurd hready (hinv.blocking _ _ hb)⟩
    | _ => simp at hpc
  · obtain ⟨hparked, he⟩ := hstep.parked_of_ne htu hpc
    obtain ⟨pre, post, rfl, hpost, haw⟩ := h t o hparked
    refine ⟨pre, post ++ [(u, e)], by simp, ?_, fun hready => ?_⟩
    · intro a ha
      rcases List.mem_append.1 ha with ha | ha
      · exact hpost a ha
      · rw [List.mem_singleton.1 ha]
        exact Ne.symm htu
    · by_cases hsame : s'.shared = s.shared
      · exact (haw (hsame ▸ hready)).step hstep he
      · -- only an act changes the shared value, and its thread has not notified anybody yet
        cases hstep with
        | act hact _ => exact ⟨u, Ne.symm htu, by simp [Pc.Owes], post, _, _, [], rfl, by simp⟩
        | _ => exact absurd rfl hsame

/-- **No lost wakeup.** -/
theorem run_awaited (h : Run (Step M) (start x) ls s) (ht : s.pc t = .parked o) :
    Waited M s ls t o := by
  have hstart : Inv M (start x : State τ σ ω ρ) ∧
      ∀ t o, (start x : State τ σ ω ρ).pc t = .parked o → Waited M (start x) [] t o :=
    ⟨inv_start M x, fun t o h => nomatch h⟩
  have hrun := h.trace
    (P := fun seen s => Inv M s ∧ ∀ t o, s.pc t = .parked o → Waited M s seen t o)
    (fun seen s a s' hP hstep => ⟨hP.1.step hstep, Waited.step hP.1 hP.2 hstep⟩) hstart
  exact hrun.2 t o ht

end Monitor
