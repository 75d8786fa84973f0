import Mathlib.Data.Set.Insert
import Mathlib.Tactic.DeriveFintype
import SysProg.Lib.Runs
import SysProg.Lib.Tokens

/-!
# The way of a socket

What the server is for, without its threads: a socket comes in, waits in a queue, is handed to a
worker, is served by it and leaves.

* `Sockets`, `Travel`, `Sockets.Step`: which sockets are open and where they are, and how one moves on;
* `run_settled`: each open socket is in one place, once;
* `run_first_in_first_out`: the workers get the sockets in the order in which they came in;
* `run_served`: a worker lets go of what it has got, one socket after another.
-/

namespace Spellchecker

open Runs Tokens

/-- Where an open socket can be: on its way into the queue, in it, on its way to a worker, or with
the worker that serves it. -/
inductive Place (W : Type*)
  | accepted
  | queued
  | handed (w : W)
  | served (w : W)
  deriving DecidableEq, Fintype

/-- The sockets that are open, and the ones in each place. -/
@[ext] structure Sockets (W : Type*) where
  opened : Set ℕ
  places : Place W → List ℕ

/-- How a socket moves on. -/
inductive Travel (W : Type*)
  | enter (fd : ℕ)
  | queue (fd : ℕ)
  | take (w : W) (fd : ℕ)
  | serve (w : W) (fd : ℕ)
  | leave (w : W) (fd : ℕ)

/-- No socket is open. -/
def Sockets.start (W : Type*) : Sockets W := ⟨∅, fun _ => []⟩

section Step

variable {W : Type*} [DecidableEq W]

/-- A place holds other sockets. -/
def Sockets.put (S : Sockets W) (place : Place W) (fds : List ℕ) : Sockets W :=
  { S with places := Function.update S.places place fds }

@[simp] theorem Sockets.put_opened (S : Sockets W) (place : Place W) (fds : List ℕ) :
    (S.put place fds).opened = S.opened := rfl

@[simp] theorem Sockets.put_self (S : Sockets W) (place : Place W) (fds : List ℕ) :
    (S.put place fds).places place = fds := by
  unfold put
  exact Function.update_self place fds S.places

theorem Sockets.put_of_ne (S : Sockets W) {place place' : Place W} (h : place' ≠ place)
    (fds : List ℕ) : (S.put place fds).places place' = S.places place' := by
  unfold put
  exact Function.update_of_ne h fds S.places

/-- What two places hold has changed. -/
theorem Sockets.eq_put_put {S T : Sockets W} {i j : Place W} {fds fds' : List ℕ}
    (hopened : T.opened = S.opened) (hi : T.places i = fds) (hj : T.places j = fds')
    (hother : ∀ k, k ≠ i → k ≠ j → T.places k = S.places k) : T = (S.put i fds).put j fds' := by
  refine Sockets.ext hopened (funext fun k => ?_)
  by_cases hkj : k = j
  · rw [hkj, put_self, hj]
  · rw [put_of_ne _ hkj]
    by_cases hki : k = i
    · rw [hki, put_self, hi]
    · rw [put_of_ne _ hki, hother k hki hkj]

/-- What one place holds has changed, and which sockets are open. -/
theorem Sockets.eq_put {S T : Sockets W} {i : Place W} {fds : List ℕ} {opened : Set ℕ}
    (hopened : T.opened = opened) (hi : T.places i = fds)
    (hother : ∀ k, k ≠ i → T.places k = S.places k) :
    T = { S.put i fds with opened := opened } := by
  refine Sockets.ext hopened (funext fun k => ?_)
  by_cases hki : k = i
  · rw [hki, put_self, hi]
  · rw [put_of_ne _ hki, hother k hki]

/-- A socket moves on.  A worker takes no socket before it has let go of the last one. -/
inductive Sockets.Step : Sockets W → Travel W → Sockets W → Prop
  | enter {S : Sockets W} {fd : ℕ} : fd ∉ S.opened → S.places .accepted = [] →
      Step S (.enter fd) { S.put .accepted [fd] with opened := insert fd S.opened }
  | queue {S : Sockets W} {fd : ℕ} : S.places .accepted = [fd] →
      Step S (.queue fd) ((S.put .accepted []).put .queued (S.places .queued ++ [fd]))
  | take {S : Sockets W} {w : W} {fd : ℕ} {rest : List ℕ} : S.places .queued = fd :: rest →
      S.places (.handed w) = [] → S.places (.served w) = [] →
      Step S (.take w fd) ((S.put .queued rest).put (.handed w) [fd])
  | serve {S : Sockets W} {w : W} {fd : ℕ} : S.places (.handed w) = [fd] →
      S.places (.served w) = [] →
      Step S (.serve w fd) ((S.put (.handed w) []).put (.served w) [fd])
  | leave {S : Sockets W} {w : W} {fd : ℕ} : S.places (.served w) = [fd] →
      Step S (.leave w fd) { S.put (.served w) [] with opened := S.opened \ {fd} }

/-- The socket that comes in. -/
def Travel.incoming : Travel W → Option ℕ
  | .enter fd => some fd
  | _ => none

/-- The socket that some worker takes. -/
def Travel.outgoing : Travel W → Option ℕ
  | .take _ fd => some fd
  | _ => none

/-- The socket that the worker takes. -/
def Travel.takenBy (w : W) : Travel W → Option ℕ
  | .take v fd => if v = w then some fd else none
  | _ => none

/-- The socket that the worker lets go of. -/
def Travel.leftBy (w : W) : Travel W → Option ℕ
  | .leave v fd => if v = w then some fd else none
  | _ => none

variable {S S' : Sockets W} {m : Travel W} {ms : List (Travel W)}

/-! ### One place for each -/

/-- A socket goes from the place `i` to the place `j`. -/
theorem Sockets.settled_put [Fintype W] {i j : Place W} {fd : ℕ} {fds fds' : List ℕ}
    (h : Settled (· ∈ S.opened) S.places) (hij : i ≠ j) (hi : (S.places i).Perm (fd :: fds))
    (hj : fds'.Perm (fd :: S.places j)) :
    Settled (· ∈ S.opened) ((S.put i fds).put j fds').places := by
  refine h.move hij (a := fd) ?_ (by simpa using hj) fun k hki hkj => ?_
  · rwa [put_of_ne _ hij, put_self]
  · rw [put_of_ne _ hkj, put_of_ne _ hki]

theorem Sockets.Step.settled [Fintype W] (h : Settled (· ∈ S.opened) S.places)
    (hstep : Sockets.Step S m S') : Settled (· ∈ S'.opened) S'.places := by
  cases hstep with
  | enter hnew hnone =>
    refine h.enter (i := .accepted) hnew ?_ fun k hk => put_of_ne S hk _
    rw [put_self, hnone]
  | queue hone =>
    exact settled_put h (by simp) (by rw [hone]) (List.perm_append_singleton _ _)
  | take hq hnone _ => exact settled_put h (by simp) (by rw [hq]) (by rw [hnone])
  | serve hone hnone => exact settled_put h (by simp) (by rw [hone]) (by rw [hnone])
  | @leave w _ hone =>
    refine h.leave (i := .served w) ?_ fun k hk => put_of_ne S hk _
    rw [put_self, hone]

/-- **Each open socket is in one place, once**, and no other one is anywhere. -/
theorem run_settled [Fintype W] (h : Run Sockets.Step (.start W) ms S) :
    Settled (· ∈ S.opened) S.places :=
  h.invariant (P := fun S => Settled (· ∈ S.opened) S.places)
    (fun _ _ _ hsettled hstep => hstep.settled hsettled)
    ⟨fun _ hfd => absurd hfd (Set.notMem_empty _), fun _ _ => by simp [Sockets.start, total]⟩

/-! ### In which order -/

/-- **First in, first out.** -/
theorem run_first_in_first_out (h : Run Sockets.Step (.start W) ms S) :
    ms.filterMap Travel.incoming =
      ms.filterMap Travel.outgoing ++ (S.places .queued ++ S.places .accepted) := by
  refine h.balance (f := fun S => S.places .queued ++ S.places .accepted) fun S m S' hstep => ?_
  cases hstep with
  | enter _ hnone => simp [Sockets.put_of_ne, hnone, Travel.incoming, Travel.outgoing]
  | queue hone => simp [Sockets.put_of_ne, hone, Travel.incoming, Travel.outgoing]
  | take hq _ _ => simp [Sockets.put_of_ne, hq, Travel.incoming, Travel.outgoing]
  | serve _ _ => simp [Sockets.put_of_ne, Travel.incoming, Travel.outgoing]
  | leave _ => simp [Sockets.put_of_ne, Travel.incoming, Travel.outgoing]

/-- **A worker lets go of what it has taken, one socket after another.** -/
theorem run_served (h : Run Sockets.Step (.start W) ms S) (w : W) :
    ms.filterMap (Travel.takenBy w) =
      ms.filterMap (Travel.leftBy w) ++ (S.places (.served w) ++ S.places (.handed w)) := by
  refine h.balance (f := fun S => S.places (.served w) ++ S.places (.handed w)) fun S m S' hstep => ?_
  cases hstep with
  | enter _ _ => simp [Sockets.put_of_ne, Travel.takenBy, Travel.leftBy]
  | queue _ => simp [Sockets.put_of_ne, Travel.takenBy, Travel.leftBy]
  | @take v _ _ _ hhanded hserved =>
    by_cases hv : v = w
    · subst hv
      simp [Sockets.put_of_ne, hhanded, hserved, Travel.takenBy, Travel.leftBy]
    · simp [Sockets.put_of_ne, hv, Ne.symm hv, Travel.takenBy, Travel.leftBy]
  | @serve v _ hhanded hserved =>
    by_cases hv : v = w
    · subst hv
      simp [Sockets.put_of_ne, hhanded, hserved, Travel.takenBy, Travel.leftBy]
    · simp [Sockets.put_of_ne, Ne.symm hv, Travel.takenBy, Travel.leftBy]
  | @leave v _ hserved =>
    by_cases hv : v = w
    · subst hv
      simp [Sockets.put_of_ne, hserved, Travel.takenBy, Travel.leftBy]
    · simp [Sockets.put_of_ne, hv, Ne.symm hv, Travel.takenBy, Travel.leftBy]

end Step

end Spellchecker
