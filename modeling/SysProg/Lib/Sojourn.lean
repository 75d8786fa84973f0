import Mathlib.Algebra.BigOperators.Group.Multiset.Basic
import Mathlib.Tactic

/-!
# Visits to a station

Keys come to a station and leave it again.  `since k` is the time at which `k` last came, `visits`
are the times of coming and leaving of the visits that are over, and `present` are the keys that are
at the station.  Nothing is said about the order in which they leave.

* `area now since visits present`: the time that all visits have taken up to `now`;
* `area_come`, `area_go`: it does not change when a key comes or leaves;
* `area_succ`: it grows by the number of keys that are present.

So a counter that adds up the number of keys present, once in each unit of time, is the sum of the
lengths of all visits, whatever comes and goes in between.  This is Little's law, before the
division by the time.
-/

namespace Sojourn

variable {κ : Type*}

/-- The time that the visits have taken: those that are over, and those that are not. -/
def area (now : ℕ) (since : κ → ℕ) (visits : List (ℕ × ℕ)) (present : Multiset κ) : ℕ :=
  (visits.map fun v => v.2 - v.1).sum + (present.map fun k => now - since k).sum

variable {now : ℕ} {since since' : κ → ℕ} {visits : List (ℕ × ℕ)} {present present' : Multiset κ}
  {k : κ}

@[simp] theorem area_nil : area now since [] (0 : Multiset κ) = 0 := rfl

/-- Only the keys that are present matter. -/
theorem area_congr (h : ∀ k ∈ present, since' k = since k) :
    area now since' visits present = area now since visits present := by
  rw [area, area, Multiset.map_congr rfl fun k hk => by rw [h k hk]]

/-- **A key comes.** -/
theorem area_come (hk : since' k = now) (h : ∀ m ∈ present, since' m = since m) :
    area now since' visits (k ::ₘ present) = area now since visits present := by
  rw [← area_congr h, area, area, Multiset.map_cons, Multiset.sum_cons, hk, Nat.sub_self, zero_add]

/-- **A key leaves.** -/
theorem area_go : area now since (visits ++ [(since k, now)]) present =
    area now since visits (k ::ₘ present) := by
  rw [area, area, List.map_append, List.sum_append, Multiset.map_cons, Multiset.sum_cons,
    List.map_singleton, List.sum_singleton, add_assoc]

/-- **A unit of time passes.** -/
theorem area_succ (h : ∀ k ∈ present, since k ≤ now) :
    area (now + 1) since visits present = area now since visits present + present.card := by
  have hone : ∀ k ∈ present, now + 1 - since k = now - since k + 1 := fun k hk =>
    Nat.sub_add_comm (h k hk)
  rw [area, area, Multiset.map_congr rfl hone, Multiset.sum_map_add, Multiset.map_const',
    Multiset.sum_replicate, smul_eq_mul, mul_one, add_assoc]

end Sojourn
