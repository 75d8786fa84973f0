import Mathlib.Algebra.BigOperators.Group.Finset.Basic
import Mathlib.Data.List.Count
import Mathlib.Data.List.Perm.Basic
import Mathlib.Tactic

/-!
# Tokens in places

Tokens of a type `α` lie in the places of a finite type `ι`, each of which holds a list.

* `total places a`: how often the token `a` lies in some place;
* `Settled known places`: each known token lies in exactly one place, once, and no place holds a
  token that is not known;
* `Settled.enter`, `Settled.move`, `Settled.leave`: what keeps the tokens settled: a new token, a
  token that moves from one place to another, and one that goes.
-/

namespace Tokens

variable {ι α : Type*} [Fintype ι] [DecidableEq α]

/-- How often the token `a` lies in some place. -/
def total (places : ι → List α) (a : α) : ℕ := ∑ i, (places i).count a

/-- Each known token lies in exactly one place, once, and there are no other tokens. -/
structure Settled (known : α → Prop) (places : ι → List α) : Prop where
  once : ∀ a, known a → total places a = 1
  none : ∀ a, ¬known a → total places a = 0

variable {known : α → Prop} {places places' : ι → List α} {i j : ι} {a b : α}

theorem count_le_total (places : ι → List α) (i : ι) (a : α) : (places i).count a ≤ total places a :=
  Finset.single_le_sum (f := fun i => (places i).count a) (fun _ _ => Nat.zero_le _)
    (Finset.mem_univ i)

/-! ### What settled tokens satisfy -/

theorem Settled.total_le_one (h : Settled known places) (a : α) : total places a ≤ 1 := by
  by_cases ha : known a
  · exact (h.once a ha).le
  · rw [h.none a ha]
    exact Nat.zero_le 1

theorem Settled.nodup (h : Settled known places) (i : ι) : (places i).Nodup :=
  List.nodup_iff_count_le_one.2 fun a => (count_le_total places i a).trans (h.total_le_one a)

theorem Settled.known_of_mem (h : Settled known places) (ha : a ∈ places i) : known a := by
  by_contra hn
  have hle := count_le_total places i a
  have hpos := List.count_pos_iff.2 ha
  rw [h.none a hn] at hle
  omega

theorem Settled.of_total (h : Settled known places) (ht : ∀ a, total places' a = total places a) :
    Settled known places' where
  once a ha := (ht a).trans (h.once a ha)
  none a ha := (ht a).trans (h.none a ha)

variable [DecidableEq ι]

/-- The tokens in two places and those in the other ones. -/
theorem total_eq_add (hij : i ≠ j) (places : ι → List α) (a : α) :
    total places a = (places i).count a + (places j).count a +
      ∑ k ∈ (Finset.univ.erase i).erase j, (places k).count a := by
  rw [total, ← Finset.add_sum_erase _ _ (Finset.mem_univ i),
    ← Finset.add_sum_erase _ _ (Finset.mem_erase.2 ⟨hij.symm, Finset.mem_univ j⟩), Nat.add_assoc]

/-- Two families that agree outside of two places. -/
theorem rest_congr (h : ∀ k, k ≠ i → k ≠ j → places' k = places k) (a : α) :
    ∑ k ∈ (Finset.univ.erase i).erase j, (places' k).count a =
      ∑ k ∈ (Finset.univ.erase i).erase j, (places k).count a := by
  refine Finset.sum_congr rfl fun k hk => ?_
  rw [Finset.mem_erase, Finset.mem_erase] at hk
  rw [h k hk.2.1 hk.1]

/-- A token lies in one place only. -/
theorem Settled.place_unique (h : Settled known places) (hi : a ∈ places i) (hj : a ∈ places j) :
    i = j := by
  by_contra hij
  have htot := total_eq_add hij places a
  have hle := h.total_le_one a
  have hi := List.count_pos_iff.2 hi
  have hj := List.count_pos_iff.2 hj
  omega

/-- Each known token lies in some place. -/
theorem Settled.exists_place (h : Settled known places) (ha : known a) :
    ∃ i, (places i).count a = 1 ∧ ∀ j, j ≠ i → a ∉ places j := by
  have hone := h.once a ha
  obtain ⟨i, -, hi⟩ := Finset.exists_ne_zero_of_sum_ne_zero (hone.trans_ne one_ne_zero)
  have hmem : a ∈ places i := List.count_pos_iff.1 (Nat.pos_of_ne_zero hi)
  refine ⟨i, ?_, fun j hji hj => hji (h.place_unique hj hmem)⟩
  have := count_le_total places i a
  omega

/-! ### What keeps tokens settled -/

/-- A new token comes to a place. -/
theorem Settled.enter (h : Settled known places) (hb : ¬known b)
    (hi : (places' i).Perm (b :: places i)) (hother : ∀ k, k ≠ i → places' k = places k) :
    Settled (fun a => a = b ∨ known a) places' := by
  have htot : ∀ a, total places' a = total places a + [b].count a := by
    intro a
    rw [total, total, ← Finset.add_sum_erase _ _ (Finset.mem_univ i), hi.count_eq,
      ← Finset.add_sum_erase Finset.univ (fun k => (places k).count a) (Finset.mem_univ i),
      Finset.sum_congr rfl fun k hk => by rw [hother k (Finset.ne_of_mem_erase hk)],
      ← List.singleton_append, List.count_append]
    omega
  constructor
  · intro a ha
    rw [htot]
    by_cases hab : a = b
    · subst hab
      simp [h.none a hb]
    · simp [h.once a (ha.resolve_left hab), Ne.symm hab]
  · intro a ha
    rw [not_or] at ha
    simp [htot, h.none a ha.2, Ne.symm ha.1]

/-- **Moving a token.** It leaves the place `i` and comes to the place `j`. -/
theorem Settled.move (h : Settled known places) (hij : i ≠ j)
    (hi : (places i).Perm (a :: places' i)) (hj : (places' j).Perm (a :: places j))
    (hother : ∀ k, k ≠ i → k ≠ j → places' k = places k) : Settled known places' := by
  refine h.of_total fun x => ?_
  rw [total_eq_add hij, total_eq_add hij places, rest_congr hother, hi.count_eq, hj.count_eq,
    List.count_cons, List.count_cons]
  omega

/-- A token goes. -/
theorem Settled.leave (h : Settled known places) (hi : (places i).Perm (b :: places' i))
    (hother : ∀ k, k ≠ i → places' k = places k) : Settled (fun a => known a ∧ a ≠ b) places' := by
  have htot : ∀ a, total places a = total places' a + [b].count a := by
    intro a
    rw [total, total, ← Finset.add_sum_erase _ _ (Finset.mem_univ i), hi.count_eq,
      ← Finset.add_sum_erase Finset.univ (fun k => (places' k).count a) (Finset.mem_univ i),
      Finset.sum_congr rfl fun k hk => by rw [← hother k (Finset.ne_of_mem_erase hk)],
      ← List.singleton_append, List.count_append]
    omega
  constructor
  · rintro a ⟨ha, hab⟩
    have hone := htot a
    rw [h.once a ha] at hone
    simpa [Ne.symm hab] using hone.symm
  · intro a ha
    have hle := htot a
    by_cases hk : known a
    · obtain rfl : a = b := not_not.1 fun hab => ha ⟨hk, hab⟩
      rw [h.once a hk, List.count_singleton_self] at hle
      omega
    · rw [h.none a hk] at hle
      omega

end Tokens
