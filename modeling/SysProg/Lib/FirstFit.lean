import Mathlib.Data.List.Nodup
import Mathlib.Data.Set.Lattice
import Mathlib.Tactic

/-!
# First-fit allocation

* `free bitmap i n`: the unset bits among the `n` from `i` on, in the order a first-fit scan meets
  them;
* `Partitioned holds used`: an allocation map is exact: no block has two holders, and the used
  blocks are those that somebody holds;
* `Partitioned.reassign`: taking all blocks from one holder and giving it blocks that nobody else
  holds keeps the map exact.  Releasing, allocating and rewriting are instances of it.
-/

namespace FirstFit

/-! ### The scan -/

/-- The unset bits among the `n` from `i` on, in increasing order. -/
def free (bitmap : ℕ → Bool) (i n : ℕ) : List ℕ := (List.range' i n).filter fun b => !bitmap b

variable {bitmap : ℕ → Bool} {i n b : ℕ}

@[simp] theorem free_zero : free bitmap i 0 = [] := rfl

theorem free_succ_of_set (h : bitmap i = true) :
    free bitmap i (n + 1) = free bitmap (i + 1) n := by
  simp [free, List.range'_succ, h]

theorem free_succ_of_unset (h : bitmap i = false) :
    free bitmap i (n + 1) = i :: free bitmap (i + 1) n := by
  simp [free, List.range'_succ, h]

theorem mem_free : b ∈ free bitmap i n ↔ (i ≤ b ∧ b < i + n) ∧ bitmap b = false := by
  simp [free, List.mem_range'_1]

theorem free_nodup (bitmap : ℕ → Bool) (i n : ℕ) : (free bitmap i n).Nodup :=
  List.Nodup.filter _ List.nodup_range'

theorem free_congr {bitmap' : ℕ → Bool} (h : ∀ b, i ≤ b → b < i + n → bitmap b = bitmap' b) :
    free bitmap i n = free bitmap' i n := by
  refine List.filter_congr fun b hb => ?_
  rw [List.mem_range'_1] at hb
  rw [h b hb.1 hb.2]

/-- A bit before the scan does not matter. -/
theorem free_update {k : ℕ} (hk : k < i) (v : Bool) :
    free (Function.update bitmap k v) i n = free bitmap i n :=
  free_congr fun b hb _ => Function.update_of_ne (by omega) _ _

theorem free_taken (bitmap : ℕ → Bool) (i n : ℕ) (taken : List ℕ) :
    (free bitmap i n).length = (free (fun b => bitmap b || decide (b ∈ taken)) i n).length +
      ((free bitmap i n).filter fun b => decide (b ∈ taken)).length := by
  have hrest : free (fun b => bitmap b || decide (b ∈ taken)) i n =
      (free bitmap i n).filter fun b => !decide (b ∈ taken) := by
    rw [free, free, List.filter_filter]
    exact List.filter_congr fun b _ => by rw [Bool.not_or, Bool.and_comm]
  rw [hrest, List.length_eq_length_filter_add (fun b => decide (b ∈ taken)) (l := free bitmap i n),
    Nat.add_comm]

/-- Setting some bits takes no more free blocks than there are bits. -/
theorem free_length_le (bitmap : ℕ → Bool) (i n : ℕ) (taken : List ℕ) :
    (free bitmap i n).length ≤
      (free (fun b => bitmap b || decide (b ∈ taken)) i n).length + taken.length := by
  have hhit : ((free bitmap i n).filter fun b => decide (b ∈ taken)).length ≤ taken.length := by
    refine (List.subperm_of_subset ((free_nodup bitmap i n).filter _) fun b hb => ?_).length_le
    simpa using (List.mem_filter.1 hb).2
  rw [free_taken bitmap i n taken]
  omega

/-- Setting the bits of free blocks takes as many as there are. -/
theorem free_length_eq {taken : List ℕ} (hnodup : taken.Nodup)
    (hsub : ∀ b ∈ taken, b ∈ free bitmap i n) : (free bitmap i n).length =
      (free (fun b => bitmap b || decide (b ∈ taken)) i n).length + taken.length := by
  have hperm : ((free bitmap i n).filter fun b => decide (b ∈ taken)).Perm taken := by
    refine (List.perm_ext_iff_of_nodup ((free_nodup bitmap i n).filter _) hnodup).2 fun b => ?_
    rw [List.mem_filter, decide_eq_true_eq]
    exact ⟨And.right, fun hb => ⟨hsub b hb, hb⟩⟩
  rw [free_taken bitmap i n taken, hperm.length_eq]

/-! ### Exact allocation maps -/

variable {ι β : Type*}

/-- No block has two holders, and the used blocks are those that somebody holds. -/
structure Partitioned (holds : ι → Set β) (used : Set β) : Prop where
  holder_unique : ∀ i j b, b ∈ holds i → b ∈ holds j → i = j
  used_iff : ∀ b, b ∈ used ↔ ∃ i, b ∈ holds i

/-- **Rewriting one holder.** Its blocks are released, and it gets blocks that no other one
holds. -/
theorem Partitioned.reassign [DecidableEq ι] {holds : ι → Set β} {used : Set β}
    (h : Partitioned holds used) (i : ι) {new : Set β}
    (hnew : ∀ b ∈ new, b ∈ used → b ∈ holds i) :
    Partitioned (Function.update holds i new) (used \ holds i ∪ new) := by
  have hother : ∀ j b, j ≠ i → b ∈ holds j → b ∉ new := fun j b hj hb hbn =>
    hj (h.holder_unique j i b hb (hnew b hbn ((h.used_iff b).2 ⟨j, hb⟩)))
  constructor
  · intro j k b hj hk
    by_cases hji : j = i <;> by_cases hki : k = i
    · rw [hji, hki]
    · subst hji
      rw [Function.update_self] at hj
      rw [Function.update_of_ne hki] at hk
      exact absurd hj (hother k b hki hk)
    · subst hki
      rw [Function.update_self] at hk
      rw [Function.update_of_ne hji] at hj
      exact absurd hk (hother j b hji hj)
    · rw [Function.update_of_ne hji] at hj
      rw [Function.update_of_ne hki] at hk
      exact h.holder_unique j k b hj hk
  · intro b
    constructor
    · rintro (⟨hb, hbi⟩ | hb)
      · obtain ⟨j, hj⟩ := (h.used_iff b).1 hb
        have hji : j ≠ i := fun e => hbi (e ▸ hj)
        exact ⟨j, by rwa [Function.update_of_ne hji]⟩
      · exact ⟨i, by rwa [Function.update_self]⟩
    · rintro ⟨j, hj⟩
      by_cases hji : j = i
      · subst hji
        exact Or.inr (by rwa [Function.update_self] at hj)
      · rw [Function.update_of_ne hji] at hj
        exact Or.inl ⟨(h.used_iff b).2 ⟨j, hj⟩, fun hbi => hji (h.holder_unique j i b hj hbi)⟩

/-- Releasing all blocks of one holder. -/
theorem Partitioned.release [DecidableEq ι] {holds : ι → Set β} {used : Set β}
    (h : Partitioned holds used) (i : ι) :
    Partitioned (Function.update holds i ∅) (used \ holds i) := by
  simpa using h.reassign i fun b hb _ => absurd hb (Set.notMem_empty b)

end FirstFit
