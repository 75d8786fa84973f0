import Mathlib.Data.List.Basic
import Mathlib.Tactic

/-!
# A priority queue by its documented behaviour

`std::priority_queue` with a comparison `lt`: `top` is an element that no queued element exceeds,
`pop` removes it.  The queue is a list; the order of the list carries no meaning beyond breaking
ties.

* `top lt q`: the element on top, `none` for the empty queue (where `std` leaves `top` undefined);
* `top_mem`, `not_lt_top`: it is queued, and nothing queued is above it, if `lt` is a strict weak
  order on the queued elements.
-/

namespace PriorityQueue

variable {α : Type*} (lt : α → α → Bool)

/-- The larger of two elements, the first one when neither is larger. -/
def larger (a b : α) : α := if lt a b then b else a

/-- The element on top of the queue. -/
def top : List α → Option α
  | [] => none
  | a :: q => some (q.foldl (larger lt) a)

/-- `lt` is a strict weak order on the elements of `q`: irreflexive, and a smaller element is
smaller than one of any two. -/
structure WeakOrderOn (q : List α) : Prop where
  irrefl : ∀ a ∈ q, lt a a = false
  negTrans : ∀ a ∈ q, ∀ b ∈ q, ∀ c ∈ q, lt a b = false → lt b c = false → lt a c = false
  asymm : ∀ a ∈ q, ∀ b ∈ q, lt a b = true → lt b a = false

variable {lt} {q : List α} {a m : α}

theorem foldl_larger_mem (q : List α) (a : α) : q.foldl (larger lt) a ∈ a :: q := by
  induction q generalizing a with
  | nil => simp
  | cons b q ih =>
    rw [List.foldl_cons]
    rcases List.mem_cons.1 (ih (larger lt a b)) with h | h
    · rw [h, larger]
      split_ifs <;> simp
    · simp [h]

/-- The element on top is queued. -/
theorem top_mem (h : top lt q = some m) : m ∈ q := by
  cases q with
  | nil => simp [top] at h
  | cons a q =>
    simp only [top, Option.some.injEq] at h
    exact h ▸ foldl_larger_mem q a

theorem top_isSome (h : q ≠ []) : ∃ m, top lt q = some m := by
  cases q with
  | nil => exact absurd rfl h
  | cons a q => exact ⟨_, rfl⟩

theorem larger_mem {b : α} (ha : a ∈ q) (hb : b ∈ q) : larger lt a b ∈ q := by
  unfold larger
  split_ifs <;> assumption

/-- The larger one of two elements is below neither. -/
theorem WeakOrderOn.not_lt_larger {b : α} (hlt : WeakOrderOn lt q) (ha : a ∈ q) (hb : b ∈ q) :
    lt (larger lt a b) a = false ∧ lt (larger lt a b) b = false := by
  unfold larger
  split_ifs with hab
  · exact ⟨hlt.asymm a ha b hb hab, hlt.irrefl b hb⟩
  · exact ⟨hlt.irrefl a ha, Bool.eq_false_of_not_eq_true hab⟩

/-- The fold is below neither its start nor any element that it meets. -/
theorem WeakOrderOn.not_lt_foldl {r : List α} (hlt : WeakOrderOn lt q) (ha : a ∈ q)
    (hr : ∀ x ∈ r, x ∈ q) : ∀ x ∈ a :: r, lt (r.foldl (larger lt) a) x = false := by
  induction r generalizing a with
  | nil =>
    intro x hx
    rw [List.mem_singleton.1 hx]
    exact hlt.irrefl a ha
  | cons b r ih =>
    have hb : b ∈ q := hr b List.mem_cons_self
    have hrq : ∀ x ∈ r, x ∈ q := fun x hx => hr x (List.mem_cons_of_mem b hx)
    have hl : larger lt a b ∈ q := larger_mem ha hb
    have hfold := ih hl hrq
    -- what is not above the larger one is not above the fold
    have hm : r.foldl (larger lt) (larger lt a b) ∈ q := by
      rcases List.mem_cons.1 (foldl_larger_mem r (larger lt a b)) with h | h
      · rw [h]
        exact hl
      · exact hrq _ h
    have hbelow : ∀ y ∈ q, lt (larger lt a b) y = false →
        lt (r.foldl (larger lt) (larger lt a b)) y = false := fun y hy hly =>
      hlt.negTrans _ hm _ hl y hy (hfold _ List.mem_cons_self) hly
    obtain ⟨hla, hlb⟩ := hlt.not_lt_larger ha hb
    intro x hx
    rw [List.foldl_cons]
    rcases List.mem_cons.1 hx with rfl | hx
    · exact hbelow x ha hla
    · rcases List.mem_cons.1 hx with rfl | hx
      · exact hbelow x hb hlb
      · exact hfold x (List.mem_cons_of_mem _ hx)

/-- Nothing queued is above the element on top. -/
theorem not_lt_top (hlt : WeakOrderOn lt q) (h : top lt q = some m) : ∀ x ∈ q, lt m x = false := by
  cases q with
  | nil => simp [top] at h
  | cons a q =>
    rw [top, Option.some.injEq] at h
    rw [← h]
    exact hlt.not_lt_foldl List.mem_cons_self fun x hx => List.mem_cons_of_mem a hx

end PriorityQueue
