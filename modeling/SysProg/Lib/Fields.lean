import Mathlib.Data.List.TakeWhile
import Mathlib.Tactic

/-!
# Fields between separators

A list is cut at the elements that satisfy `p`, and the empty pieces are left out.

* `fields p l`: the nonempty pieces;
* `fields_cons_of_neg`: the first field is what stands before the first separator;
* `fields_eq_nil_iff`: there is none exactly if there are only separators;
* `fields_append`: fields before and behind a separator.
-/

namespace Fields

variable {α : Type*} (p : α → Bool)

/-- The nonempty pieces of a list between the elements that satisfy `p`. -/
def fields (l : List α) : List (List α) := (l.splitOnP p).filter (!·.isEmpty)

variable {p} {a : α} {l m : List α}

@[simp] theorem fields_nil : fields p [] = [] := rfl

theorem fields_cons_of_pos (h : p a) : fields p (a :: l) = fields p l := by
  rw [fields, List.splitOnP_cons_eq_if_modifyHead, if_pos h]
  rfl

/-- The first piece is what stands before the first separator. -/
theorem splitOnP_eq_takeWhile (l : List α) : ∃ pieces,
    l.splitOnP p = l.takeWhile (!p ·) :: pieces ∧
      fields p (l.dropWhile (!p ·)) = pieces.filter (!·.isEmpty) := by
  induction l with
  | nil => exact ⟨[], rfl, rfl⟩
  | cons a l ih =>
    by_cases h : p a
    · refine ⟨l.splitOnP p, ?_, ?_⟩
      · rw [List.splitOnP_cons_eq_if_modifyHead, if_pos h]
        simp [h]
      · rw [List.dropWhile_cons_of_neg (by simp [h]), fields_cons_of_pos h, fields]
    · obtain ⟨pieces, hsplit, hfields⟩ := ih
      refine ⟨pieces, ?_, ?_⟩
      · rw [List.splitOnP_cons_eq_if_modifyHead, if_neg h, hsplit]
        simp [h]
      · rwa [List.dropWhile_cons_of_pos (by simp [h])]

theorem fields_cons_of_neg (h : ¬p a) : fields p (a :: l) =
    (a :: l.takeWhile (!p ·)) :: fields p (l.dropWhile (!p ·)) := by
  obtain ⟨pieces, hsplit, hfields⟩ := splitOnP_eq_takeWhile (p := p) l
  rw [hfields, fields, List.splitOnP_cons_eq_if_modifyHead, if_neg h, hsplit]
  rfl

/-- Only separators make no field. -/
theorem fields_eq_nil_iff : fields p l = [] ↔ ∀ a ∈ l, p a := by
  induction l with
  | nil => simp
  | cons a l ih =>
    by_cases h : p a
    · rw [fields_cons_of_pos h, ih]
      simp [h]
    · rw [fields_cons_of_neg h]
      simp [h]

/-- Fields before and behind a separator. -/
theorem fields_append (h : p a) : fields p (l ++ a :: m) = fields p l ++ fields p m := by
  rw [fields, List.splitOnP_append_cons l m h, List.filter_append]
  rfl

/-- Separators in a row do not count. -/
theorem fields_replicate_append (h : p a) (n : ℕ) : fields p (List.replicate n a ++ m) = fields p m := by
  induction n with
  | zero => rfl
  | succ n ih => rw [List.replicate_succ, List.cons_append, fields_cons_of_pos h, ih]

theorem fields_append_replicate (h : p a) (n : ℕ) : fields p (l ++ List.replicate n a) = fields p l := by
  cases n with
  | zero => rw [List.replicate_zero, List.append_nil]
  | succ n =>
    have hnone : fields p (List.replicate n a) = [] :=
      fields_eq_nil_iff.2 fun b hb => (List.eq_of_mem_replicate hb).symm ▸ h
    rw [List.replicate_succ, fields_append h, hnone, List.append_nil]

theorem fields_eq_singleton (h : ∀ a ∈ l, ¬p a) (hne : l ≠ []) : fields p l = [l] := by
  rw [fields, List.splitOnP_eq_singleton (fun a ha => Bool.eq_false_of_not_eq_true (h a ha))]
  simp [hne]

/-- The pieces contain no separators. -/
theorem not_of_mem_splitOnP {s : List α} (hs : s ∈ l.splitOnP p) (ha : a ∈ s) : ¬p a := by
  induction l generalizing s with
  | nil =>
    rw [List.splitOnP_nil, List.mem_singleton] at hs
    exact absurd (hs ▸ ha) List.not_mem_nil
  | cons b l ih =>
    rw [List.splitOnP_cons_eq_if_modifyHead] at hs
    split_ifs at hs with hb
    · rcases List.mem_cons.1 hs with rfl | hs
      · exact absurd ha List.not_mem_nil
      · exact ih hs ha
    · obtain ⟨piece, pieces, hl⟩ := List.exists_cons_of_ne_nil (List.splitOnP_ne_nil p l)
      rw [hl] at hs ih
      rcases List.mem_cons.1 hs with rfl | hs
      · rcases List.mem_cons.1 ha with rfl | ha
        · exact hb
        · exact ih List.mem_cons_self ha
      · exact ih (List.mem_cons_of_mem _ hs) ha

end Fields
