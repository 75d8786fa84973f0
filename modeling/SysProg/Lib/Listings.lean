import Mathlib.Data.List.Nodup
import Mathlib.Logic.Relation
import Mathlib.Tactic

/-!
# Trees given by listings

A family `lists : ι → List ι` of listings, a map `parent` and a root.

* `Reach lists root i`: the listings lead from the root to `i`;
* `Arborescence`: each item is listed at most once, namely by its parent, and the root nowhere;
* `Arborescence.trim`, `Arborescence.add`: entries may be taken out, and a new item may be listed by
  its parent;
* `Arborescence.listed_once`, `Arborescence.acyclic`: what is reached from the root is a tree;
* `Forest`: each item is listed at most once, and the listings descend, whatever is reached from where;
* `Forest.trim`, `Forest.add`: entries may be taken out, and an item that lists nothing may be listed;
* `Below lists i`: what the listings lead to from `i`; what is below two items of one listing is
  disjoint (`Forest.disjoint`).
-/

namespace Listings

open Relation

variable {ι : Type*}

/-- The listings lead from the root to an item. -/
inductive Reach (lists : ι → List ι) (root : ι) : ι → Prop
  | root : Reach lists root root
  | entry {p i : ι} : Reach lists root p → i ∈ lists p → Reach lists root i

/-- Each listed item is listed once, by its parent, and it is not the root. -/
structure Arborescence (lists : ι → List ι) (parent : ι → ι) (root : ι) : Prop where
  nodup : ∀ p, (lists p).Nodup
  parent_eq : ∀ p, ∀ i ∈ lists p, parent i = p
  ne_root : ∀ p, ∀ i ∈ lists p, i ≠ root

variable {lists lists' : ι → List ι} {parent parent' : ι → ι} {root i p : ι}

/-! ### Entering a new item -/

section Insert

variable {q k : ι} (hlist : (lists' p).Sublist (lists p ++ [i]))
  (hother : ∀ q, q ≠ p → (lists' q).Sublist (lists q))
include hlist hother

theorem mem_of_insert (hk : k ∈ lists' q) : k = i ∧ q = p ∨ k ∈ lists q := by
  by_cases hq : q = p
  · subst hq
    rcases List.mem_append.1 (hlist.subset hk) with hk | hk
    · exact Or.inr hk
    · exact Or.inl ⟨List.mem_singleton.1 hk, rfl⟩
  · exact Or.inr ((hother q hq).subset hk)

theorem nodup_of_insert (hnodup : ∀ q, (lists q).Nodup) (hfresh : ∀ q, i ∉ lists q) (q : ι) :
    (lists' q).Nodup := by
  by_cases hq : q = p
  · subst hq
    have happend : (lists q ++ [i]).Nodup := by
      rw [← List.concat_eq_append]
      exact (hnodup q).concat (hfresh q)
    exact happend.sublist hlist
  · exact (hnodup q).sublist (hother q hq)

end Insert

/-! ### Trees -/

/-- Nothing is listed. -/
theorem Arborescence.of_empty (h : ∀ p, lists p = []) : Arborescence lists parent root where
  nodup p := by rw [h]; exact List.nodup_nil
  parent_eq p i hi := absurd (h p ▸ hi) List.not_mem_nil
  ne_root p i hi := absurd (h p ▸ hi) List.not_mem_nil

/-- Entries are taken out of listings. -/
theorem Arborescence.trim (h : Arborescence lists parent root)
    (hsub : ∀ p, (lists' p).Sublist (lists p)) (hparent : ∀ i, parent' i = parent i) :
    Arborescence lists' parent' root where
  nodup p := (h.nodup p).sublist (hsub p)
  parent_eq p i hi := (hparent i).trans (h.parent_eq p i ((hsub p).subset hi))
  ne_root p i hi := h.ne_root p i ((hsub p).subset hi)

/-- A new item is listed by its parent. -/
theorem Arborescence.add (h : Arborescence lists parent root) (hfresh : ∀ q, i ∉ lists q)
    (hi : i ≠ root) (hp : parent' i = p) (hparent : ∀ k, k ≠ i → parent' k = parent k)
    (hlist : (lists' p).Sublist (lists p ++ [i]))
    (hother : ∀ q, q ≠ p → (lists' q).Sublist (lists q)) :
    Arborescence lists' parent' root := by
  have hmem := fun q k => mem_of_insert (q := q) (k := k) hlist hother
  refine ⟨fun q => ?_, fun q k hk => ?_, fun q k hk => ?_⟩
  · exact nodup_of_insert hlist hother h.nodup hfresh q
  · rcases hmem q k hk with ⟨rfl, rfl⟩ | hk
    · exact hp
    · rw [hparent k fun e => hfresh q (e ▸ hk)]
      exact h.parent_eq q k hk
  · rcases hmem q k hk with ⟨rfl, -⟩ | hk
    · exact hi
    · exact h.ne_root q k hk

/-- **What is reached from the root is listed once**, by its parent. -/
theorem Arborescence.listed_once [DecidableEq ι] (h : Arborescence lists parent root)
    (hi : Reach lists root i) (hne : i ≠ root) :
    (lists (parent i)).count i = 1 ∧ ∀ p, i ∈ lists p → p = parent i := by
  cases hi with
  | root => exact absurd rfl hne
  | @entry p _ _ hmem =>
    rw [h.parent_eq p i hmem]
    exact ⟨List.count_eq_one_of_mem (h.nodup p) hmem,
      fun q hq => (h.parent_eq q i hq).symm.trans (h.parent_eq p i hmem)⟩

/-- **There are no cycles** among the items that are reached. -/
theorem Arborescence.acyclic (h : Arborescence lists parent root) (hi : Reach lists root i) :
    ¬TransGen (fun p k => k ∈ lists p) i i := by
  induction hi with
  | root =>
    intro hcycle
    obtain ⟨p, -, hp⟩ := TransGen.tail'_iff.1 hcycle
    exact h.ne_root p _ hp rfl
  | @entry p i _ hmem ih =>
    -- the last step of the cycle comes from the parent, so the parent lies on a cycle
    intro hcycle
    obtain ⟨q, hq, hlast⟩ := TransGen.tail'_iff.1 hcycle
    obtain rfl : q = p := (h.parent_eq q i hlast).symm.trans (h.parent_eq p i hmem)
    exact ih (TransGen.head' hmem hq)

/-! ### Forests -/

/-- The rank of an item is above the ranks of what it lists. -/
def Descends (lists : ι → List ι) (rank : ι → ℕ) : Prop := ∀ p, ∀ i ∈ lists p, rank i < rank p

/-- Each listed item is listed once, and the listings descend. -/
structure Forest (lists : ι → List ι) : Prop where
  nodup : ∀ p, (lists p).Nodup
  unique : ∀ p q i, i ∈ lists p → i ∈ lists q → p = q
  descends : ∃ rank, Descends lists rank

/-- What the listings lead to from an item, the item itself included. -/
def Below (lists : ι → List ι) (i : ι) : Set ι := {k | ReflTransGen (fun p k => k ∈ lists p) i k}

theorem Descends.of_sublist {rank : ι → ℕ} (h : Descends lists rank)
    (hsub : ∀ p, (lists' p).Sublist (lists p)) : Descends lists' rank :=
  fun p i hi => h p i ((hsub p).subset hi)

theorem Forest.of_empty (h : ∀ p, lists p = []) : Forest lists where
  nodup p := by rw [h]; exact List.nodup_nil
  unique p q i hi := absurd (h p ▸ hi) List.not_mem_nil
  descends := ⟨fun _ => 0, fun p i hi => absurd (h p ▸ hi) List.not_mem_nil⟩

/-- Entries are taken out of listings. -/
theorem Forest.trim (h : Forest lists) (hsub : ∀ p, (lists' p).Sublist (lists p)) :
    Forest lists' where
  nodup p := (h.nodup p).sublist (hsub p)
  unique p q i hp hq := h.unique p q i ((hsub p).subset hp) ((hsub q).subset hq)
  descends := by
    obtain ⟨rank, hrank⟩ := h.descends
    exact ⟨rank, hrank.of_sublist hsub⟩

/-- An item that nobody lists, and that lists nothing, is listed by `p`. -/
theorem Forest.add [DecidableEq ι] (h : Forest lists) (hfresh : ∀ q, i ∉ lists q)
    (hempty : lists' i = []) (hlist : (lists' p).Sublist (lists p ++ [i]))
    (hother : ∀ q, q ≠ p → (lists' q).Sublist (lists q)) : Forest lists' := by
  have hmem := fun q k => mem_of_insert (q := q) (k := k) hlist hother
  refine ⟨fun q => ?_, fun q r k hq hr => ?_, ?_⟩
  · exact nodup_of_insert hlist hother h.nodup hfresh q
  · rcases hmem q k hq with ⟨rfl, rfl⟩ | hq
    · rcases hmem r k hr with ⟨-, rfl⟩ | hr
      · rfl
      · exact absurd hr (hfresh r)
    · rcases hmem r k hr with ⟨rfl, -⟩ | hr
      · exact absurd hq (hfresh q)
      · exact h.unique q r k hq hr
  · -- the new item goes below all others
    obtain ⟨rank, hrank⟩ := h.descends
    refine ⟨fun k => if k = i then 0 else rank k + 1, fun q k hk => ?_⟩
    have hq : q ≠ i := fun e => absurd (hempty ▸ e ▸ hk) List.not_mem_nil
    rcases hmem q k hk with ⟨rfl, -⟩ | hk
    · simp [hq]
    · have hk' : k ≠ i := fun e => hfresh q (e ▸ hk)
      simpa [hq, hk'] using hrank q k hk

/-! ### Below an item -/

variable {c d k : ι}

theorem mem_below_self (lists : ι → List ι) (i : ι) : i ∈ Below lists i := .refl

theorem Below.entry (hc : c ∈ lists i) (hk : k ∈ Below lists c) : k ∈ Below lists i :=
  ReflTransGen.head hc hk

/-- Below an item are the item itself and what is below its entries. -/
theorem mem_below_iff : k ∈ Below lists i ↔ k = i ∨ ∃ c ∈ lists i, k ∈ Below lists c := by
  constructor
  · intro hk
    rcases ReflTransGen.cases_head hk with rfl | ⟨c, hc, hk⟩
    · exact Or.inl rfl
    · exact Or.inr ⟨c, hc, hk⟩
  · rintro (rfl | ⟨c, hc, hk⟩)
    · exact .refl
    · exact Below.entry hc hk

/-- Listings that agree below an item lead to the same. -/
theorem below_congr (h : ∀ k ∈ Below lists i, lists' k = lists k) : Below lists' i = Below lists i := by
  ext k
  constructor
  · intro hk
    induction hk with
    | refl => exact .refl
    | @tail b c _ hc ih => exact .tail ih (h b ih ▸ hc)
  · intro hk
    induction hk with
    | refl => exact .refl
    | @tail b c hb hc ih =>
      have hc' : c ∈ lists' b := by rw [h b hb]; exact hc
      exact .tail ih hc'

theorem Descends.le_of_below {rank : ι → ℕ} (h : Descends lists rank) (hk : k ∈ Below lists i) :
    rank k ≤ rank i := by
  induction hk with
  | refl => exact le_rfl
  | @tail b c _ hc ih => exact (h b c hc).le.trans ih

/-- Nothing is below its own entries. -/
theorem Forest.not_below (h : Forest lists) (hc : c ∈ lists p) : p ∉ Below lists c := by
  obtain ⟨rank, hrank⟩ := h.descends
  intro hp
  exact absurd (hrank.le_of_below hp) (Nat.not_le.2 (hrank p c hc))

/-- If an item is below two others, one of these is below the other one. -/
theorem Forest.comparable (h : Forest lists) (hc : k ∈ Below lists c) (hd : k ∈ Below lists d) :
    c ∈ Below lists d ∨ d ∈ Below lists c := by
  induction hc with
  | refl => exact Or.inl hd
  | @tail b k hcb hk ih =>
    rcases ReflTransGen.cases_tail hd with rfl | ⟨b', hd', hk'⟩
    · exact Or.inr (.tail hcb hk)
    · obtain rfl := h.unique b' b k hk' hk
      exact ih hd'

/-- **What is below two entries of one listing is disjoint.** -/
theorem Forest.disjoint (h : Forest lists) (hc : c ∈ lists p) (hd : d ∈ lists p)
    (hkc : k ∈ Below lists c) (hkd : k ∈ Below lists d) : c = d := by
  -- an entry that is below another one is below their directory twice
  have key : ∀ {c d}, c ∈ lists p → d ∈ lists p → c ∈ Below lists d → c = d := by
    intro c d hc hd hcd
    rcases ReflTransGen.cases_tail hcd with rfl | ⟨b, hb, hcb⟩
    · rfl
    · obtain rfl := h.unique b p c hcb hc
      exact absurd hb (h.not_below hd)
  rcases h.comparable hkc hkd with hcd | hdc
  · exact key hc hd hcd
  · exact (key hd hc hdc).symm

/-- What is below the root when listings lose entries. -/
theorem below_subset (hsub : ∀ q, ∀ k ∈ lists' q, k ∈ lists q) : Below lists' root ⊆ Below lists root :=
  fun _ hk => ReflTransGen.mono hsub _ _ hk

/-- What is below the root once a new item was listed. -/
theorem below_insert (hinsert : ∀ q, ∀ k ∈ lists' q, k = i ∧ q = p ∨ k ∈ lists q)
    (hempty : lists i = []) (hk : k ∈ Below lists' root) : k ∈ Below lists root ∨ k = i := by
  induction hk with
  | refl => exact Or.inl (mem_below_self _ _)
  | @tail q k _ hk ih =>
    rcases hinsert q k hk with ⟨rfl, -⟩ | hk
    · exact Or.inr rfl
    · rcases ih with hq | rfl
      · exact Or.inl (ReflTransGen.tail hq hk)
      · exact absurd hk (hempty ▸ List.not_mem_nil)

/-- What is below the root once an entry was erased. -/
theorem Forest.below_erase (h : Forest lists) (hsub : ∀ q, ∀ k ∈ lists' q, k ∈ lists q)
    (hi : i ∈ lists p) (hgone : i ∉ lists' p) (hroot : root ∉ Below lists i)
    (hk : k ∈ Below lists' root) : k ∈ Below lists root ∧ k ∉ Below lists i := by
  induction hk with
  | refl => exact ⟨mem_below_self _ _, hroot⟩
  | @tail q k _ hk ih =>
    refine ⟨ReflTransGen.tail ih.1 (hsub q k hk), fun hbelow => ?_⟩
    -- the only listing of `k` is that of `i`, or below it
    rcases ReflTransGen.cases_tail hbelow with rfl | ⟨b, hb, hkb⟩
    · obtain rfl := h.unique q p k (hsub q k hk) hi
      exact hgone hk
    · obtain rfl := h.unique b q k hkb (hsub q k hk)
      exact ih.2 hb

end Listings
