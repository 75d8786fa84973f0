import SysProg.Lib.Listings

/-!
# Paths in a tree of listings

Each item lists other items under names, and a path is a list of names.  `walk lists i path` is the
item that the path leads to from `i`; where a name is listed twice, the first entry counts.

* `Tree`: names are unique in a listing, each item is listed once, and the root nowhere;
* `Tree.walk_inj`: in a tree, one path leads to each item;
* `walk_insert`, `walk_erase`: the paths after a new item was listed, and after an entry was erased;
* `view`: the labels of the items, by their paths, with the same two lemmas.

Nothing is said about the memory that the listings lie in.
-/

namespace Paths

open Listings

variable {ι ν α : Type*} [DecidableEq ν]

/-- The item that is listed under a name. -/
def find (entries : List (ν × ι)) (name : ν) : Option ι :=
  (entries.find? (·.1 = name)).map Prod.snd

/-- The item that a path leads to. -/
def walk (lists : ι → List (ν × ι)) : ι → List ν → Option ι
  | i, [] => some i
  | i, name :: path => (find (lists i) name).bind fun k => walk lists k path

/-- The items that are listed. -/
def targets (lists : ι → List (ν × ι)) (p : ι) : List ι := (lists p).map Prod.snd

/-- Names are unique in a listing, each item is listed once, and the root nowhere. -/
structure Tree (lists : ι → List (ν × ι)) (root : ι) : Prop where
  names : ∀ p, ((lists p).map Prod.fst).Nodup
  nodup : ∀ p, (targets lists p).Nodup
  unique : ∀ p q i, i ∈ targets lists p → i ∈ targets lists q → p = q
  root : ∀ p, root ∉ targets lists p

section Find

variable {entries : List (ν × ι)} {name m : ν} {i k : ι}

theorem mem_of_find (h : find entries name = some i) : (name, i) ∈ entries := by
  obtain ⟨v, hv, rfl⟩ := Option.map_eq_some_iff.1 h
  have hname : v.1 = name := by simpa using List.find?_some hv
  rw [← hname]
  exact List.mem_of_find?_eq_some hv

theorem find_eq_none : find entries name = none ↔ name ∉ entries.map Prod.fst := by
  rw [find, Option.map_eq_none_iff, List.find?_eq_none, List.mem_map]
  constructor
  · rintro h ⟨v, hv, rfl⟩
    exact h v hv (by simp)
  · intro h v hv hname
    exact h ⟨v, hv, by simpa using hname⟩

theorem find_of_mem (h : (entries.map Prod.fst).Nodup) (hi : (name, i) ∈ entries) :
    find entries name = some i := by
  cases hfind : find entries name with
  | none => exact absurd (List.mem_map_of_mem hi) (find_eq_none.1 hfind)
  | some k =>
    have hsame := List.inj_on_of_nodup_map h (mem_of_find hfind) hi rfl
    exact congrArg (fun v => some v.2) hsame

theorem find_append (hnew : find entries name = none) :
    find (entries ++ [(name, i)]) m = if m = name then some i else find entries m := by
  by_cases hm : m = name
  · subst hm
    have hnone : entries.find? (·.1 = m) = none := Option.map_eq_none_iff.1 hnew
    simp [find, List.find?_append, hnone]
  · simp [find, List.find?_append, hm, Ne.symm hm]

theorem find_eraseP (h : (entries.map Prod.fst).Nodup) :
    find (entries.eraseP fun v => decide (v.1 = name)) m =
      if m = name then none else find entries m := by
  induction entries with
  | nil => simp [find]
  | cons v entries ih =>
    obtain ⟨hv, hnodup⟩ : v.1 ∉ entries.map Prod.fst ∧ (entries.map Prod.fst).Nodup := by
      simpa using h
    by_cases hname : v.1 = name
    · rw [List.eraseP_cons_of_pos (by simpa using hname)]
      by_cases hm : m = name
      · rw [if_pos hm, find_eq_none, hm, ← hname]
        exact hv
      · have hvm : v.1 ≠ m := fun e => hm (e.symm.trans hname)
        simp [find, hm, hvm]
    · rw [List.eraseP_cons_of_neg (by simpa using hname)]
      by_cases hvm : v.1 = m
      · have hm : m ≠ name := hvm ▸ hname
        simp [find, hm, hvm]
      · simpa [find, hvm] using ih hnodup

end Find

section Walk

variable {lists lists' : ι → List (ν × ι)} {root p q i k : ι} {name : ν} {path P Q : List ν}

@[simp] theorem walk_nil : walk lists i [] = some i := rfl

theorem walk_append (lists : ι → List (ν × ι)) (i : ι) (P Q : List ν) :
    walk lists i (P ++ Q) = (walk lists i P).bind fun k => walk lists k Q := by
  induction P generalizing i with
  | nil => rfl
  | cons name P ih =>
    rw [List.cons_append, walk, walk, Option.bind_assoc]
    exact Option.bind_congr fun k _ => ih k

theorem walk_snoc (lists : ι → List (ν × ι)) (i : ι) (P : List ν) (name : ν) :
    walk lists i (P ++ [name]) = (walk lists i P).bind fun k => find (lists k) name := by
  rw [walk_append]
  exact Option.bind_congr fun k _ => Option.bind_fun_some _

theorem walk_snoc_eq_some : walk lists i (P ++ [name]) = some k ↔
    ∃ p, walk lists i P = some p ∧ find (lists p) name = some k := by
  rw [walk_snoc, Option.bind_eq_some_iff]

theorem mem_targets_of_find (h : find (lists p) name = some i) : i ∈ targets lists p :=
  List.mem_map.2 ⟨_, mem_of_find h, rfl⟩

/-- Only the listings of the items that are reached are read. -/
theorem walk_congr (h : ∀ path a, walk lists root path = some a → lists' a = lists a)
    (path : List ν) : walk lists' root path = walk lists root path := by
  induction path using List.reverseRecOn with
  | nil => rfl
  | append_singleton P name ih =>
    rw [walk_snoc, walk_snoc, ih]
    exact Option.bind_congr fun a ha => by rw [h P a ha]

/-- What is listed nowhere is not reached. -/
theorem walk_ne_of_fresh (hfresh : ∀ q, i ∉ targets lists q) (hroot : i ≠ root) :
    walk lists root path ≠ some i := by
  cases path using List.reverseRecOn with
  | nil => simpa using hroot.symm
  | append_singleton P name =>
    rw [ne_eq, walk_snoc_eq_some]
    rintro ⟨p, -, hfind⟩
    exact hfresh p (mem_targets_of_find hfind)

/-- **One path leads to each item.** -/
theorem Tree.walk_inj (h : Tree lists root) (hP : walk lists root P = some i)
    (hQ : walk lists root Q = some i) : P = Q := by
  induction P using List.reverseRecOn generalizing Q i with
  | nil =>
    obtain rfl := Option.some.inj hP
    cases Q using List.reverseRecOn with
    | nil => rfl
    | append_singleton Q m =>
      obtain ⟨q, -, hfind⟩ := walk_snoc_eq_some.1 hQ
      exact absurd (mem_targets_of_find hfind) (h.root q)
  | append_singleton P name ih =>
    obtain ⟨p, hp, hname⟩ := walk_snoc_eq_some.1 hP
    cases Q using List.reverseRecOn with
    | nil =>
      obtain rfl := Option.some.inj hQ
      exact absurd (mem_targets_of_find hname) (h.root p)
    | append_singleton Q m =>
      obtain ⟨q, hq, hm⟩ := walk_snoc_eq_some.1 hQ
      obtain rfl := h.unique p q i (mem_targets_of_find hname) (mem_targets_of_find hm)
      have hentry := List.inj_on_of_nodup_map (h.nodup p) (mem_of_find hname) (mem_of_find hm) rfl
      obtain rfl : name = m := congrArg Prod.fst hentry
      rw [ih hp hq]

/-- What is below an item is what paths lead to from it. -/
theorem Tree.mem_below_iff_walk (h : Tree lists root) :
    k ∈ Below (targets lists) i ↔ ∃ path, walk lists i path = some k := by
  constructor
  · intro hk
    induction hk with
    | refl => exact ⟨[], rfl⟩
    | @tail p k _ hk ih =>
      obtain ⟨path, hpath⟩ := ih
      obtain ⟨⟨name, k⟩, hmem, rfl⟩ := List.mem_map.1 hk
      exact ⟨path ++ [name], walk_snoc_eq_some.2 ⟨p, hpath, find_of_mem (h.names p) hmem⟩⟩
  · rintro ⟨path, hpath⟩
    induction path using List.reverseRecOn generalizing k with
    | nil =>
      obtain rfl := Option.some.inj hpath
      exact mem_below_self _ _
    | append_singleton P name ih =>
      obtain ⟨p, hp, hfind⟩ := walk_snoc_eq_some.1 hpath
      exact (ih hp).tail (mem_targets_of_find hfind)

/-- **The paths after a new item was listed.** -/
theorem Tree.walk_insert (h : Tree lists root) (hp : walk lists root P = some p)
    (hnew : find (lists p) name = none) (hfresh : ∀ q, i ∉ targets lists q) (hroot : i ≠ root)
    (hinsert : lists' p = lists p ++ [(name, i)]) (hempty : lists' i = [])
    (hother : ∀ q, q ≠ p → q ≠ i → lists' q = lists q) (path : List ν) :
    walk lists' root path = if path = P ++ [name] then some i else walk lists root path := by
  have hnone : walk lists root (P ++ [name]) = none := by rw [walk_snoc, hp]; exact hnew
  induction path using List.reverseRecOn with
  | nil => simp
  | append_singleton Q m ih =>
    rw [walk_snoc, ih]
    by_cases hQ : Q = P ++ [name]
    · -- nothing is listed under the new item
      have hne : Q ++ [m] ≠ P ++ [name] := fun e => by
        have := congrArg List.length (hQ.symm.trans (List.append_inj_left' e rfl))
        simp at this
      rw [if_pos hQ, if_neg hne, walk_snoc, hQ, hnone, Option.bind_some, hempty]
      rfl
    · rw [if_neg hQ, walk_snoc]
      cases hwalk : walk lists root Q with
      | none =>
        have hne : Q ++ [m] ≠ P ++ [name] := fun e => by
          rw [List.append_inj_left' e rfl, hp] at hwalk
          cases hwalk
        rw [if_neg hne]
        rfl
      | some a =>
        rw [Option.bind_some, Option.bind_some]
        by_cases ha : a = p
        · subst ha
          obtain rfl := h.walk_inj hwalk hp
          simp [hinsert, find_append hnew]
        · have hne : Q ++ [m] ≠ P ++ [name] := fun e => by
            rw [List.append_inj_left' e rfl, hp] at hwalk
            exact ha (Option.some.inj hwalk).symm
          have hai : a ≠ i := fun e => walk_ne_of_fresh hfresh hroot (e ▸ hwalk)
          rw [if_neg hne, hother a ha hai]

/-- **The paths after an entry was erased.** -/
theorem Tree.walk_erase (h : Tree lists root) (hp : walk lists root P = some p)
    (hi : find (lists p) name = some i)
    (herase : lists' p = (lists p).eraseP fun v => decide (v.1 = name))
    (hother : ∀ q, q ∉ Below (targets lists) i → q ≠ p → lists' q = lists q) (path : List ν) :
    walk lists' root path = if P ++ [name] <+: path then none else walk lists root path := by
  have hwalk_i : walk lists root (P ++ [name]) = some i := walk_snoc_eq_some.2 ⟨p, hp, hi⟩
  induction path using List.reverseRecOn with
  | nil => simp
  | append_singleton Q m ih =>
    rw [walk_snoc, ih]
    by_cases hQ : P ++ [name] <+: Q
    · rw [if_pos hQ, if_pos (hQ.trans (List.prefix_append Q [m]))]
      rfl
    · have hlast : P ++ [name] <+: Q ++ [m] ↔ P = Q ∧ name = m := by
        rw [List.prefix_concat_iff, or_iff_left hQ]
        constructor
        · exact fun e => ⟨List.append_inj_left' e rfl, by simpa using List.append_inj_right' e rfl⟩
        · rintro ⟨rfl, rfl⟩
          rfl
      rw [if_neg hQ, walk_snoc]
      cases hwalk : walk lists root Q with
      | none =>
        have hne : ¬(P = Q ∧ name = m) := fun e => by
          rw [← e.1, hp] at hwalk
          cases hwalk
        rw [if_neg (hne ∘ hlast.1)]
        rfl
      | some a =>
        rw [Option.bind_some, Option.bind_some]
        by_cases ha : a = p
        · subst ha
          obtain rfl := h.walk_inj hwalk hp
          rw [herase, find_eraseP (h.names a)]
          by_cases hm : m = name
          · rw [if_pos hm, if_pos (hlast.2 ⟨rfl, hm.symm⟩)]
          · rw [if_neg hm, if_neg fun e => hm (hlast.1 e).2.symm]
        · have hne : ¬(P = Q ∧ name = m) := fun e => by
            rw [← e.1, hp] at hwalk
            exact ha (Option.some.inj hwalk).symm
          have hbelow : a ∉ Below (targets lists) i := fun hmem => by
            obtain ⟨rest, hrest⟩ := h.mem_below_iff_walk.1 hmem
            have hlong : walk lists root (P ++ [name] ++ rest) = some a := by
              rw [walk_append, hwalk_i]
              exact hrest
            exact hQ (h.walk_inj hlong hwalk ▸ List.prefix_append _ _)
          rw [if_neg (hne ∘ hlast.1), hother a hbelow ha]

end Walk

/-! ### Labels -/

/-- The label of the item that a path leads to. -/
def view (lists : ι → List (ν × ι)) (label : ι → α) (root : ι) (path : List ν) : Option α :=
  (walk lists root path).map label

section View

variable {lists lists' : ι → List (ν × ι)} {label label' : ι → α} {root p i : ι} {name : ν}
  {P : List ν}

/-- Only the labels of the items that are reached are seen. -/
theorem view_congr (h : ∀ path a, walk lists root path = some a → label' a = label a)
    (path : List ν) : view lists label' root path = view lists label root path := by
  rw [view, view]
  exact Option.map_congr fun a ha => h path a ha

/-- **One label changes.** -/
theorem Tree.view_update (h : Tree lists root) (hp : walk lists root P = some p)
    (hother : ∀ a, a ≠ p → label' a = label a) :
    view lists label' root = Function.update (view lists label root) P (some (label' p)) := by
  funext path
  by_cases hpath : path = P
  · rw [hpath, Function.update_self, view, hp]
    rfl
  · rw [Function.update_of_ne hpath, view, view]
    refine Option.map_congr fun a ha => hother a fun e => hpath ?_
    exact h.walk_inj (e ▸ ha) hp

/-- **A new item is seen**, and the label of the one that lists it changes. -/
theorem Tree.view_insert (h : Tree lists root) (hp : walk lists root P = some p)
    (hnew : find (lists p) name = none) (hfresh : ∀ q, i ∉ targets lists q) (hroot : i ≠ root)
    (hinsert : lists' p = lists p ++ [(name, i)]) (hempty : lists' i = [])
    (hother : ∀ q, q ≠ p → q ≠ i → lists' q = lists q)
    (hlabel : ∀ q, q ≠ p → q ≠ i → label' q = label q) :
    view lists' label' root = Function.update
      (Function.update (view lists label root) P (some (label' p))) (P ++ [name])
        (some (label' i)) := by
  classical
  have hwalk := h.walk_insert hp hnew hfresh hroot hinsert hempty hother
  funext path
  rw [view, hwalk path]
  by_cases hpath : path = P ++ [name]
  · rw [if_pos hpath, hpath, Function.update_self]
    rfl
  · rw [if_neg hpath, Function.update_of_ne hpath]
    have hsame : view lists label' root path =
        view lists (Function.update label p (label' p)) root path := by
      refine view_congr (fun path a ha => ?_) path
      by_cases hap : a = p
      · rw [hap, Function.update_self]
      · rw [Function.update_of_ne hap]
        exact hlabel a hap fun e => walk_ne_of_fresh hfresh hroot (e ▸ ha)
    refine hsame.trans ?_
    rw [h.view_update hp fun a ha => Function.update_of_ne ha _ _, Function.update_self]

/-- **An item is no longer seen**, nor what is below it, and the label of the one that listed it
changes. -/
theorem Tree.view_erase (h : Tree lists root) (hp : walk lists root P = some p)
    (hi : find (lists p) name = some i)
    (herase : lists' p = (lists p).eraseP fun v => decide (v.1 = name))
    (hother : ∀ q, q ∉ Below (targets lists) i → q ≠ p → lists' q = lists q)
    (hlabel : ∀ q, q ∉ Below (targets lists) i → q ≠ p → label' q = label q) (path : List ν) :
    view lists' label' root path = if P ++ [name] <+: path then none
      else Function.update (view lists label root) P (some (label' p)) path := by
  rw [view, h.walk_erase hp hi herase hother]
  split_ifs with hpath
  · rfl
  · by_cases hP : path = P
    · rw [hP, hp, Function.update_self]
      rfl
    · rw [Function.update_of_ne hP, view]
      refine Option.map_congr fun a ha => hlabel a (fun hmem => hpath ?_) fun e => hP ?_
      · obtain ⟨rest, hrest⟩ := h.mem_below_iff_walk.1 hmem
        have hlong : walk lists root (P ++ [name] ++ rest) = some a := by
          rw [walk_append, walk_snoc_eq_some.2 ⟨p, hp, hi⟩]
          exact hrest
        exact h.walk_inj hlong ha ▸ List.prefix_append _ _
      · exact h.walk_inj (e ▸ ha) hp

end View

end Paths
