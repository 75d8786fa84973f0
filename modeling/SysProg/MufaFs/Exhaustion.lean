import SysProg.MufaFs.Sync
import Mathlib.Data.List.ReduceOption

/-!
# When the inodes are used up

`find_inode` hands out the top of its queue.  While an inode is unoccupied this is an unoccupied
one, and over any run no inode is handed out twice.  When none is left, the top is an inode in use,
first of all the root, and `mkdir`, `touch` and `write` go on with it.

* `findInode_safe_iff`: the two halves together;
* `Micro.occupied`, `Occupies.exec`: an inode in use stays in use, in memory and, between commands,
  in its slot, so that also a remount knows it.
-/

namespace MufaFs

open ByteFile FirstFit Instance Relation

/-! ### An inode in use stays in use -/

section Occupied

variable {s t : Instance} {i k : ℕ}

theorem claimed_occupied {type parent : ℕ} (htype : type ≠ 0) (h : (s.inodes k).type ≠ 0) :
    ((claimed s i type parent).inodes k).type ≠ 0 := by
  by_cases hk : k = i
  · subst hk
    rwa [claimed_inodes_self]
  · rwa [claimed_inodes_of_ne hk]

theorem Rewrite.type (h : Inv s) (hr : Rewrite s t) (k : ℕ) :
    (t.inodes k).type = (s.inodes k).type := by
  cases hr with
  | write _ _ ht =>
    obtain ⟨-, rfl⟩ := h.writeFile_eq_some ht
    exact written_type k
  | purge _ _ ht =>
    rw [h.purgeFileContents_eq] at ht
    cases ht
    exact purged_type k

theorem Micro.occupied (h : Inv s) (hm : Micro s t) (hk : (s.inodes k).type ≠ 0) :
    (t.inodes k).type ≠ 0 := by
  cases hm with
  | claimDir hfind hp =>
    rw [claimDir_eq hfind]
    exact claimed_occupied (by norm_num) hk
  | claimFile hfind hp =>
    rw [claimFile_eq hfind]
    exact claimed_occupied (by norm_num) hk
  | rewrite hr => rwa [hr.type h]
  | commit _ => exact hk
  | push _ _ => exact hk
  | enter _ ht =>
    obtain ⟨_, -, rfl⟩ := cdNode_eq_some ht
    exact hk
  | report d => exact hk

theorem Inv.occupied_exec {c : Cmd} (h : Inv s) (hc : Exec s c t) (hk : (s.inodes k).type ≠ 0) :
    (t.inodes k).type ≠ 0 :=
  (Runs.invariant_of_star (P := fun u => Inv u ∧ (u.inodes k).type ≠ 0)
    (fun _ _ hu hm => ⟨hu.1.micro hm, hm.occupied hu.1 hu.2⟩) ⟨h, hk⟩ (h.exec_star hc)).2

/-- The slot is in use if the inode in memory is. -/
def Occupies (n m : Inode) : Prop := m.type ≠ 0 → n.type ≠ 0

theorem Occupies.refl (n : Inode) : Occupies n n := id

theorem occupies_root (m : Inode) : Occupies rootInode m := fun _ => by decide

/-- The slots of all inodes in use are in use. -/
def Committed (s : Instance) : Prop := SlotsMatch Occupies s fun _ => False

theorem Committed.rewrite (hs : Committed s) (h : Inv s) (hr : Rewrite s t) : Committed t := by
  cases hr with
  | write hi _ ht =>
    obtain ⟨hlen, rfl⟩ := h.writeFile_eq_some ht
    exact fun k hk _ => SlotsMatch.write Occupies.refl h hi hs hlen (fun _ => occupies_root _) k hk
      fun e => e.1
  | purge _ hi ht =>
    rw [h.purgeFileContents_eq] at ht
    cases ht
    intro k hk _ htype
    rw [purged_type] at htype
    exact hs k hk id htype

theorem Committed.rewrites (hs : Committed s) (h : Inv s) (hr : ReflTransGen Rewrite s t) :
    Committed t :=
  (Runs.invariant_of_star (P := fun u => Inv u ∧ Committed u)
    (fun _ _ hu hr => ⟨hu.1.rewrite hr, hu.2.rewrite hu.1 hr⟩) ⟨h, hs⟩ hr).2

theorem Committed.create (hs : Committed s) (h : Inv s) {type parent p : ℕ} {data : List Byte}
    (hi : i < s.sb.totalInodes) (htype : type ≠ 0) (h2 : type ≤ 2) (hparent : SelfOk s.sb parent)
    (hp : p < s.sb.totalInodes) (hlen : (blocksOf (claimed s i type parent) p data).length ≤ 10)
    (hdata : Content s.sb data) : Committed (created s i type parent p data) := by
  have hclaim := h.claim hi htype h2 hparent
  have hstale := SlotsMatch.claim (i := i) hs type parent
  have hwrite := hstale.write Occupies.refl hclaim hp hlen fun _ => occupies_root _
  have hcommit := hwrite.commit Occupies.refl (hclaim.write hp hlen hdata) hi
    fun _ => occupies_root _
  exact fun k hk _ => hcommit k hk fun e => e.2 (e.1.1.elim False.elim id)

theorem Committed.touch (hs : Committed s) (h : Inv s) {name : List Byte} (hname : IsArg name)
    (ht : s.touch s.cwdNode name = some (i, t)) : Committed t := by
  obtain ⟨s', dir, hfind, hdir, hlen, rfl⟩ := h.touch_eq h.cwd_lt ht
  have hi := h.queue.lt i (findInode_eq_some hfind).1
  exact hs.create h hi (by norm_num) (by norm_num) (h.table.selfOk h.cwd_lt) h.cwd_lt hlen
    (.insert (h.listings _ h.cwd_lt _ hdir) hname (h.table.indexOk hi))

theorem Committed.pushSorted (hs : Committed s) (i : ℕ) : Committed (s.pushSorted i) := hs

/-- Between commands the slots of all inodes in use are in use. -/
theorem Committed.exec {c : Cmd} (hs : Committed s) (h : Inv s) (hc : Exec s c t) :
    Committed t := by
  cases h.outcome hc with
  | @mkdir name _ hmkdir =>
    obtain ⟨i, s', dir, hfind, hdir, hlen, rfl⟩ := h.mkdir_eq h.cwd_lt hmkdir
    have hi := h.queue.lt i (findInode_eq_some hfind).1
    exact (hs.create h hi (by norm_num) (by norm_num) (Or.inl h.cwd_lt) h.cwd_lt hlen
      (.insert (h.listings _ h.cwd_lt _ hdir) name.2 (h.table.indexOk hi))).pushSorted i
  | @touch name _ _ htouch => exact hs.touch h name.2 htouch
  | @create name data _ _ _ _ _ _ htouch hwrite =>
    obtain ⟨hstar, hi, hsb⟩ := h.touch_star h.cwd_lt name.2 htouch
    exact (hs.touch h name.2 htouch).rewrite (h.star hstar)
      (.write (hsb ▸ hi) (.raw data.2) hwrite)
  | @write _ data _ _ _ _ _ _ hlt _ hwrite =>
    exact hs.rewrite h (.write hlt (.raw data.2) hwrite)
  | refuse => exact hs
  | rm _ _ h0 hlt hrm => exact hs.rewrites h (h.rmInode_rewrites h.cwd_lt h0 hlt hrm)
  | rmNothing => exact hs
  | cdParent _ _ henter =>
    obtain ⟨cwd, -, rfl⟩ := cdNode_eq_some henter
    exact hs
  | cd _ _ _ _ hs₁ henter =>
    obtain ⟨cwd, -, rfl⟩ := cdNode_eq_some henter
    rcases hs₁ with ⟨-, rfl⟩ | ⟨-, rfl⟩ <;> exact hs
  | cdNothing => exact hs

theorem Reachable.committed (h : Reachable s) : Committed s := by
  induction h with
  | mount himg hmount =>
    exact fun k hk _ htype => (Synced.of_image himg hmount k hk).type ▸ htype
  | exec hs hc ih => exact ih.exec hs.inv hc
  | remount hs hnone ht ih =>
    obtain ⟨hdrive, hsb, hinodes⟩ := hs.inv.remount_eq ht
    intro k hk _ htype
    rw [hsb] at hk
    rwa [hinodes k hk, adopt_type, ← hsb, ← hdrive] at htype

/-- A creation leaves the inode it was given in use. -/
theorem Inv.occupied_create {c : Cmd} {s' : Instance} (h : Inv s) (hc : Exec s c t)
    (hcreates : Creates s c) (hfind : s.findInode = some (i, s')) : (t.inodes i).type ≠ 0 := by
  have hsame : ∀ {j s''}, s.findInode = some (j, s'') → i = j := fun hj =>
    congrArg Prod.fst (Option.some.inj (hfind.symm.trans hj))
  cases h.outcome hc with
  | mkdir hmkdir =>
    obtain ⟨j, _, dir, hj, -, -, rfl⟩ := h.mkdir_eq h.cwd_lt hmkdir
    obtain rfl := hsame hj
    rw [pushSorted_inodes, created_type]
    exact two_ne_zero
  | touch htouch =>
    obtain ⟨_, dir, hj, -, -, rfl⟩ := h.touch_eq h.cwd_lt htouch
    obtain rfl := hsame hj
    rw [created_type]
    exact one_ne_zero
  | @create name _ _ j s₁ _ _ _ htouch hwrite =>
    obtain ⟨hstar, -, -⟩ := h.touch_star h.cwd_lt name.2 htouch
    obtain ⟨-, rfl⟩ := (h.star hstar).writeFile_eq_some hwrite
    obtain ⟨_, dir', hj, -, -, rfl⟩ := h.touch_eq h.cwd_lt htouch
    obtain rfl := hsame hj
    rw [written_type, created_type]
    exact one_ne_zero
  | write hdir hv => exact absurd hcreates (not_creates_of_listed hdir hv)
  | refuse hdir hv => exact absurd hcreates (not_creates_of_listed hdir hv)
  | rm => exact hcreates.elim
  | rmNothing => exact hcreates.elim
  | cdParent => exact hcreates.elim
  | cd => exact hcreates.elim
  | cdNothing => exact hcreates.elim

end Occupied

/-! ### Handing out inodes -/

/-- What `find_inode` and its callers are meant to do: hand out an unoccupied inode other than the
root; or, when there is none, say so by returning `0` and take nothing, and then the callers leave
the volume as it is. -/
structure FindInodeSafe (s : Instance) : Prop where
  find : ∃ i s', s.findInode = some (i, s') ∧
    (i ≠ 0 ∧ (s.inodes i).type = 0 ∨ ¬HasFree s ∧ i = 0 ∧ s' = s)
  refuse : ¬HasFree s → ∀ c t, Creates s c → Exec s c t → t.inodes = s.inodes ∧
    t.dataBitmap = s.dataBitmap ∧ t.inodesSorted = s.inodesSorted ∧ t.drive = s.drive

/-- A command, labelled with the inode that it was given if it makes one and has an unoccupied inode
to take, or a remount. -/
inductive SafeStep : Instance → Option ℕ → Instance → Prop
  | create {s s' t : Instance} {c : Cmd} {i : ℕ} : Exec s c t → Creates s c → HasFree s →
      s.findInode = some (i, s') → SafeStep s (some i) t
  | other {s t : Instance} {c : Cmd} : Exec s c t → ¬Creates s c → SafeStep s none t
  | remount {s t : Instance} : NoBlocksListed s → mount s.drive = some t → SafeStep s none t

section HandOut

variable {s t : Instance} {k : ℕ}

theorem Inv.findInodeSafe_iff (h : Inv s) : FindInodeSafe s ↔ HasFree s := by
  constructor
  · rintro ⟨⟨i, s', hfind, hcase⟩, -⟩
    obtain ⟨hmem, rfl⟩ := findInode_eq_some hfind
    rcases hcase with ⟨-, hfree⟩ | ⟨-, -, hsame⟩
    · exact ⟨i, h.queue.lt i hmem, hfree⟩
    · -- the queue has lost an inode
      have hlen := congrArg (fun u => u.inodesSorted.length) hsame
      have hpos := List.length_pos_of_mem hmem
      simp only [List.length_erase_of_mem hmem] at hlen
      omega
  · intro hfree
    obtain ⟨i, hi⟩ := hfree.exists_largest
    have hfind := h.findInode_of_free hi
    exact ⟨⟨i, _, hfind, Or.inl ⟨(h.largestFree_of_findInode hfree hfind).2, hi.free⟩⟩,
      fun hnone => absurd hfree hnone⟩

theorem SafeStep.reachable {a : Option ℕ} (hs : Reachable s) (ht : SafeStep s a t) :
    Reachable t := by
  cases ht with
  | create hc _ _ _ => exact .exec hs hc
  | other hc _ => exact .exec hs hc
  | remount hnone ht => exact .remount hs hnone ht

theorem SafeStep.occupied {a : Option ℕ} (hs : Reachable s) (ht : SafeStep s a t)
    (hk : k < s.sb.totalInodes) (hocc : (s.inodes k).type ≠ 0) : (t.inodes k).type ≠ 0 := by
  cases ht with
  | create hc _ _ _ => exact hs.inv.occupied_exec hc hocc
  | other hc _ => exact hs.inv.occupied_exec hc hocc
  | remount hnone ht =>
    rw [(hs.inv.remount_eq ht).2.2 k hk, adopt_type]
    exact hs.committed k hk id hocc

theorem SafeStep.sb {a : Option ℕ} (hs : Reachable s) (ht : SafeStep s a t) : t.sb = s.sb := by
  cases ht with
  | create hc _ _ _ => exact hs.inv.star_sb (hs.inv.exec_star hc)
  | other hc _ => exact hs.inv.star_sb (hs.inv.exec_star hc)
  | remount hnone ht => exact (hs.inv.remount_eq ht).2.1

/-- Over a run of safe steps the inodes handed out were unoccupied before, are in use afterwards, and
none is handed out twice. -/
theorem handedOut_of_run {ls : List (Option ℕ)} (hs : Reachable s)
    (hrun : Runs.Run SafeStep s ls t) :
    ls.reduceOption.Nodup ∧ (∀ i ∈ ls.reduceOption, i ≠ 0 ∧ i < s.sb.totalInodes ∧
      (s.inodes i).type = 0 ∧ (t.inodes i).type ≠ 0) ∧
    ∀ k < s.sb.totalInodes, (s.inodes k).type ≠ 0 → (t.inodes k).type ≠ 0 := by
  induction hrun with
  | nil s => exact ⟨List.nodup_nil, fun i hi => absurd hi List.not_mem_nil, fun _ _ => id⟩
  | @cons s u t a ls hstep hrun ih =>
    obtain ⟨hnodup, hfresh, hocc⟩ := ih (hstep.reachable hs)
    have hsb := hstep.sb hs
    have hback : ∀ i ∈ ls.reduceOption, i ≠ 0 ∧ i < s.sb.totalInodes ∧ (s.inodes i).type = 0 ∧
        (t.inodes i).type ≠ 0 := by
      intro i hi
      obtain ⟨h0, hlt, hfree, hused⟩ := hfresh i hi
      exact ⟨h0, hsb ▸ hlt, by_contra fun hne => hstep.occupied hs (hsb ▸ hlt) hne hfree, hused⟩
    have hkeep : ∀ k < s.sb.totalInodes, (s.inodes k).type ≠ 0 → (t.inodes k).type ≠ 0 :=
      fun k hk hne => hocc k (hsb.symm ▸ hk) (hstep.occupied hs hk hne)
    cases hstep with
    | @create s' _ c i hc hcreates hfree hfind =>
      obtain ⟨hlargest, h0⟩ := hs.inv.largestFree_of_findInode hfree hfind
      have hused := hs.inv.occupied_create hc hcreates hfind
      rw [List.reduceOption_cons_of_some]
      -- once handed out it is occupied, and what is handed out later was unoccupied
      refine ⟨List.nodup_cons.2 ⟨fun hi => hused (hfresh i hi).2.2.1, hnodup⟩, ?_, hkeep⟩
      intro j hj
      rcases List.mem_cons.1 hj with rfl | hj
      · exact ⟨h0, hlargest.lt, hlargest.free, hocc j (hsb.symm ▸ hlargest.lt) hused⟩
      · exact hback j hj
    | other hc _ => exact ⟨hnodup, hback, hkeep⟩
    | remount hnone ht => exact ⟨hnodup, hback, hkeep⟩

end HandOut

/-- **`find_inode` is safe exactly while an inode is unoccupied**, and over a run whose creations all
find one, it never hands out the root, an inode in use, or an inode a second time. -/
theorem findInode_safe_iff {s : Instance} (hs : Reachable s) : (FindInodeSafe s ↔ HasFree s) ∧
    ∀ ls t, Runs.Run SafeStep s ls t → ls.reduceOption.Nodup ∧
      ∀ i ∈ ls.reduceOption, i ≠ 0 ∧ (s.inodes i).type = 0 ∧ (t.inodes i).type ≠ 0 := by
  refine ⟨hs.inv.findInodeSafe_iff, fun ls t hrun => ?_⟩
  obtain ⟨hnodup, hfresh, -⟩ := handedOut_of_run hs hrun
  exact ⟨hnodup, fun i hi => ⟨(hfresh i hi).1, (hfresh i hi).2.2⟩⟩

theorem findInode_safe_touch : [some 9].reduceOption.Nodup ∧ ∀ i ∈ [some 9].reduceOption,
    i ≠ 0 ∧ (smallVolume.inodes i).type = 0 ∧ (touchedVolume.inodes i).type ≠ 0 :=
  (findInode_safe_iff smallVolume_session.reachable).2 [some 9] touchedVolume
    (.cons (.create touchedVolume_exec trivial smallVolume_largestFree.hasFree
      (smallVolume_inv.findInode_of_free smallVolume_largestFree)) (.nil _))

/-! ### Nine files on the smallest volume -/

theorem Inv.room_root_pos {s : Instance} (h : Inv s) : 0 < room s 0 := by
  obtain ⟨rest, heq, -⟩ := blocksOf_root [] h.formatted h.table.root_self
  have hlen := congrArg List.length heq
  rw [blocksOf_length, List.length_cons] at hlen
  omega

theorem encodeEntry_a_length {i : ℕ} (hi : i < 10) : (encodeEntry (argA.1, i)).length = 4 := by
  have hdec : ∀ i < 10, (CString.decimal i).length = 1 := by decide
  have ha : argA.1.length = 1 := by decide
  rw [encodeEntry, List.length_append, List.length_cons, List.length_append, hdec i hi, ha]
  rfl

/-- After `k` times `touch a` the inodes from `10 - k` on are in use. -/
theorem touches_run {k : ℕ} (hk : k ≤ 9) : ∃ s dir,
    Runs.Run Exec smallVolume (List.replicate k (.touch argA)) s ∧ Inv s ∧
    s.cwdNode = 0 ∧ s.sb.totalInodes = 10 ∧ s.getDirEntry 0 = some dir ∧
    (encodeDir dir).length = 4 * k ∧ 0 ∈ s.inodesSorted ∧
    ∀ i, i ≠ 0 → i < 10 → ((s.inodes i).type = 0 ↔ i < 10 - k) := by
  induction k with
  | zero =>
    refine ⟨smallVolume, [], .nil _, smallVolume_inv, rfl, smallVolume_totalInodes,
      smallVolume_getDirEntry, rfl, ?_, fun i h0 hi => ?_⟩
    · refine List.mem_reverse.2 (List.mem_range.2 ?_)
      rw [smallSuperBlock_totalInodes]
      decide
    · rw [smallVolume_inodes h0 hi]
      exact ⟨fun _ => by omega, fun _ => rfl⟩
  | succ k ih =>
    obtain ⟨s, dir, hrun, h, hcwd, htotal, hdir, hlen, hqueue, htype⟩ := ih (by omega)
    have hbs := h.formatted.blockSize
    -- the queue gives the largest unoccupied inode
    have hfree : LargestFree s (9 - k) := by
      refine ⟨by omega, (htype _ (by omega) (by omega)).2 (by omega), fun i hi hi0 => ?_⟩
      by_cases h0 : i = 0
      · omega
      · have := (htype i h0 (by omega)).1 hi0
        omega
    have hself := h.table.self_eq (9 - k) (by omega) hfree.lt
    have henc : (encodeDir (dir ++ [(argA.1, (s.inodes (9 - k)).self)])).length =
        4 * (k + 1) := by
      rw [hself, encodeDir_append, encodeDir_singleton, List.length_append, hlen,
        encodeEntry_a_length (by omega)]
      omega
    have htouch := h.touch_of_free 0 argA.1 (by omega) hfree hdir (by omega)
    have hexec : Exec s (.touch argA) (created s (9 - k) 1 (s.inodes 0).self 0
        (encodeDir (dir ++ [(argA.1, (s.inodes (9 - k)).self)]))) :=
      ⟨0, by rw [builtInFunc, hcwd, htouch, Option.map_some]⟩
    refine ⟨_, _, ?_, h.exec hexec, hcwd, htotal,
      h.getDirEntry_created_of_short _ _ _ _ hfree.lt (by decide) (by decide)
        (h.table.selfOk (by omega)) (by omega) hdir (by decide) h.room_root_pos (by omega),
      henc, (List.mem_erase_of_ne (by omega)).2 hqueue, fun i h0 hi => ?_⟩
    · rw [List.replicate_succ']
      exact hrun.snoc hexec
    · by_cases hik : i = 9 - k
      · rw [hik, created_type]
        omega
      · rw [created_type_of_ne hik, htype i h0 hi]
        omega

/-- After nine times `touch a` on the smallest volume, `find_inode` hands out an inode in use. -/
theorem nine_touches_unsafe : ∃ s,
    Runs.Run Exec smallVolume (List.replicate 9 (.touch argA)) s ∧
    (∃ i s', s.findInode = some (i, s') ∧ (s.inodes i).type ≠ 0) ∧ ¬FindInodeSafe s := by
  obtain ⟨s, dir, hrun, h, -, htotal, -, -, hqueue, htype⟩ := touches_run le_rfl
  have hnone : ¬HasFree s := by
    rintro ⟨i, hi, hfree⟩
    by_cases h0 : i = 0
    · exact h.table.root_occupied (h0 ▸ hfree)
    · have := (htype i h0 (by omega)).1 hfree
      omega
  obtain ⟨i, s', hfind⟩ := findInode_isSome (List.ne_nil_of_mem hqueue)
  refine ⟨s, hrun, ⟨i, s', hfind, fun hfree => ?_⟩, fun hsafe => hnone (h.findInodeSafe_iff.1 hsafe)⟩
  exact hnone ⟨i, h.queue.lt i (findInode_eq_some hfind).1, hfree⟩

end MufaFs
