import SysProg.MufaFs.Refinement
import SysProg.MufaFs.Remount

/-!
# Mounting the drive again

What a session of ordinary commands leaves on the drive is the file system that it shows.  In memory
stands nothing that `init` does not load again, but for inodes that no path leads to.

* `Durable`: the inodes that paths lead to are on the drive;
* `Durable.exec`: the step lemma;
* `Reloaded`: the inodes of a volume are what the slots hold;
* `remount_refines`: after a session, mounting succeeds and shows the same items.
-/

namespace MufaFs

open ByteFile FirstFit Instance Listings

/-! ### The invariant -/

/-- No path leads to these inodes. -/
def unreached (s : Instance) : Set ℕ := {k | k ∉ Below (childrenOf s) 0}

/-- The inodes that paths lead to are on the drive. -/
def Durable (s : Instance) : Prop := OnDrive s (unreached s)

section Durable

variable {s t : Instance} {c : Cmd}

theorem zero_reached (s : Instance) : 0 ∉ unreached s := fun h => h (mem_below_self _ _)

theorem Trims.unreached (h : Trims s t) : MufaFs.unreached s ⊆ MufaFs.unreached t :=
  Set.compl_subset_compl.2 (below_subset fun q _ hk => (h.childrenOf_sublist q).subset hk)

/-- What a path leads to after a creation is the new inode, or a path led to it before. -/
theorem FilesOk.unreached_grows (h : FilesOk s) {i : ℕ} {item : Item} (hg : Grows s c i item t) :
    unreached s \ {i} ⊆ unreached t := by
  have hcwd := h.forest.dirs.cwd
  have hfree : (s.inodes i).type ≠ 2 := by rw [hg.adds.free.free]; norm_num
  rintro k ⟨hk, hki⟩ hreached
  have hinsert : ∀ q, ∀ k ∈ childrenOf t q, k = i ∧ q = s.cwdNode ∨ k ∈ childrenOf s q :=
    fun _ _ => mem_of_insert (childrenOf_cwd hg.adds hcwd)
      fun q hq => h.forest.populated.childrenOf_other hg.adds hcwd hq
  exact (below_insert hinsert (childrenOf_eq_nil hfree) hreached).elim hk hki

/-- What a path leads to after `rm` is not below the inode that was removed. -/
theorem FilesOk.unreached_removal (h : FilesOk s) {i : ℕ} {dir : List Entry}
    (hdir : s.getDirEntry s.cwdNode = some dir) (hi : i ∈ childrenOf s s.cwdNode) (hi0 : i ≠ 0)
    (hr : Removal s s.cwdNode (Below (childrenOf s) i) (dir.eraseP fun e => decide (e.2 = i)) t) :
    unreached s ∪ Below (childrenOf s) i ⊆ unreached t := by
  have hcwd := h.forest.dirs.cwd
  have hgone : i ∉ childrenOf t s.cwdNode := by
    have hnodup := h.forest.forest.nodup s.cwdNode
    have herase : (dir.eraseP fun e => decide (e.2 = i)).map Prod.snd = (dir.map Prod.snd).erase i := by
      rw [List.erase_eq_eraseP', List.eraseP_map]
      rfl
    rw [childrenOf_eq ((hr.trims.type _).trans hcwd) hr.listing, herase, ← childrenOf_eq hcwd hdir]
    exact hnodup.not_mem_erase
  have hbelow := fun k hk => h.forest.forest.below_erase (k := k)
    (fun q _ hk => (hr.trims.childrenOf_sublist q).subset hk) hi hgone
    (h.forest.dirs.inv.zero_not_below hi0) hk
  rintro k (hk | hk) hreached
  · exact hk (hbelow k hreached).1
  · exact (hbelow k hreached).2 hk

/-- **The step lemma.** -/
theorem Durable.exec (hd : Durable s) (h : FilesOk s) (hc : OrdinaryExec s c t) : Durable t := by
  have hinv := h.forest.dirs.inv
  have h0 := zero_reached s
  by_cases hcreates : Creates s c
  · obtain ⟨i, hg⟩ := h.grows_exec hc hcreates
    exact (hg.onDrive _ h0 hd).mono (h.unreached_grows hg)
  · by_cases hcd : ∃ name, c = .cd name
    · obtain ⟨name, rfl⟩ := hcd
      obtain ⟨hinodes, hsame⟩ := hinv.cd_same hc.1
      have hchildren : childrenOf t = childrenOf s := funext fun p =>
        childrenOf_congr (by rw [hinodes]) (hsame p)
      rw [Durable, unreached, hchildren]
      exact hd.of_same (hinv.star_sb (hinv.exec_star hc.1)) (hinv.cd_drive hc.1) hinodes
    · rw [not_exists] at hcd
      have htrim := ((hinv.exec_effect (by rw [h.forest.dirs.cwd]; exact two_ne_zero)
        (fun hcr => absurd hcr hcreates) hcd hc.1).resolve_left fun e => hcreates e.1).2
      cases hinv.outcome hc.1 with
      | mkdir => exact absurd trivial hcreates
      | touch => exact absurd trivial hcreates
      | create hdir hnew => exact absurd ⟨_, hdir, hnew⟩ hcreates
      | @write name data dir v _ hdir hv hv0 hlt htype hwrite =>
        obtain ⟨-, rfl⟩ := hinv.writeFile_eq_some hwrite
        exact (hd.write hinv hlt h0 (hc.2.data_ok name data rfl).2.le).mono
          (Set.sdiff_subset.trans htrim.unreached)
      | refuse => exact (hd.of_same (t := s.report _) rfl rfl rfl).mono htrim.unreached
      | @rm name dir v fuel b _ hdir hv hv0 hlt hrm =>
        have hcwd := h.forest.dirs.cwd
        have hmem := (h.listed_lt hdir hv).1
        obtain ⟨hr, -⟩ := rmInode_removes fuel hinv h.forest.forest hinv.cwd_lt hcwd hdir
          (List.mem_map_of_mem (mem_of_lookup hv)) hv0 hlt hrm
        have h0' : 0 ∉ unreached s ∪ Below (childrenOf s) v.2 := fun e =>
          e.elim h0 (hinv.zero_not_below hv0)
        refine ((hd.mono Set.subset_union_left).rmInode hinv h0' (fun g hg c hc => ?_)
          Set.subset_union_right (mem_below_self _ _) hlt hinv.cwd_lt hrm).mono
          (h.unreached_removal hdir hmem hv0 hr)
        exact Relation.ReflTransGen.tail hg hc
      | rmNothing => exact (hd.of_same (t := s.report _) rfl rfl rfl).mono htrim.unreached
      | cdParent => exact absurd rfl (hcd _)
      | cd => exact absurd rfl (hcd _)
      | cdNothing => exact absurd rfl (hcd _)

end Durable

/-! ### Loading the inodes again -/

/-- The inodes are what the slots of `s` hold. -/
structure Reloaded (s u : Instance) : Prop where
  sb : u.sb = s.sb
  drive : u.drive = s.drive
  inodes : ∀ k < s.sb.totalInodes, u.inodes k = adopt (slotInode s.drive s.sb) k

section Reloaded

variable {s u : Instance} {i k : ℕ}

theorem readLoop_congr {n m : Inode} (hsb : u.sb = s.sb) (hblocks : m.dataBlocks = n.dataBlocks)
    (fuel j : ℕ) (drive : File) (buffer data : List Byte) :
    readLoop u m fuel j drive buffer data = readLoop s n fuel j drive buffer data := by
  induction fuel generalizing j drive buffer data with
  | zero => rfl
  | succ fuel ih => simp only [readLoop, hsb, hblocks, ih]

theorem readFile_congr (hsb : u.sb = s.sb) (hdrive : u.drive = s.drive)
    (hblocks : (u.inodes i).dataBlocks = (s.inodes i).dataBlocks) : u.readFile i = s.readFile i := by
  simp only [readFile, hsb, hdrive, hblocks, readLoop_congr hsb hblocks]

/-- An inode that a path leads to is in the table and in use. -/
theorem FilesOk.reached (h : FilesOk s) (hk : k ∈ Below (childrenOf s) 0) :
    k < s.sb.totalInodes ∧ (s.inodes k).type ≠ 0 := by
  rcases Relation.ReflTransGen.cases_tail hk with rfl | ⟨p, -, hp⟩
  · exact ⟨by have := h.forest.dirs.inv.formatted.totalInodes; omega,
      h.forest.dirs.inv.table.root_occupied⟩
  · exact ⟨h.forest.lists p k hp, h.forest.populated.occupied p k hp⟩

/-- **The inodes that paths lead to are loaded as they were.** -/
theorem Durable.sameInode (hd : Durable s) (h : FilesOk s) (hu : Reloaded s u)
    (hk : k ∈ Below (childrenOf s) 0) : SameInode (u.inodes k) (s.inodes k) := by
  obtain ⟨hlt, hoccupied⟩ := h.reached hk
  have hsame := hd.slots k hlt fun e => e hk
  rw [hu.inodes k hlt, adopt, if_neg (hsame.type ▸ hoccupied)]
  exact hsame

/-- They list and hold the same. -/
theorem Durable.shows (hd : Durable s) (h : FilesOk s) (hu : Reloaded s u)
    (hk : k ∈ Below (childrenOf s) 0) :
    u.getDirEntry k = s.getDirEntry k ∧ entriesOf u k = entriesOf s k ∧ itemOf u k = itemOf s k := by
  have hsame := hd.sameInode h hu hk
  have hlisting : u.getDirEntry k = s.getDirEntry k :=
    getDirEntry_congr hu.sb (hsame.self (h.reached hk).2) hsame.dataBlocks fun j _ => by rw [hu.drive]
  have hentries : entriesOf u k = entriesOf s k := by
    rw [entriesOf, entriesOf, hsame.type, hlisting]
  refine ⟨hlisting, hentries, ?_⟩
  rw [itemOf, itemOf, hsame.type, hentries, readFile_congr hu.sb hu.drive hsame.dataBlocks]

/-- **The items are seen at the same paths.** -/
theorem Durable.view (hd : Durable s) (h : FilesOk s) (hu : Reloaded s u) :
    Paths.view (entriesOf u) (itemOf u) 0 = Paths.view (entriesOf s) (itemOf s) 0 := by
  have hreached : ∀ path a, Paths.walk (entriesOf s) 0 path = some a → a ∈ Below (childrenOf s) 0 :=
    fun path a ha => by
      rw [← targets_entriesOf]
      exact h.tree.mem_below_iff_walk.2 ⟨path, ha⟩
  funext path
  rw [Paths.view, Paths.walk_congr fun path a ha => (hd.shows h hu (hreached path a ha)).2.1]
  exact Paths.view_congr (fun path a ha => (hd.shows h hu (hreached path a ha)).2.2) path

/-- **Mounting succeeds**: every loop that marks blocks ends in the array. -/
theorem Durable.mount (hd : Durable s) (h : FilesOk s) :
    ∃ t, mount s.drive = some t ∧ Reloaded s t ∧ t.cwdNode = 0 ∧ t.stderr = [] := by
  have hinv := h.forest.dirs.inv
  have hmarked : ((List.range s.sb.totalInodes).foldlM (markSlot markArray s.drive s.sb)
      emptyBitmap).isSome :=
    (foldlM_markSlot_isSome_iff hinv.directSlots le_rfl).2 fun k hk =>
      ⟨1, hd.single k hk.1 1 (by decide)⟩
  obtain ⟨bitmap, hbitmap⟩ := Option.isSome_iff_exists.1 hmarked
  have hinit : MufaFs.mount s.drive =
      (fresh s.drive s.sb (slotInode s.drive s.sb) bitmap).cdNode 0 := by
    have hmark : (List.range s.sb.totalInodes).foldlM
        (markInode s.sb.totalDataBlocks (slotInode s.drive s.sb)) emptyBitmap = some bitmap := hbitmap
    rw [MufaFs.mount, hinv.slots.superblock, init_eq hinv.formatted hinv.slots_slotInode,
      ← emptyBitmap, hmark, Option.bind_some]
  have hloaded : Reloaded s (fresh s.drive s.sb (slotInode s.drive s.sb) bitmap) :=
    ⟨rfl, rfl, fun k hk => loaded_of_lt hk⟩
  obtain ⟨dir, hdir⟩ : ∃ dir, s.getDirEntry 0 = some dir := by
    refine h.readable ?_
    rw [← (hd.root hinv (zero_reached s)).type]
    rfl
  rw [← (hd.shows h hloaded (mem_below_self _ 0)).1] at hdir
  exact ⟨{ fresh s.drive s.sb (slotInode s.drive s.sb) bitmap with cwdNode := 0, cwd := dir },
    by rw [hinit, cdNode, hdir]; rfl, ⟨rfl, rfl, hloaded.inodes⟩, rfl, rfl⟩

end Reloaded

/-! ### Sessions -/

section Session

variable {name : List Byte} {size : ℕ} {next : UInt16} {img : File} {s₀ s t : Instance} {cs : List Cmd}

theorem Durable.of_image (himg : createDriveImage name size next = some img)
    (hmount : MufaFs.mount img = some s₀) : Durable s₀ := by
  have hsynced := Synced.of_image himg hmount
  refine ⟨fun k hk _ => hsynced k hk, fun k hk j _ => ?_⟩
  rw [(hsynced k hk).dataBlocks]
  exact dataBlocks_of_image himg hmount k j

theorem Durable.run (hrun : Runs.Run OrdinaryExec s cs t) (h : FilesOk s) (hd : Durable s) :
    Durable t := by
  induction hrun with
  | nil s => exact hd
  | cons hc _ ih => exact ih (h.exec hc) (hd.exec h hc)

/-- **What a session leaves is there when the drive is mounted again**: on a new image, after every
sequence of ordinary commands, mounting the drive succeeds, and the volume shows the same items, from
the root. -/
theorem remount_refines (himg : createDriveImage name size next = some img)
    (hmount : mount img = some s₀) (hrun : Runs.Run OrdinaryExec s₀ cs s) :
    ∃ t, mount s.drive = some t ∧
      Refines t { cs.foldl FileSystem.exec .empty with cwd := [], stderr := [] } := by
  obtain ⟨h, hr⟩ := FilesOk.run hrun (.of_image himg hmount) (.of_image himg hmount)
  have hd := Durable.run hrun (.of_image himg hmount) (.of_image himg hmount)
  obtain ⟨t, ht, hloaded, hcwd, hstderr⟩ := hd.mount h
  refine ⟨t, ht, ?_, ?_, hstderr⟩
  · rw [hd.view h hloaded, hr.item]
  · rw [hcwd]
    rfl

end Session

theorem remount_refines_sample : ∃ s t, Runs.Run OrdinaryExec smallVolume sampleSession s ∧
    mount s.drive = some t ∧
      Refines t { sampleSession.foldl FileSystem.exec .empty with cwd := [], stderr := [] } := by
  obtain ⟨s, hrun⟩ := sampleSession_ordinary
  obtain ⟨t, ht, hr⟩ := remount_refines smallVolume_created smallVolume_mounted hrun
  exact ⟨s, t, hrun, ht, hr⟩

end MufaFs
