import SysProg.MufaFs.Removal

/-!
# Inodes after their removal

`rm` releases the blocks of what it removes, and does nothing to the inodes: they keep their types, and
stay out of the queue if they were out of it.

* `Reachable.listsOccupied`: what is listed in a reachable state is in use;
* `rm_reclaims_never`: no `rm` of a listed name gives its inodes back.
-/

namespace MufaFs

open ByteFile FirstFit Instance Relation Listings

/-- The inodes below `i` are unoccupied again, in memory and in their slots, and queued once. -/
structure Reclaimed (s : Instance) (i : ℕ) (t : Instance) : Prop where
  type : ∀ g ∈ Below (childrenOf s) i, (t.inodes g).type = 0
  slot : ∀ g ∈ Below (childrenOf s) i, (slotInode t.drive t.sb g).type = 0
  queued : ∀ g ∈ Below (childrenOf s) i, t.inodesSorted.count g = 1

/-- Whatever is listed is in use, or is `ROOT_SELF`. -/
def ListsOccupied (s : Instance) : Prop :=
  ∀ q < s.sb.totalInodes, ∀ dir, s.getDirEntry q = some dir →
    ∀ v ∈ dir, v.2 = rootSelf ∨ (s.inodes v.2).type ≠ 0

section Occupied

variable {s t : Instance} {c : Cmd}

/-- **The step lemma.** -/
theorem ListsOccupied.exec (h : ListsOccupied s) (hs : Inv s) (hc : Exec s c t) :
    ListsOccupied t := by
  have hsb : t.sb = s.sb := hs.star_sb (hs.exec_star hc)
  intro q hq dir' hdir' v hv
  rw [hsb] at hq
  have hold : ∀ dir, s.getDirEntry q = some dir → v ∈ dir →
      v.2 = rootSelf ∨ (t.inodes v.2).type ≠ 0 := fun dir hdir hv =>
    (h q hq dir hdir v hv).imp_right (hs.occupied_exec hc)
  rcases hs.exec_listing hc hdir' with (rfl | ⟨dir, hdir, hsub⟩) |
    ⟨rfl, hcreates, i, s', dir, hfind, hdir, hsub⟩
  · exact absurd hv List.not_mem_nil
  · exact hold dir hdir (hsub.subset hv)
  · rcases List.mem_append.1 (hsub.subset hv) with hv | hv
    · exact hold dir hdir hv
    · -- the new entry lists the inode that was handed out
      rw [List.mem_singleton.1 hv]
      by_cases h0 : i = 0
      · exact Or.inl (h0 ▸ hs.table.root_self)
      · rw [hs.table.self_eq i h0 (hs.queue.lt i (findInode_eq_some hfind).1)]
        exact Or.inr (hs.occupied_create hc hcreates hfind)

/-- After a remount the root lists what it did, and nobody else lists anything. -/
theorem Inv.getDirEntry_remount (h : Inv s) (hnone : NoBlocksListed s)
    (ht : mount s.drive = some t) {q : ℕ} (hq : q < s.sb.totalInodes) {dir : List Entry}
    (hdir : t.getDirEntry q = some dir) : dir = [] ∨ s.getDirEntry q = some dir := by
  obtain ⟨hdrive, hsb, hinodes⟩ := h.remount_eq ht
  have hblocks : ∀ j, (t.inodes q).dataBlocks j = 0 := fun j => by
    rw [hinodes q hq, adopt_dataBlocks]
    exact hnone.slots q hq j
  by_cases h0 : q = 0
  · subst h0
    have hsame : t.getDirEntry 0 = s.getDirEntry 0 := by
      refine getDirEntry_congr hsb (h.self_eq_self (h.remount hnone ht) hsb 0)
        (funext fun j => ?_) fun _ _ => by rw [hdrive]
      rw [hblocks, hnone.root]
    exact Or.inr (hsame ▸ hdir)
  · have hinv := h.remount hnone ht
    rw [hinv.table.getDirEntry_of_no_blocks hinv.formatted h0 hblocks] at hdir
    exact Or.inl (Option.some.inj hdir).symm

theorem Reachable.listsOccupied (h : Reachable s) : ListsOccupied s := by
  induction h with
  | mount himg hmount =>
    intro q _ dir hdir v hv
    cases (getDirEntry_of_image himg hmount q).symm.trans hdir
    exact absurd hv List.not_mem_nil
  | exec hs hc ih => exact ih.exec hs.inv hc
  | @remount s t hs hnone ht ih =>
    obtain ⟨hdrive, hsb, hinodes⟩ := hs.inv.remount_eq ht
    intro q hq dir hdir v hv
    rw [hsb] at hq
    rcases hs.inv.getDirEntry_remount hnone ht hq hdir with rfl | hdir
    · exact absurd hv List.not_mem_nil
    · rcases ih q hq dir hdir v hv with hroot | hocc
      · exact Or.inl hroot
      · -- what is in use is in use in its slot
        have hlt : v.2 < s.sb.totalInodes := by
          by_contra hge
          rw [hs.inv.table.spare v.2 (by omega)] at hocc
          exact hocc rfl
        rw [hinodes v.2 hlt, adopt_type]
        exact Or.inr (hs.committed v.2 hlt id hocc)

/-- A removed inode keeps its type. -/
theorem Reachable.rm_occupied (h : Reachable s) {name : Arg} {dir : List Entry} {v : Entry}
    (hdir : s.getDirEntry s.cwdNode = some dir) (hv : lookup dir name.1 = some v)
    (hc : Exec s (.rm name) t) : (t.inodes v.2).type ≠ 0 := by
  have hs := h.inv
  obtain ⟨h0, hlt, fuel, b, hrm⟩ := hs.rm_listed hdir hv hc
  rw [(hs.trims_rmInode hs.cwd_lt h0 hlt hrm).type]
  rcases h.listsOccupied _ hs.cwd_lt dir hdir v (mem_of_lookup hv) with hroot | hocc
  · have := hs.formatted.totalInodes_lt_rootSelf
    omega
  · exact hocc

end Occupied

/-- **No `rm` gives an inode back.** In every reachable state, whichever listed name is removed, the
inodes below it are not reclaimed. -/
theorem rm_reclaims_never {s : Instance} (hs : Reachable s) {name : Arg} {dir : List Entry}
    {v : Entry} (hdir : s.getDirEntry s.cwdNode = some dir) (hv : lookup dir name.1 = some v) :
    ¬∃ t, Exec s (.rm name) t ∧ Reclaimed s v.2 t := by
  rintro ⟨t, hc, hr⟩
  exact hs.rm_occupied hdir hv hc (hr.type v.2 (mem_below_self _ _))

section Small

theorem rm_reclaims_never_sample : ∃ s, Runs.Run SaneExec smallVolume sampleSession s ∧
    ¬∃ t, Exec s (.rm argA) t ∧ Reclaimed s 9 t := by
  obtain ⟨s, hrun, hs⟩ := sampleSession_sane
  have hsession : Session s := ⟨_, _, _, _, _, _, smallVolume_created, smallVolume_mounted,
    hrun.mono fun _ _ _ h => h.1⟩
  have hdir : s.getDirEntry s.cwdNode = some [(argA.1, 9)] := hs.getDirEntry_cwd
  exact ⟨s, hrun, rm_reclaims_never hsession.reachable hdir (v := (argA.1, 9)) rfl⟩

/-- After `touch a` and `rm a` nothing is listed any more, and inode `9` is in use. -/
theorem rm_keeps_inode : ∃ t, Exec touchedVolume (.rm argA) t ∧ t.getDirEntry 0 = some [] ∧
    (t.inodes 9).type ≠ 0 ∧ ¬Reclaimed touchedVolume 9 t := by
  have hdir : touchedVolume.getDirEntry touchedVolume.cwdNode = some [(argA.1, 9)] :=
    touchedVolume_getDirEntry
  have hlookup : lookup [(argA.1, 9)] argA.1 = some (argA.1, 9) := rfl
  obtain ⟨⟨t, ht⟩, hremoved⟩ :=
    (touchedVolume_forestOk.removesBelow_iff hdir hlookup).2 touchedVolume_readable
  have hocc := touchedVolume_session.reachable.rm_occupied (v := (argA.1, 9)) hdir rfl ht
  exact ⟨t, ht, (hremoved t ht).listing.trans rfl, hocc, fun hr => hocc (hr.type 9 (mem_below_self _ _))⟩

end Small

end MufaFs
