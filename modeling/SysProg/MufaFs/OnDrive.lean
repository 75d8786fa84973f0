import SysProg.MufaFs.Removal
import SysProg.MufaFs.Sync

/-!
# What of the inodes is on the drive

`rm` does not write the inodes that it removes, and so their slots keep what was committed last.  All
others are committed with every change, and with listings and contents of one block at most the root
stays as it was made.

* `OnDrive`: all slots but the stale ones hold what is in memory, and no slot lists two blocks;
* `OnDrive.write`, `OnDrive.created`, `OnDrive.rmInode`: the operations that change inodes.
-/

namespace MufaFs

open ByteFile FirstFit Instance Listings

/-- The slots that are not stale hold what is in memory, and each slot lists one block at most. -/
structure OnDrive (s : Instance) (stale : Set ℕ) : Prop where
  slots : SlotsMatch SameInode s (· ∈ stale)
  single : ∀ k < s.sb.totalInodes, ∀ j, j ≠ 0 → (slotInode s.drive s.sb k).dataBlocks j = 0

section OnDrive

variable {s t : Instance} {i p : ℕ} {stale stale' S : Set ℕ} {data : List Byte}

theorem OnDrive.mono (hd : OnDrive s stale) (hsub : stale ⊆ stale') : OnDrive s stale' :=
  ⟨fun k hk hstale => hd.slots k hk fun h => hstale (hsub h), hd.single⟩

/-- Neither the drive nor the inodes change. -/
theorem OnDrive.of_same (hd : OnDrive s stale) (hsb : t.sb = s.sb) (hdrive : t.drive = s.drive)
    (hinodes : t.inodes = s.inodes) : OnDrive t stale := by
  refine ⟨fun k hk hstale => ?_, fun k hk => ?_⟩
  · rw [hsb, hdrive, hinodes]
    exact hd.slots k (hsb ▸ hk) hstale
  · rw [hsb, hdrive]
    exact hd.single k (hsb ▸ hk)

/-- The root in memory is as it was made. -/
theorem OnDrive.root (hd : OnDrive s stale) (h : Inv s) (h0 : 0 ∉ stale) :
    SameInode rootInode (s.inodes 0) := by
  rw [← h.slots.slotInode_root h.formatted]
  exact hd.slots 0 (by have := h.formatted.totalInodes; omega) h0

/-- An inode that was given at most a block of data lists one block at most. -/
theorem written_single (hbs : 0 < s.sb.blockSize) (hdata : data.length ≤ s.sb.blockSize) {j : Fin 10}
    (hj : j ≠ 0) : ((written s i data).inodes i).dataBlocks j = 0 := by
  have hle : (blocksOf s i data).length ≤ 1 := by
    rw [blocksOf, blocksFor_of_le hbs hdata]
    exact List.length_take_le _ _
  have hpos : 1 ≤ j.val := Nat.one_le_iff_ne_zero.2 fun e => hj (Fin.ext e)
  rw [written_inodes_self]
  exact List.getD_eq_default _ _ (hle.trans hpos)

/-- **A write** commits its inode. -/
theorem OnDrive.write (hd : OnDrive s stale) (h : Inv s) (hi : i < s.sb.totalInodes) (h0 : 0 ∉ stale)
    (hdata : data.length ≤ s.sb.blockSize) : OnDrive (written s i data) (stale \ {i}) := by
  have hbs := h.formatted.blockSize_pos
  have hlen : (blocksOf s i data).length ≤ 10 := blocksOf_length_le hbs (by omega)
  refine ⟨hd.slots.write SameInode.refl h hi hlen ?_, fun k hk j hj => ?_⟩
  · rintro rfl
    have hroot := hd.root h h0
    exact root_written hroot (h.blocksOf_root_eq (root_blocks hroot) (Or.inl hdata))
  · show (slotInode (written s i data).drive s.sb k).dataBlocks j = 0
    rw [h.slotInode_written hi hlen hk]
    split_ifs
    · exact written_single hbs hdata hj
    · exact hd.single k hk j hj

theorem OnDrive.claim (hd : OnDrive s stale) (type parent : ℕ) :
    OnDrive (claimed s i type parent) (insert i stale) :=
  ⟨fun k hk hstale => hd.slots.claim type parent k hk fun e => hstale e.symm, hd.single⟩

/-- A commit of an inode without blocks. -/
theorem OnDrive.commit (hd : OnDrive s stale) (h : Inv s) (hi : i < s.sb.totalInodes) (hi0 : i ≠ 0)
    (hblank : ∀ j, (s.inodes i).dataBlocks j = 0) : OnDrive (s.writeInode i) (stale \ {i}) := by
  refine ⟨hd.slots.commit SameInode.refl h hi fun e => absurd e hi0, fun k hk j hj => ?_⟩
  show (slotInode (s.writeInode i).drive s.sb k).dataBlocks j = 0
  rw [h.slotInode_writeInode hi hk]
  split_ifs
  · exact hblank j
  · exact hd.single k hk j hj

/-- **A creation** commits the directory and the new inode. -/
theorem OnDrive.created {type parent : ℕ} (hd : OnDrive s stale) (h : Inv s) (h0 : 0 ∉ stale)
    (hi : i < s.sb.totalInodes) (hi0 : i ≠ 0) (hp : p < s.sb.totalInodes) (hpi : i ≠ p)
    (htype : type ≠ 0) (h2 : type ≤ 2) (hparent : SelfOk s.sb parent) (hcontent : Content s.sb data)
    (hdata : data.length ≤ s.sb.blockSize) (hblank : ∀ j, (s.inodes i).dataBlocks j = 0) :
    OnDrive (MufaFs.created s i type parent p data) (stale \ {i}) := by
  have hclaim := h.claim hi htype h2 hparent
  have h0' : 0 ∉ insert i stale := fun e => e.elim hi0.symm h0
  have hlen : (blocksOf (claimed s i type parent) p data).length ≤ 10 :=
    blocksOf_length_le h.formatted.blockSize_pos (by show _ ≤ 10 * s.sb.blockSize; omega)
  have hwrite := (hd.claim type parent).write hclaim hp h0' hdata
  have hblank' : ∀ j, ((written (claimed s i type parent) p data).inodes i).dataBlocks j = 0 := by
    intro j
    rw [written_inodes_of_ne hpi, claimed_inodes_self]
    exact hblank j
  refine (hwrite.commit (hclaim.write hp hlen hcontent) hi hi0 hblank').mono ?_
  rintro k ⟨⟨hk, -⟩, hki⟩
  exact ⟨hk.resolve_left hki, hki⟩

/-- An inode that loses its blocks in memory only. -/
theorem OnDrive.purge (hd : OnDrive s stale) (hi : i ∈ stale) : OnDrive (purged s i) stale := by
  refine ⟨fun k hk hstale => ?_, hd.single⟩
  rw [purged_inodes_of_ne fun e => hstale (by rwa [e])]
  exact hd.slots k hk hstale

/-- **`rm`** leaves the slots below the inode behind, and commits the directory. -/
theorem OnDrive.rmInode {fuel : ℕ} {b : Bool} (hd : OnDrive s stale) (h : Inv s) (h0 : 0 ∉ stale)
    (hclosed : ∀ g ∈ S, ∀ c ∈ childrenOf s g, c ∈ S) (hsub : S ⊆ stale) (hi : i ∈ S)
    (hlt : i < s.sb.totalInodes) (hp : p < s.sb.totalInodes)
    (ht : rmInode fuel s p i = some (b, t)) : OnDrive t stale := by
  induction fuel generalizing s t p i b with
  | zero => exact absurd ht (by simp [Instance.rmInode])
  | succ fuel ih =>
    have hi0 : i ≠ 0 := fun e => h0 (e ▸ hsub hi)
    obtain ⟨dir, hdir, ⟨-, rfl⟩ | ⟨k, s₁, s₂, -, hlisted, hpurge, hwrite⟩⟩ := rmInode_eq_some ht
    · exact hd
    · -- the recursive calls stay below the inode
      obtain ⟨h₁, htrim, hd₁⟩ : Inv s₁ ∧ Trims s s₁ ∧ OnDrive s₁ stale := by
        rw [rmListed] at hlisted
        split_ifs at hlisted with htype
        · obtain ⟨sub, hdirsub, hfold⟩ := Option.bind_eq_some_iff.1 hlisted
          have hgood := h.listings i hlt sub hdirsub
          refine foldlM_rel (R := fun u v => Inv v ∧ Trims u v ∧ OnDrive v stale)
            ⟨h, .refl s, hd⟩ (fun hu hv => ⟨hv.1, hu.2.1.trans hv.2.1, hv.2.2⟩) ?_ hfold
          intro v hv u u' hu hstep
          obtain ⟨hinv, htrim, hdu⟩ := hu
          obtain ⟨hsize, b', hrm⟩ := rmEntry_eq_some hstep
          rw [htrim.sb] at hsize
          obtain ⟨hv0, hvlt⟩ := (hgood.indexOk v hv).of_lt h.formatted hsize
          have hilt' : i < u.sb.totalInodes := by rwa [htrim.sb]
          have hvlt' : v.2 < u.sb.totalInodes := by rwa [htrim.sb]
          have hvS := hclosed i hi v.2 (mem_childrenOf htype hdirsub hv)
          have hclosed' : ∀ g ∈ S, ∀ c ∈ childrenOf u g, c ∈ S := fun g hg c hc =>
            hclosed g hg c ((htrim.childrenOf_sublist g).subset hc)
          exact ⟨(hinv.rewrites_keep (hinv.rmInode_rewrites hilt' hv0 hvlt' hrm)).1,
            hinv.trims_rmInode hilt' hv0 hvlt' hrm, ih hdu hinv hclosed' hvS hvlt' hilt' hrm⟩
        · cases Option.some.inj hlisted
          exact ⟨h, .refl s, hd⟩
      rw [h₁.purgeFileContents_eq] at hpurge
      cases hpurge
      have hpurged := h₁.purge hi0 (htrim.sb ▸ hlt)
      have hsb : (purged s₁ i).sb = s.sb := htrim.sb
      obtain ⟨-, rfl⟩ := hpurged.writeFile_eq_some hwrite
      have hshort := ((h.listings p hp dir hdir).of_sublist (List.eraseIdx_sublist dir k)).short
      exact ((hd₁.purge (hsub hi)).write hpurged (by rwa [hsb]) h0 (by rw [hsb]; exact hshort.le)).mono
        Set.sdiff_subset

end OnDrive

end MufaFs
