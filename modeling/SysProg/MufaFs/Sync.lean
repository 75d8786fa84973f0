import SysProg.MufaFs.Load
import SysProg.MufaFs.Survey

/-!
# The inode table and the slots on the drive

`Synced s`: every slot holds the inode that is in memory.  The loop of `init` on the drive of a synced
volume ends with the same inodes (`Synced.initLoop`), and so does a mount (`Synced.remount`).

A command keeps the slots in sync if it meets `InSync`: a creation has an unoccupied inode to take,
a creation in the root leaves the root with its first block only, and `rm` removes an inode that
holds no blocks.  Without that it does not: `rm` releases the blocks of an inode and does not commit
it, and the root is committed to an address below its slot.

* `session_synced`: sessions of commands that meet `InSync` end in sync;
* `rm_not_synced`: removing a file that was written to leaves its slot behind.
-/

namespace MufaFs

open ByteFile FirstFit Instance

/-- The inode `n` of a slot is the inode `m` in memory. The `self` field of an unoccupied inode
exists in memory only. -/
structure SameInode (n m : Inode) : Prop where
  type : n.type = m.type
  parent : n.parent = m.parent
  dataBlocks : n.dataBlocks = m.dataBlocks
  self : m.type ≠ 0 → n.self = m.self

theorem SameInode.refl (n : Inode) : SameInode n n := ⟨rfl, rfl, rfl, fun _ => rfl⟩

/-- Every slot but some is related to the inode in memory. -/
def SlotsMatch (R : Inode → Inode → Prop) (s : Instance) (stale : ℕ → Prop) : Prop :=
  ∀ i < s.sb.totalInodes, ¬stale i → R (slotInode s.drive s.sb i) (s.inodes i)

/-- Every slot holds the inode in memory. -/
def Synced (s : Instance) : Prop :=
  ∀ i < s.sb.totalInodes, SameInode (slotInode s.drive s.sb i) (s.inodes i)

/-! ### What a commit does to the slots -/

section Slot

variable {s t : Instance} {i k : ℕ} {data : List Byte}

theorem slotInode_commit (hf : Formatted s.sb) (hi : i < s.sb.totalInodes)
    (hself : (t.inodes i).self = if i = 0 then rootSelf else i) (hfit : i ≠ 0 → (t.inodes i).Fits)
    (hrec : t.drive.slice (s.sb.inodeAddr (t.inodes i).self) sizeofInode = (t.inodes i).encode)
    (hkeep : ∀ p < s.sb.blockAddr 0, p < s.sb.inodeAddr (t.inodes i).self ∨
      s.sb.inodeAddr (t.inodes i).self + sizeofInode ≤ p → t.drive.byte p = s.drive.byte p)
    (hk : k < s.sb.totalInodes) : slotInode t.drive s.sb k =
      if k = i ∧ i ≠ 0 then t.inodes i else slotInode s.drive s.sb k := by
  have hsz := hf.sizeofInode_lt
  have hend := hf.slot_lt_block (Or.inl hk : SelfOk s.sb k) hf.totalDataBlocks_pos
  split_ifs with hki
  · obtain ⟨rfl, h0⟩ := hki
    rw [if_neg h0] at hself
    rw [hself] at hrec
    have := Inode.decode_encode (hfit h0) []
    rwa [List.append_nil, ← hrec] at this
  · have hne : (t.inodes i).self ≠ k := by
      rw [hself]
      split_ifs with h0
      · have := hf.totalInodes_lt_rootSelf
        omega
      · exact fun e => hki ⟨e.symm, h0⟩
    have hselfOk : SelfOk s.sb (t.inodes i).self := by
      rw [hself]
      split_ifs
      · exact Or.inr rfl
      · exact Or.inl hi
    have hdis := hf.slot_disjoint hk hselfOk hne
    exact congrArg Inode.decode (File.slice_congr fun b hb => hkeep _ (by omega) (by omega))

/-- `write_inode` sets the slot of its inode; that of the root it does not. -/
theorem Inv.slotInode_writeInode (h : Inv s) (hi : i < s.sb.totalInodes)
    (hk : k < s.sb.totalInodes) : slotInode (s.writeInode i).drive s.sb k =
      if k = i ∧ i ≠ 0 then s.inodes i else slotInode s.drive s.sb k :=
  slotInode_commit (t := s.writeInode i) h.formatted hi (h.table.self_ite hi)
    (fun h0 => (h.table.slotInode (h.owned.bounded i) h0 hi).fits h.formatted) writeInode_slot
    (fun _ _ hp => writeInode_byte hp) hk

/-- `write_file` sets the slot of its inode; that of the root it does not. -/
theorem Inv.slotInode_written (h : Inv s) (hi : i < s.sb.totalInodes)
    (hlen : (blocksOf s i data).length ≤ 10) (hk : k < s.sb.totalInodes) :
    slotInode (written s i data).drive s.sb k =
      if k = i ∧ i ≠ 0 then (written s i data).inodes i else slotInode s.drive s.sb k := by
  have howned := h.owned_written hi hlen
  have htable : TableOk (written s i data) := h.table.of_dataBlocks hi rfl rfl
  refine slotInode_commit h.formatted hi (htable.self_ite hi)
    (fun h0 => (htable.slotInode (howned.bounded i) h0 hi).fits h.formatted) ?_
    (fun p hp hslot => ?_) hk
  · rw [written_self]
    exact written_slot
  · rw [written_self] at hslot
    exact written_byte_head h.formatted hp hslot

end Slot

/-! ### Steps -/

section Match

variable {R : Inode → Inode → Prop} {s : Instance} {i : ℕ} {data : List Byte} {stale : ℕ → Prop}

theorem SlotsMatch.claim (hs : SlotsMatch R s stale) (type parent : ℕ) :
    SlotsMatch R (claimed s i type parent) fun k => stale k ∨ k = i := by
  intro k hk hstale
  rw [claimed_inodes_of_ne fun e => hstale (Or.inr e)]
  exact hs k hk fun e => hstale (Or.inl e)

variable (hR : ∀ n, R n n) (h : Inv s) (hi : i < s.sb.totalInodes)
include hR h hi

/-- A commit makes the slot match; that of the root stays as it was made. -/
theorem SlotsMatch.commit (hs : SlotsMatch R s stale) (h0 : i = 0 → R rootInode (s.inodes 0)) :
    SlotsMatch R (s.writeInode i) fun k => stale k ∧ k ≠ i := by
  intro k hk hstale
  show R (slotInode (s.writeInode i).drive s.sb k) (s.inodes k)
  rw [h.slotInode_writeInode hi hk]
  split_ifs with hki
  · rw [hki.1]
    exact hR _
  · by_cases hk' : k = i
    · obtain rfl : i = 0 := by_contra fun hne => hki ⟨hk', hne⟩
      rw [hk', h.slots.slotInode_root h.formatted]
      exact h0 rfl
    · exact hs k hk fun e => hstale ⟨e, hk'⟩

theorem SlotsMatch.write (hs : SlotsMatch R s stale) (hlen : (blocksOf s i data).length ≤ 10)
    (h0 : i = 0 → R rootInode ((written s i data).inodes 0)) :
    SlotsMatch R (written s i data) fun k => stale k ∧ k ≠ i := by
  intro k hk hstale
  show R (slotInode (written s i data).drive s.sb k) _
  rw [h.slotInode_written hi hlen hk]
  split_ifs with hki
  · rw [hki.1]
    exact hR _
  · by_cases hk' : k = i
    · obtain rfl : i = 0 := by_contra fun hne => hki ⟨hk', hne⟩
      rw [hk', h.slots.slotInode_root h.formatted]
      exact h0 rfl
    · rw [written_inodes_of_ne hk']
      exact hs k hk fun e => hstale ⟨e, hk'⟩

end Match

section Root

variable {s : Instance} {data : List Byte}

theorem Synced.slotsMatch (h : Synced s) : SlotsMatch SameInode s fun _ => False :=
  fun i hi _ => h i hi

theorem SlotsMatch.synced {stale : ℕ → Prop} (h : SlotsMatch SameInode s stale)
    (hstale : ∀ i, ¬stale i) : Synced s := fun i hi => h i hi (hstale i)

/-- The root of a synced volume is as it was made. -/
theorem Synced.root (hs : Synced s) (h : Inv s) : SameInode rootInode (s.inodes 0) := by
  rw [← h.slots.slotInode_root h.formatted]
  exact hs 0 (by have := h.formatted.totalInodes; omega)

/-- It has no block but its first. -/
theorem root_blocks (hroot : SameInode rootInode (s.inodes 0)) (j : Fin 10) :
    (s.inodes 0).dataBlocks j = 0 := congrFun hroot.dataBlocks.symm j

/-- The root stays as it was made if it keeps to its first block. -/
theorem root_written (hroot : SameInode rootInode (s.inodes 0)) (hone : blocksOf s 0 data = [0]) :
    SameInode rootInode ((written s 0 data).inodes 0) := by
  have hd : (fun k : Fin 10 => ([0] : List ℕ).getD k.val 0) = (s.inodes 0).dataBlocks := by
    funext j
    rw [root_blocks hroot]
    rcases j with ⟨_ | _, _⟩ <;> rfl
  rwa [written_inodes_self, hone, Inode.withBlocks, hd]

/-- The root gets just its first block for data that fits, or when no block is free. -/
theorem Inv.blocksOf_root_eq (h : Inv s) (hblocks : ∀ j, (s.inodes 0).dataBlocks j = 0)
    (hdata : data.length ≤ s.sb.blockSize ∨ ∀ b < s.sb.totalDataBlocks, s.dataBitmap b = true) :
    blocksOf s 0 data = [0] := by
  have hf := h.formatted
  obtain ⟨rest, heq, -⟩ := blocksOf_root data hf h.table.root_self
  rw [heq]
  rcases hdata with hlen | hfull
  · have hle : (blocksOf s 0 data).length ≤ 1 := by
      rw [blocksOf, blocksFor_of_le hf.blockSize_pos hlen]
      exact List.length_take_le _ _
    rw [heq, List.length_cons] at hle
    rw [List.eq_nil_of_length_eq_zero (by omega : rest.length = 0)]
  · -- all blocks are in use: there is only block 0, which the root itself releases
    have hall : ∀ b ∈ blocksOf s 0 data, b = 0 := by
      intro b hb
      have hfree := not_release_of_mem_blocksOf hb
      have hbit := hfull b (mem_blocksOf_lt hb)
      by_contra hne
      have := release_eq_true.2 ⟨hbit, fun hh : (s.inodes 0).Holds b => ?_⟩
      · rw [hfree] at this
        exact Bool.noConfusion this
      · rcases hh with ⟨-, hb0⟩ | ⟨hb0, j, hj⟩
        · exact hne hb0
        · exact hb0 (hj.symm.trans (hblocks j))
    have hnodup : (blocksOf s 0 data).Nodup := blocksOf_nodup
    rw [heq] at hall hnodup
    cases rest with
    | nil => rfl
    | cons b rest =>
      have hb : b = 0 := hall b (by simp)
      exact absurd (List.mem_cons_self (l := rest)) (hb ▸ (List.nodup_cons.1 hnodup).1)

end Root

/-! ### Commands -/

/-- The condition under which a command keeps the slots in sync. -/
structure InSync (s : Instance) (c : Cmd) : Prop where
  hasFree : Creates s c → HasFree s
  root_short : Creates s c → s.cwdNode = 0 → ∀ dir i, s.getDirEntry 0 = some dir →
    LargestFree s i → (encodeDir (dir ++ [(c.name, i)])).length ≤ s.sb.blockSize ∨
      ∀ b < s.sb.totalDataBlocks, s.dataBitmap b = true
  rm_empty : ∀ name, c = .rm name → ∀ dir v, s.getDirEntry s.cwdNode = some dir →
    lookup dir name.1 = some v → ∀ j, (s.inodes v.2).dataBlocks j = 0

/-- A command that meets the condition. -/
def SyncExec (s : Instance) (c : Cmd) (t : Instance) : Prop := Exec s c t ∧ InSync s c

section Commands

variable {s t : Instance} {i p : ℕ}

theorem Synced.create (hs : Synced s) (h : Inv s) {type parent : ℕ} {data : List Byte}
    (h0 : i ≠ 0) (hi : i < s.sb.totalInodes) (htype : type ≠ 0) (h2 : type ≤ 2)
    (hparent : SelfOk s.sb parent) (hp : p < s.sb.totalInodes)
    (hlen : (blocksOf (claimed s i type parent) p data).length ≤ 10) (hdata : Content s.sb data)
    (hroot : p = 0 → data.length ≤ s.sb.blockSize ∨
      ∀ b < s.sb.totalDataBlocks, s.dataBitmap b = true) :
    Synced (created s i type parent p data) := by
  have hclaim := h.claim hi htype h2 hparent
  have hstale := hs.slotsMatch.claim (i := i) type parent
  have hwrite := hstale.write SameInode.refl hclaim hp hlen fun hp0 => by
    subst hp0
    have hroot' : SameInode rootInode ((claimed s i type parent).inodes 0) := by
      rw [claimed_inodes_of_ne h0.symm]
      exact hs.root h
    exact root_written hroot' (hclaim.blocksOf_root_eq (root_blocks hroot') (hroot rfl))
  have hcommit := hwrite.commit SameInode.refl (hclaim.write hp hlen hdata) hi
    fun e => absurd e h0
  exact hcommit.synced fun k hk => hk.2 (hk.1.1.elim False.elim id)

theorem Synced.pushSorted (hs : Synced s) (i : ℕ) : Synced (s.pushSorted i) := hs

theorem Synced.touch (hs : Synced s) (h : Inv s) {name : List Byte} (hname : IsArg name)
    (hfree : HasFree s)
    (hroot : s.cwdNode = 0 → ∀ dir i, s.getDirEntry 0 = some dir → LargestFree s i →
      (encodeDir (dir ++ [(name, i)])).length ≤ s.sb.blockSize ∨
        ∀ b < s.sb.totalDataBlocks, s.dataBitmap b = true)
    (ht : s.touch s.cwdNode name = some (i, t)) : Synced t ∧ i ≠ 0 := by
  obtain ⟨s', dir, hfind, hdir, hlen, rfl⟩ := h.touch_eq h.cwd_lt ht
  obtain ⟨hlargest, h0⟩ := h.largestFree_of_findInode hfree hfind
  have hself := h.table.self_eq i h0 hlargest.lt
  refine ⟨hs.create h h0 hlargest.lt (by norm_num) (by norm_num) (h.table.selfOk h.cwd_lt) h.cwd_lt
    hlen (.insert (h.listings _ h.cwd_lt _ hdir) hname (h.table.indexOk hlargest.lt))
    fun hcwd => ?_, h0⟩
  rw [hself]
  exact hroot hcwd dir i (by rwa [hcwd] at hdir) hlargest

theorem Synced.mkdir (hs : Synced s) (h : Inv s) {name : List Byte} (hname : IsArg name)
    (hfree : HasFree s)
    (hroot : s.cwdNode = 0 → ∀ dir i, s.getDirEntry 0 = some dir → LargestFree s i →
      (encodeDir (dir ++ [(name, i)])).length ≤ s.sb.blockSize ∨
        ∀ b < s.sb.totalDataBlocks, s.dataBitmap b = true)
    (ht : s.mkdir s.cwdNode name = some t) : Synced t := by
  obtain ⟨i, s', dir, hfind, hdir, hlen, rfl⟩ := h.mkdir_eq h.cwd_lt ht
  obtain ⟨hlargest, h0⟩ := h.largestFree_of_findInode hfree hfind
  have hself := h.table.self_eq i h0 hlargest.lt
  refine (hs.create h h0 hlargest.lt (by norm_num) (by norm_num) (Or.inl h.cwd_lt) h.cwd_lt hlen
    (.insert (h.listings _ h.cwd_lt _ hdir) hname (h.table.indexOk hlargest.lt))
    fun hcwd => ?_).pushSorted i
  rw [hself]
  exact hroot hcwd dir i (by rwa [hcwd] at hdir) hlargest

/-- `rm` of an inode without blocks writes the directory and nothing else. -/
theorem Synced.rmInode (hs : Synced s) (h : Inv s) {fuel : ℕ} {b : Bool}
    (hp : p < s.sb.totalInodes) (h0 : i ≠ 0) (hi : i < s.sb.totalInodes)
    (hempty : ∀ j, (s.inodes i).dataBlocks j = 0) (ht : rmInode fuel s p i = some (b, t)) :
    Synced t := by
  cases fuel with
  | zero => exact absurd ht (by simp [Instance.rmInode])
  | succ fuel =>
    obtain ⟨dir, hdir, ⟨-, rfl⟩ | ⟨k, s₁, s₂, -, hlisted, hpurge, hwrite⟩⟩ := rmInode_eq_some ht
    · exact hs
    · -- an inode without blocks lists nothing, so nothing below it is removed
      obtain rfl : s = s₁ := by
        rw [rmListed, h.table.getDirEntry_of_no_blocks h.formatted h0 hempty] at hlisted
        split_ifs at hlisted <;> exact Option.some.inj hlisted
      rw [h.purgeFileContents_eq] at hpurge
      cases hpurge
      have hpurged := h.purge h0 hi
      obtain ⟨hlen, rfl⟩ := hpurged.writeFile_eq_some hwrite
      have hgood := (h.listings p hp dir hdir).of_sublist (List.eraseIdx_sublist dir k)
      -- and to release its blocks changes nothing
      have hsame : (purged s i).inodes = s.inodes := by
        have hd : (fun _ => 0) = (s.inodes i).dataBlocks := funext fun j => (hempty j).symm
        funext k
        by_cases hk : k = i
        · subst hk
          rw [purged_inodes_self, hd]
        · exact purged_inodes_of_ne hk
      have hpurge : Synced (purged s i) := fun k hk => by
        rw [hsame]
        exact hs k hk
      have hwrite := hpurge.slotsMatch.write SameInode.refl hpurged hp hlen fun hp0 => by
        subst hp0
        have hroot := hpurge.root hpurged
        exact root_written hroot (hpurged.blocksOf_root_eq (root_blocks hroot)
          (Or.inl hgood.short.le))
      exact hwrite.synced fun k hk => hk.1

/-- **A command that meets the condition keeps the slots in sync.** -/
theorem Synced.exec {c : Cmd} (hs : Synced s) (h : Inv s) (hc : SyncExec s c t) : Synced t := by
  obtain ⟨hexec, hmeets⟩ := hc
  cases h.outcome hexec with
  | @mkdir name _ hmkdir =>
    exact hs.mkdir h name.2 (hmeets.hasFree trivial) (hmeets.root_short trivial) hmkdir
  | @touch name i _ htouch =>
    exact (hs.touch h name.2 (hmeets.hasFree trivial) (hmeets.root_short trivial) htouch).1
  | @create name data dir i s₁ _ hdir hnew htouch hwrite =>
    have hcreates : Creates s (.write name data) := ⟨dir, hdir, hnew⟩
    obtain ⟨hs₁, hi0⟩ := hs.touch h name.2 (hmeets.hasFree hcreates)
      (hmeets.root_short hcreates) htouch
    obtain ⟨hstar, hi, hsb⟩ := h.touch_star h.cwd_lt name.2 htouch
    have h₁ := h.star hstar
    obtain ⟨hlen, rfl⟩ := h₁.writeFile_eq_some hwrite
    exact (hs₁.slotsMatch.write SameInode.refl h₁ (hsb ▸ hi) hlen
      fun e => absurd e hi0).synced fun k hk => hk.1
  | write _ _ h0 hlt _ hwrite =>
    obtain ⟨hlen, rfl⟩ := h.writeFile_eq_some hwrite
    exact (hs.slotsMatch.write SameInode.refl h hlt hlen fun e => absurd e h0).synced
      fun k hk => hk.1
  | refuse => exact hs
  | @rm name dir v _ _ _ hdir hv h0 hlt hrm =>
    exact hs.rmInode h h.cwd_lt h0 hlt (hmeets.rm_empty name rfl dir v hdir hv) hrm
  | rmNothing => exact hs
  | cdParent _ _ henter =>
    obtain ⟨cwd, -, rfl⟩ := cdNode_eq_some henter
    exact hs
  | cd _ _ _ _ hs₁ henter =>
    obtain ⟨cwd, -, rfl⟩ := cdNode_eq_some henter
    rcases hs₁ with ⟨-, rfl⟩ | ⟨-, rfl⟩ <;> exact hs
  | cdNothing => exact hs

end Commands

/-! ### Sessions and remounts -/

section Remount

variable {s t : Instance}

/-- A volume just read is in sync. -/
theorem synced_fresh {drive : File} {sb : SuperBlock} {n : ℕ → Inode} (hf : Formatted sb)
    (h : Slots drive sb n) (bitmap : ℕ → Bool) : Synced (fresh drive sb n bitmap) := by
  intro i hi
  have hi : i < sb.totalInodes := hi
  show SameInode (slotInode drive sb i) (loaded n sb.totalInodes i)
  rw [slotInode_eq hf (h.fits i hi) (h.slice i hi), loaded_of_lt hi, adopt]
  split_ifs with htype
  · exact ⟨rfl, rfl, rfl, fun hne => absurd htype hne⟩
  · exact .refl _

theorem Synced.of_image {name : List Byte} {size : ℕ} {next : UInt16} {img : File}
    (himg : createDriveImage name size next = some img) (hmount : mount img = some s) :
    Synced s := by
  have hf := (Inv.of_image himg hmount).formatted
  obtain ⟨-, rfl⟩ := mount_image_eq_some himg hmount
  obtain ⟨-, rfl⟩ := createDriveImage_eq_some himg
  exact synced_fresh hf (slots_formatDrive hf (newSuperBlock_reservedBlocks name size next)
    (encode_newSuperBlock_length name size next)) _

/-- Mounting the drive again loads what is in the slots. -/
theorem Inv.remount_eq (h : Inv s) (ht : mount s.drive = some t) : t.drive = s.drive ∧
    t.sb = s.sb ∧ ∀ i < s.sb.totalInodes, t.inodes i = adopt (slotInode s.drive s.sb) i := by
  rw [mount, h.slots.superblock, init_eq h.formatted h.slots_slotInode] at ht
  obtain ⟨bitmap, -, ht⟩ := Option.bind_eq_some_iff.1 ht
  obtain ⟨cwd, -, rfl⟩ := cdNode_eq_some ht
  exact ⟨rfl, rfl, fun i hi => loaded_of_lt hi⟩

/-- What is adopted from the slot of a synced volume is the inode in memory. -/
theorem Synced.adopt (hs : Synced s) {i : ℕ} (hi : i < s.sb.totalInodes) :
    SameInode (adopt (slotInode s.drive s.sb) i) (s.inodes i) := by
  have hsame := hs i hi
  rw [MufaFs.adopt]
  split_ifs with htype
  · exact ⟨hsame.type, hsame.parent, hsame.dataBlocks, fun hne => absurd htype (hsame.type ▸ hne)⟩
  · exact hsame

/-- **The loop of `init`** on the drive of a synced volume ends with the same inodes. -/
theorem Synced.initLoop (hs : Synced s) (h : Inv s) (bitmap : ℕ → Bool) :
    ∃ st, initLoop markPacked s.drive (readSuperblock s.drive) bitmap s.sb.totalInodes = some st ∧
      ∀ i < s.sb.totalInodes, SameInode (st.1 i) (s.inodes i) := by
  rw [h.slots.superblock]
  obtain ⟨table, htable, hloop⟩ := initLoop_eq h.inodeArea markPacked bitmap le_rfl
  obtain ⟨marked, hmarked⟩ :=
    Option.isSome_iff_exists.1 (foldlM_markSlot_isSome h.directSlots bitmap le_rfl)
  refine ⟨_, by rw [hloop, hmarked]; rfl, fun i hi => ?_⟩
  show SameInode (table i) (s.inodes i)
  rw [htable i hi]
  exact hs.adopt hi

/-- Mounting the drive of a synced volume again loads the same inodes. -/
theorem Synced.remount (hs : Synced s) (h : Inv s) (ht : mount s.drive = some t) {i : ℕ}
    (hi : i < s.sb.totalInodes) : SameInode (t.inodes i) (s.inodes i) := by
  rw [(h.remount_eq ht).2.2 i hi]
  exact hs.adopt hi

end Remount

/-- What a survey allows keeps the slots in sync. -/
theorem SurveyedExec.inSync {s t : Instance} {c : Cmd} (h : SurveyedExec s c t) : SyncExec s c t := by
  obtain ⟨hexec, k, hk, hc⟩ := h
  refine ⟨hexec, fun hcreates => (hk.creates hc hcreates).1, fun hcreates h0 dir i hdir hi => ?_,
    fun name hrm => ?_⟩
  · obtain ⟨-, -, -, hshort⟩ := hk.creates hc hcreates
    exact Or.inl ((hshort dir (h0.symm ▸ hdir)).2 i hi).le
  · subst hrm
    exact absurd hc Bool.false_ne_true

/-- **Sessions of commands that meet the condition** end in sync: the loop of `init` on the drive ends
with the same inodes, and so does a remount that completes. -/
theorem session_synced {name : List Byte} {size : ℕ} {next : UInt16} {img : File}
    {s₀ s : Instance} {cs : List Cmd} (himg : createDriveImage name size next = some img)
    (hmount : mount img = some s₀) (hrun : Runs.Run SyncExec s₀ cs s) :
    Synced s ∧
      (∀ bitmap, ∃ st,
        initLoop markPacked s.drive (readSuperblock s.drive) bitmap s.sb.totalInodes = some st ∧
          ∀ i < s.sb.totalInodes, SameInode (st.1 i) (s.inodes i)) ∧
      ∀ t, mount s.drive = some t →
        ∀ i < s.sb.totalInodes, SameInode (t.inodes i) (s.inodes i) := by
  have key : Inv s ∧ Synced s := hrun.invariant (P := fun s => Inv s ∧ Synced s)
    (fun _ _ _ hs hc => ⟨hs.1.exec hc.1, hs.2.exec hs.1 hc⟩)
    ⟨Inv.of_image himg hmount, Synced.of_image himg hmount⟩
  exact ⟨key.2, fun bitmap => key.2.initLoop key.1 bitmap,
    fun t ht i hi => key.2.remount key.1 ht hi⟩

theorem session_synced_sample : ∃ s, Runs.Run SyncExec smallVolume sampleSession s ∧ Synced s ∧
    (∀ bitmap, ∃ st,
      initLoop markPacked s.drive (readSuperblock s.drive) bitmap s.sb.totalInodes = some st ∧
        ∀ i < s.sb.totalInodes, SameInode (st.1 i) (s.inodes i)) ∧
    ∀ t, mount s.drive = some t →
      ∀ i < s.sb.totalInodes, SameInode (t.inodes i) (s.inodes i) := by
  obtain ⟨s, hrun, -⟩ := sampleSession_run
  have hsync := hrun.mono fun _ _ _ h => h.inSync
  exact ⟨s, hsync, session_synced smallVolume_created smallVolume_mounted hsync⟩

/-! ### Removing a file that was written to -/

section Stale

variable {s : Instance} {p i k fuel : ℕ} {dir : List Entry}

variable (k fuel) in
/-- `rm` of something that is no directory. -/
theorem Inv.rmInode_file (h : Inv s) (h0 : i ≠ 0) (hi : i < s.sb.totalInodes)
    (hp : p < s.sb.totalInodes) (htype : (s.inodes i).type ≠ 2) (hdir : s.getDirEntry p = some dir)
    (hk : dir.findIdx? (·.2 = (s.inodes i).self) = some k) :
    rmInode (fuel + 1) s p i = some (true, written (purged s i) p (encodeDir (dir.eraseIdx k))) := by
  have hgood := (h.listings p hp dir hdir).of_sublist (List.eraseIdx_sublist dir k)
  have hlen : (encodeDir (dir.eraseIdx k)).length ≤ 10 * s.sb.blockSize := by
    have := hgood.short
    omega
  rw [rmInode, hdir]
  simp only [Option.bind_eq_bind, Option.bind_some, hk, if_neg htype]
  rw [h.purgeFileContents_eq]
  simp only [Option.bind_some]
  rw [(h.purge h0 hi).writeFile_of_length hlen]
  rfl

variable (p dir) in
/-- **The slot of a removed file keeps its blocks**, which the inode in memory has lost. -/
theorem Synced.rmInode_stale (hs : Synced s) (h : Inv s) (h0 : i ≠ 0) (hi : i < s.sb.totalInodes)
    (hp : p < s.sb.totalInodes) (hpi : p ≠ i) (hlen : (encodeDir dir).length < s.sb.blockSize)
    {j : Fin 10} (hj : (s.inodes i).dataBlocks j ≠ 0) {t : Instance}
    (ht : t = written (purged s i) p (encodeDir dir)) :
    (slotInode t.drive t.sb i).dataBlocks ≠ (t.inodes i).dataBlocks := by
  subst ht
  have hpurge := h.purge h0 hi
  have hten : (blocksOf (purged s i) p (encodeDir dir)).length ≤ 10 :=
    blocksOf_length_le h.formatted.blockSize_pos (by
      show (encodeDir dir).length ≤ 10 * s.sb.blockSize
      omega)
  have hslot : slotInode (written (purged s i) p (encodeDir dir)).drive s.sb i =
      slotInode s.drive s.sb i := by
    have := hpurge.slotInode_written (k := i) hp hten hi
    rwa [if_neg fun e => hpi e.1.symm] at this
  show (slotInode (written (purged s i) p (encodeDir dir)).drive s.sb i).dataBlocks ≠ _
  rw [hslot, written_inodes_of_ne hpi.symm, purged_inodes_self, (hs i hi).dataBlocks]
  exact fun e => hj (congrFun e j)

end Stale

theorem smallVolume_synced : Synced smallVolume :=
  Synced.of_image smallVolume_created smallVolume_mounted

theorem smallVolume_inSync : InSync smallVolume (.touch argA) := by
  refine ⟨fun _ => smallVolume_largestFree.hasFree, fun _ _ dir i hdir hi => Or.inl ?_,
    fun name h => by cases h⟩
  rw [smallVolume_getDirEntry] at hdir
  cases hdir
  rw [hi.unique smallVolume_largestFree, smallVolume_blockSize]
  exact entryA_length.le.trans (by decide)

theorem wroteVolume_synced : Synced wroteVolume := by
  have htouched : Synced touchedVolume :=
    smallVolume_synced.exec smallVolume_inv ⟨touchedVolume_exec, smallVolume_inSync⟩
  have hlen : (blocksOf touchedVolume 9 argX.1).length ≤ 10 :=
    blocksOf_length_le touchedVolume_inv.formatted.blockSize_pos
      (by rw [touchedVolume_inv.formatted.blockSize]; decide)
  exact (htouched.slotsMatch.write SameInode.refl touchedVolume_inv smallVolume_largestFree.lt hlen
    fun e => absurd e (by decide)).synced fun k hk => hk.1

/-- On a new volume, `write a x` and `rm a` leave the slot of the file with its block. -/
theorem rm_not_synced : ∃ s, Runs.Run Exec smallVolume [.write argA argX, .rm argA] s ∧
    (s.inodes 9).type ≠ 0 ∧
      (slotInode s.drive s.sb 9).dataBlocks ≠ (s.inodes 9).dataBlocks := by
  have hinv := wroteVolume_inv
  have htotal : wroteVolume.sb.totalInodes = 10 := smallVolume_totalInodes
  have htype : (wroteVolume.inodes 9).type = 1 :=
    (written_type 9).trans (congrArg Inode.type touchedVolume_inodes)
  have hself : (wroteVolume.inodes 9).self = 9 :=
    hinv.table.self_eq 9 (by decide) (by omega)
  have hrm := hinv.rmInode_file 0 0 (by decide : 9 ≠ 0) (by omega)
    (by omega : 0 < wroteVolume.sb.totalInodes) (by rw [htype]; decide) wroteVolume_getDirEntry
    (by rw [hself]; rfl)
  obtain ⟨t, ht⟩ : ∃ t, t = written (purged wroteVolume 9) 0 (encodeDir []) := ⟨_, rfl⟩
  have hrm : rmInode 1 wroteVolume 0 9 = some (true, t) := ht ▸ hrm
  have hstale := wroteVolume_synced.rmInode_stale 0 [] hinv (by decide) (by omega) (by omega)
    (by decide) (by rw [encodeDir_nil]; exact hinv.formatted.blockSize_pos) wroteVolume_block ht
  refine ⟨t, .cons wroteVolume_exec (.cons ⟨1, ?_⟩ (.nil _)), ?_, hstale⟩
  · have hderef : wroteVolume.deref 9 = some 9 := by
      rw [deref, if_pos (by rw [hinv.formatted.inodesSize]; omega)]
    show wroteVolume.rm 1 0 argA.1 = _
    rw [rm, wroteVolume_getDirEntry]
    have hlookup : lookup [(argA.1, 9)] argA.1 = some (argA.1, 9) := rfl
    simp only [Option.bind_eq_bind, Option.bind_some, hlookup, hderef, hrm]
  · rw [ht, written_type, purged_type, htype]
    decide

end MufaFs
