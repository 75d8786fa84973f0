import SysProg.Lib.Runs
import SysProg.MufaFs.Invariant

/-!
# The steps that operations are made of

An operation of a mounted volume is a sequence of a few kinds of steps (`Micro`): an inode is taken
from the queue and claimed, an inode is rewritten by `write_file`, its blocks are released, it is
committed to its slot, it goes back into the queue, the current directory changes, a message is
printed.  Every step keeps the invariant (`Inv.micro`), and so does every sequence of steps
(`Inv.star`).
-/

namespace MufaFs

open ByteFile FirstFit Instance

/-- A step that rewrites the blocks of an inode or releases them. -/
inductive Rewrite : Instance → Instance → Prop
  | write {s t : Instance} {i : ℕ} {data : List Byte} : i < s.sb.totalInodes →
      Content s.sb data → s.writeFile i data = some t → Rewrite s t
  | purge {s t : Instance} {i : ℕ} : i ≠ 0 → i < s.sb.totalInodes →
      s.purgeFileContents i = some t → Rewrite s t

/-- One step inside of an operation. -/
inductive Micro : Instance → Instance → Prop
  | claimDir {s s' : Instance} {i p : ℕ} : s.findInode = some (i, s') → p < s.sb.totalInodes →
      Micro s (s'.claimDir p i)
  | claimFile {s s' : Instance} {i p : ℕ} : s.findInode = some (i, s') → p < s.sb.totalInodes →
      Micro s (s'.claimFile p i)
  | rewrite {s t : Instance} : Rewrite s t → Micro s t
  | commit {s : Instance} {i : ℕ} : i < s.sb.totalInodes → Micro s (s.writeInode i)
  | push {s : Instance} {i : ℕ} : i < s.sb.totalInodes → i ∉ s.inodesSorted →
      Micro s (s.pushSorted i)
  | enter {s t : Instance} {i : ℕ} : i < s.sb.totalInodes → s.cdNode i = some t → Micro s t
  | report {s : Instance} (d : Diagnostic) : Micro s (s.report d)

/-! ### Steps that leave the blocks alone -/

/-- Two states with the same blocks: the same drive, bitmap and lists of blocks. -/
structure SameBlocks (s t : Instance) : Prop where
  sb : t.sb = s.sb
  drive : t.drive = s.drive
  dataBitmap : t.dataBitmap = s.dataBitmap
  self : ∀ i, (t.inodes i).self = (s.inodes i).self
  dataBlocks : ∀ i, (t.inodes i).dataBlocks = (s.inodes i).dataBlocks

section SameBlocks

variable {s t : Instance} (h : SameBlocks s t)
include h

theorem SameBlocks.holds (i b : ℕ) : (t.inodes i).Holds b ↔ (s.inodes i).Holds b := by
  rw [Inode.Holds, Inode.Holds, h.self, h.dataBlocks]

theorem OwnedOk.of_sameBlocks (ho : OwnedOk s) : OwnedOk t where
  partitioned := by
    simp only [h.holds, h.dataBitmap]
    exact ho.partitioned
  distinct i := by rw [h.dataBlocks]; exact ho.distinct i
  bounded i := by rw [h.dataBlocks, h.sb]; exact ho.bounded i
  root_first := by rw [h.dataBlocks]; exact ho.root_first
  covered i b hb := by rw [h.sb, h.drive]; exact ho.covered i b ((h.holds i b).1 hb)

theorem SameBlocks.getDirEntry (i : ℕ) : t.getDirEntry i = s.getDirEntry i :=
  getDirEntry_congr h.sb (h.self i) (h.dataBlocks i) fun _ _ => by rw [h.drive]

theorem ListingsOk.of_sameBlocks (hl : ListingsOk s) : ListingsOk t := by
  intro i hi dir hdir
  rw [h.getDirEntry] at hdir
  rw [h.sb] at hi ⊢
  exact hl i hi dir hdir

theorem SlotsOk.of_sameBlocks (hs : SlotsOk s) : SlotsOk t where
  superblock := by rw [h.drive, h.sb]; exact hs.superblock
  root := by rw [h.drive, h.sb]; exact hs.root
  slot := by rw [h.drive, h.sb]; exact hs.slot

end SameBlocks

/-! ### Claiming an inode -/

section Claim

variable {s s' : Instance} {i p : ℕ}

theorem findInode_eq_some (h : s.findInode = some (i, s')) :
    i ∈ s.inodesSorted ∧ s' = { s with inodesSorted := s.inodesSorted.erase i } := by
  rw [findInode] at h
  obtain ⟨k, hk, h⟩ := Option.bind_eq_some_iff.1 h
  cases Option.some.inj h
  exact ⟨PriorityQueue.top_mem hk, rfl⟩

/-- The state after an inode was taken and given a type and a parent. -/
def claimed (s : Instance) (i type parent : ℕ) : Instance :=
  { s.setInode i { s.inodes i with type, parent } with inodesSorted := s.inodesSorted.erase i }

theorem claimDir_eq (h : s.findInode = some (i, s')) : s'.claimDir p i = claimed s i 2
    (if (s.inodes p).self = rootSelf then 0 else (s.inodes p).self) := by
  obtain ⟨-, rfl⟩ := findInode_eq_some h
  rfl

theorem claimFile_eq (h : s.findInode = some (i, s')) :
    s'.claimFile p i = claimed s i 1 (s.inodes p).self := by
  obtain ⟨-, rfl⟩ := findInode_eq_some h
  rfl

variable {type parent : ℕ}

theorem claimed_inodes_self : (claimed s i type parent).inodes i =
    { s.inodes i with type, parent } := Function.update_self _ _ _

theorem claimed_inodes_of_ne {k : ℕ} (h : k ≠ i) :
    (claimed s i type parent).inodes k = s.inodes k := Function.update_of_ne h _ _

theorem sameBlocks_claimed : SameBlocks s (claimed s i type parent) := by
  refine ⟨rfl, rfl, rfl, fun k => ?_, fun k => ?_⟩ <;>
  · by_cases h : k = i
    · subst h; rw [claimed_inodes_self]
    · rw [claimed_inodes_of_ne h]

theorem TableOk.claim (h : TableOk s) (hi : i < s.sb.totalInodes) (h0 : type ≠ 0)
    (h2 : type ≤ 2) (hp : SelfOk s.sb parent) : TableOk (claimed s i type parent) := by
  have key : ∀ {P : ℕ → Inode → Prop}, P i { s.inodes i with type, parent } →
      (∀ k, P k (s.inodes k)) → ∀ k, P k ((claimed s i type parent).inodes k) := by
    intro P hi h k
    by_cases hk : k = i
    · subst hk; rwa [claimed_inodes_self]
    · rw [claimed_inodes_of_ne hk]; exact h k
  constructor
  · exact key (P := fun k n => k = 0 → n.self = rootSelf) (fun e => e ▸ h.root_self)
      (fun k e => e ▸ h.root_self) 0 rfl
  · exact key (P := fun k n => k ≠ 0 → k < _ → n.self = k) (h.self_eq i) h.self_eq
  · exact key (P := fun k n => k < _ → n.type ≤ 2) (fun _ => h2) h.type_le
  · exact key (P := fun k n => k < _ → SelfOk _ n.parent) (fun _ => hp) h.parent_ok
  · exact key (P := fun k n => k = 0 → n.type ≠ 0) (fun _ => h0) (fun k e => e ▸ h.root_occupied)
      0 rfl
  · exact key (P := fun k n => k < _ → n.indirect1 = 0 ∧ n.indirect2 = 0 ∧ n.indirect3 = 0)
      (h.indirect i) h.indirect
  · exact key (P := fun k n => s.sb.totalInodes ≤ k → n = Inode.zero)
      (fun hle => absurd hi (by omega)) h.spare

theorem QueueOk.claim (h : QueueOk s) (h0 : type ≠ 0) : QueueOk (claimed s i type parent) where
  nodup := h.nodup.erase i
  lt k hk := h.lt k (List.mem_of_mem_erase hk)
  free_mem k hk hfree := by
    by_cases hki : k = i
    · subst hki
      rw [claimed_inodes_self] at hfree
      exact absurd hfree h0
    · rw [claimed_inodes_of_ne hki] at hfree
      exact (List.mem_erase_of_ne hki).2 (h.free_mem k hk hfree)

end Claim

/-! ### Committing an inode -/

section Commit

variable {s t : Instance} {i : ℕ}

/-- The bytes of a slot are those of an inode, as soon as its record and the rest of the slot
are. -/
theorem slice_slot {f : File} {a bs : ℕ} {n : Inode} (hbs : sizeofInode ≤ bs)
    (hrec : f.slice a sizeofInode = n.encode)
    (hslack : ∀ k, sizeofInode ≤ k → k < bs → f.byte (a + k) = 0) :
    f.slice a bs = pad bs n.encode := by
  have hlen : (pad bs n.encode).length = bs := by simp [pad]; omega
  have key : f.slice a (pad bs n.encode).length = pad bs n.encode := by
    apply File.slice_eq_of_getD
    intro k hk
    by_cases hlt : k < sizeofInode
    · rw [pad, List.getD_append _ _ _ _ (by simpa using hlt), ← hrec, File.slice_getD _ _ _ hlt]
    · rw [hslack k (by omega) (by omega), pad, List.getD_append_right _ _ _ _ (by simp; omega),
        List.getD_eq_getElem _ _ (by simp; omega), List.getElem_replicate]
  rwa [hlen] at key

theorem slack_of_slice {f : File} {a bs : ℕ} {n : Inode}
    (h : f.slice a bs = pad bs n.encode) {k : ℕ} (hk : sizeofInode ≤ k) (hk' : k < bs) :
    f.byte (a + k) = 0 := by
  rw [← File.slice_getD f a bs hk', h, pad, List.getD_append_right _ _ _ _ (by simpa using hk),
    List.getD_eq_getElem _ _ (by simp; omega), List.getElem_replicate]

/-- The inodes of a table can stand in their slots. -/
theorem TableOk.slotInode (h : TableOk s) (hb : ∀ j, (s.inodes i).dataBlocks j <
    s.sb.totalDataBlocks) (h0 : i ≠ 0) (hi : i < s.sb.totalInodes) :
    SlotInode s.sb i (s.inodes i) :=
  ⟨h.type_le i hi, h.parent_ok i hi, h.selfOk hi, fun _ => h.self_eq i h0 hi, hb, h.indirect i hi⟩

/-- The slots are kept when one inode is committed, and nothing else is written before the data
blocks. -/
theorem SlotsOk.of_commit (h : SlotsOk s) (hf : Formatted s.sb) (hsb : t.sb = s.sb)
    (hi : i < s.sb.totalInodes) (hself : (t.inodes i).self = if i = 0 then rootSelf else i)
    (hslot : i ≠ 0 → SlotInode s.sb i (t.inodes i)) (h70 : sizeofSuperBlock ≤ s.drive.size)
    (hsize : s.drive.size ≤ t.drive.size)
    (hrec : t.drive.slice (s.sb.inodeAddr (t.inodes i).self) sizeofInode = (t.inodes i).encode)
    (hkeep : ∀ p < s.sb.blockAddr 0, p < s.sb.inodeAddr (t.inodes i).self ∨
      s.sb.inodeAddr (t.inodes i).self + sizeofInode ≤ p → t.drive.byte p = s.drive.byte p) :
    SlotsOk t := by
  have hsz := hf.sizeofInode_lt
  have hblock : ∀ k < s.sb.totalInodes, s.sb.inodeAddr k + s.sb.blockSize ≤ s.sb.blockAddr 0 :=
    fun k hk => hf.slot_lt_block (Or.inl hk) hf.totalDataBlocks_pos
  have hselfOk : SelfOk s.sb (t.inodes i).self := by
    rw [hself]
    split_ifs
    · exact Or.inr rfl
    · exact Or.inl hi
  -- the slots do not overlap, and they lie before the data blocks
  have hother : ∀ k < s.sb.totalInodes, (t.inodes i).self ≠ k →
      t.drive.slice (s.sb.inodeAddr k) s.sb.blockSize =
        s.drive.slice (s.sb.inodeAddr k) s.sb.blockSize := by
    intro k hk hne
    have hdis := hf.slot_disjoint hk hselfOk hne
    have := hblock k hk
    exact File.slice_congr fun b hb => hkeep _ (by omega) (by omega)
  -- the root is written through `ROOT_SELF`, so slot 0 is never written
  have hroot : (t.inodes i).self ≠ 0 := by
    rw [hself]
    split_ifs with h0
    · simp [rootSelf]
    · exact h0
  constructor
  · have haddr : 80 ≤ s.sb.inodeAddr (t.inodes i).self := by
      rcases hselfOk with hlt | hr
      · rw [hf.inodeAddr hlt]; omega
      · rw [hr, hf.inodeAddr_root]
    have h70' : sizeofSuperBlock = 70 := rfl
    have hread : t.drive.slice 0 sizeofSuperBlock = s.drive.slice 0 sizeofSuperBlock := by
      have := hblock 0 (by have := hf.totalInodes; omega)
      have h0 := hf.inodeAddr (i := 0) (by have := hf.totalInodes; omega)
      exact File.slice_congr fun k hk => hkeep _ (by omega) (by omega)
    rw [hsb, ← h.superblock, readSuperblock, readSuperblock, File.fread_of_le _ _ _ (by omega),
      File.fread_of_le _ _ _ (by omega), hread]
  · have h10 := hf.totalInodes
    rw [hsb, hother 0 (by omega) hroot, h.root]
  · intro k h0 hk
    rw [hsb] at hk ⊢
    by_cases hki : (t.inodes i).self = k
    · have hik : i = k := by
        rw [hself] at hki
        split_ifs at hki with hi0
        · have := hf.totalInodes_lt_rootSelf
          omega
        · exact hki
      subst hik
      obtain ⟨n, -, hn⟩ := h.slot i h0 hk
      -- the rest of the slot is still zero, as it was behind the old inode
      refine ⟨t.inodes i, hslot h0, slice_slot hsz.le (by rwa [hki] at hrec) fun b hb hb' => ?_⟩
      have := hblock i hi
      rw [hkeep _ (by omega) (by rw [hki]; omega)]
      exact slack_of_slice hn hb hb'
    · rw [hother k hk hki]
      exact h.slot k h0 hk

theorem TableOk.of_dataBlocks (h : TableOk s) (hi : i < s.sb.totalInodes) {d : Fin 10 → ℕ}
    (hsb : t.sb = s.sb)
    (heq : t.inodes = Function.update s.inodes i { s.inodes i with dataBlocks := d }) :
    TableOk t := by
  have hfields : ∀ k, (t.inodes k).type = (s.inodes k).type ∧
      (t.inodes k).parent = (s.inodes k).parent ∧ (t.inodes k).self = (s.inodes k).self ∧
      (t.inodes k).indirect1 = (s.inodes k).indirect1 ∧
      (t.inodes k).indirect2 = (s.inodes k).indirect2 ∧
      (t.inodes k).indirect3 = (s.inodes k).indirect3 := by
    intro k
    rw [heq]
    by_cases hk : k = i
    · subst hk
      rw [Function.update_self]
      exact ⟨rfl, rfl, rfl, rfl, rfl, rfl⟩
    · rw [Function.update_of_ne hk]
      exact ⟨rfl, rfl, rfl, rfl, rfl, rfl⟩
  constructor
  · rw [(hfields 0).2.2.1]; exact h.root_self
  · intro k h0 hk
    rw [(hfields k).2.2.1]
    exact h.self_eq k h0 (hsb ▸ hk)
  · intro k hk
    rw [(hfields k).1]
    exact h.type_le k (hsb ▸ hk)
  · intro k hk
    rw [(hfields k).2.1, hsb]
    exact h.parent_ok k (hsb ▸ hk)
  · rw [(hfields 0).1]; exact h.root_occupied
  · intro k hk
    obtain ⟨-, -, -, h1, h2, h3⟩ := hfields k
    rw [h1, h2, h3]
    exact h.indirect k (hsb ▸ hk)
  · intro k hk
    rw [hsb] at hk
    rw [heq, Function.update_of_ne (by omega)]
    exact h.spare k hk

theorem QueueOk.of_type (h : QueueOk s) (hsb : t.sb = s.sb)
    (hqueue : t.inodesSorted = s.inodesSorted)
    (htype : ∀ k, (t.inodes k).type = (s.inodes k).type) : QueueOk t where
  nodup := by rw [hqueue]; exact h.nodup
  lt := by rw [hqueue, hsb]; exact h.lt
  free_mem := by
    intro k hk hfree
    rw [htype] at hfree
    rw [hqueue]
    exact h.free_mem k (hsb ▸ hk) hfree

/-- The superblock lies inside of the drive. -/
theorem Inv.superblock_le (h : Inv s) : sizeofSuperBlock ≤ s.drive.size := by
  have hcov := h.owned.covered 0 0 h.table.root_holds
  have haddr := h.formatted.blockAddr h.formatted.totalDataBlocks_pos
  have h70 : sizeofSuperBlock = 70 := rfl
  omega

/-- The `self` fields once more. -/
theorem TableOk.self_ite (h : TableOk s) (hi : i < s.sb.totalInodes) :
    (s.inodes i).self = if i = 0 then rootSelf else i := by
  split_ifs with h0
  · exact h0 ▸ h.root_self
  · exact h.self_eq i h0 hi

theorem writeInode_byte {p : ℕ} (hp : p < s.sb.inodeAddr (s.inodes i).self ∨
    s.sb.inodeAddr (s.inodes i).self + sizeofInode ≤ p) :
    (s.writeInode i).drive.byte p = s.drive.byte p :=
  File.byte_fwrite_of_not_mem _ _ _ (by simpa using hp)

theorem writeInode_size : s.drive.size ≤ (s.writeInode i).drive.size :=
  File.fseek_fwrite_size_ge _ _ _

theorem writeInode_slot : (s.writeInode i).drive.slice (s.sb.inodeAddr (s.inodes i).self)
    sizeofInode = (s.inodes i).encode := by
  have := File.slice_fwrite_self (s.drive.fseek (s.sb.inodeAddr (s.inodes i).self))
    (s.inodes i).encode
  rwa [encode_length] at this

theorem Inv.getDirEntry_writeInode (h : Inv s) (hi : i < s.sb.totalInodes) (g : ℕ) :
    (s.writeInode i).getDirEntry g = s.getDirEntry g := by
  refine getDirEntry_congr rfl rfl rfl fun j hj => ?_
  have hheld := h.owned.holds_of_listed h.table h.formatted hj
  have hcov := h.owned.covered g _ hheld
  have hslot := h.formatted.slot_lt_block (h.table.selfOk hi)
    (h.owned.lt_of_holds h.formatted hheld)
  have hsz := h.formatted.sizeofInode_lt
  rw [File.fread_of_le _ _ _ hcov, File.fread_of_le _ _ _ (hcov.trans writeInode_size)]
  exact File.slice_congr fun k _ => writeInode_byte (by omega)

/-- `write_inode` keeps the invariant. -/
theorem Inv.commit (h : Inv s) (hi : i < s.sb.totalInodes) : Inv (s.writeInode i) where
  formatted := h.formatted
  table := h.table.of_dataBlocks hi rfl (Function.update_eq_self i s.inodes).symm
  owned :=
    { partitioned := h.owned.partitioned
      distinct := h.owned.distinct
      bounded := h.owned.bounded
      root_first := h.owned.root_first
      covered := fun k b hb => (h.owned.covered k b hb).trans writeInode_size }
  listings := fun k hk dir hdir =>
    h.listings k hk dir (by rwa [h.getDirEntry_writeInode hi] at hdir)
  queue := h.queue.of_type rfl rfl fun _ => rfl
  slots := h.slots.of_commit h.formatted rfl hi (h.table.self_ite hi)
    (fun h0 => h.table.slotInode (h.owned.bounded i) h0 hi) h.superblock_le writeInode_size
    writeInode_slot fun _ _ hp => writeInode_byte hp
  cwd_lt := h.cwd_lt

end Commit

/-! ### Rewriting an inode -/

section Write

variable {s : Instance} {i : ℕ} {data : List Byte} (h : Inv s) (hi : i < s.sb.totalInodes)
  (hlen : (blocksOf s i data).length ≤ 10)
include h hi hlen

omit hi in
theorem Inv.holds_written {b : ℕ} :
    ((written s i data).inodes i).Holds b ↔ b ∈ blocksOf s i data := by
  rw [Inode.Holds, written_self, written_inodes_self]
  constructor
  · rintro (⟨hroot, rfl⟩ | ⟨hb, j, hj⟩)
    · obtain ⟨rest, heq, -⟩ := blocksOf_root data h.formatted hroot
      rw [heq]
      exact List.mem_cons_self
    · have hj : (blocksOf s i data).getD j.val 0 = b := hj
      by_cases hlt : j.val < (blocksOf s i data).length
      · rw [List.getD_eq_getElem _ _ hlt] at hj
        exact hj ▸ List.getElem_mem _
      · exact absurd (hj.symm.trans (List.getD_eq_default _ _ (by omega))) hb
  · intro hb
    by_cases h0 : b = 0
    · subst h0
      refine Or.inl ⟨by_contra fun hroot => ?_, rfl⟩
      exact zero_not_mem_blocksOf data hroot (h.owned.bit_zero h.table) hb
    · obtain ⟨m, hm, rfl⟩ := List.getElem_of_mem hb
      exact Or.inr ⟨h0, ⟨m, by omega⟩, List.getD_eq_getElem _ _ hm⟩

theorem Inv.owned_written : OwnedOk (written s i data) where
  partitioned := by
    -- a block that was marked and is handed out all the same is one that the inode has released
    have hnew : ∀ b ∈ blocksOf s i data, s.dataBitmap b = true → (s.inodes i).Holds b := by
      intro b hb hused
      by_contra hnot
      have := release_eq_true.2 ⟨hused, hnot⟩
      rw [not_release_of_mem_blocksOf hb] at this
      exact Bool.noConfusion this
    have hholds : (fun k => {b | ((written s i data).inodes k).Holds b}) =
        Function.update (fun k => {b | (s.inodes k).Holds b}) i {b | b ∈ blocksOf s i data} := by
      funext k
      by_cases hk : k = i
      · subst hk
        rw [Function.update_self]
        exact Set.ext fun b => h.holds_written hlen
      · rw [Function.update_of_ne hk, written_inodes_of_ne hk]
    have hused : {b | (written s i data).dataBitmap b = true} =
        {b | s.dataBitmap b = true} \ {b | (s.inodes i).Holds b} ∪ {b | b ∈ blocksOf s i data} := by
      ext b
      simp only [written_dataBitmap, mark, Set.mem_ofPred_eq, Set.mem_union, Set.mem_sdiff,
        Bool.or_eq_true, decide_eq_true_eq, release_eq_true]
    rw [hholds, hused]
    exact h.owned.partitioned.reassign i hnew
  distinct k j j' heq hne := by
    by_cases hk : k = i
    · subst hk
      have hget : ∀ j : Fin 10, ((written s k data).inodes k).dataBlocks j =
          (blocksOf s k data).getD j.val 0 := fun j => by rw [written_inodes_self]; rfl
      rw [hget] at hne
      rw [hget, hget] at heq
      have hlt : ∀ m, (blocksOf s k data).getD m 0 ≠ 0 → m < (blocksOf s k data).length :=
        fun m hm => by_contra fun hge => hm (List.getD_eq_default _ _ (by omega))
      have hj := hlt _ hne
      have hj' := hlt _ (heq ▸ hne)
      rw [List.getD_eq_getElem _ _ hj, List.getD_eq_getElem _ _ hj'] at heq
      exact Fin.ext ((List.Nodup.getElem_inj_iff blocksOf_nodup).1 heq)
    · rw [written_inodes_of_ne hk] at heq hne
      exact h.owned.distinct k j j' heq hne
  bounded k j := by
    by_cases hk : k = i
    · subst hk
      rw [written_inodes_self]
      show (blocksOf s k data).getD j.val 0 < s.sb.totalDataBlocks
      by_cases hlt : j.val < (blocksOf s k data).length
      · rw [List.getD_eq_getElem _ _ hlt]
        exact mem_blocksOf_lt (List.getElem_mem hlt)
      · rw [List.getD_eq_default _ _ (by omega)]
        exact h.formatted.totalDataBlocks_pos
    · rw [written_inodes_of_ne hk]
      exact h.owned.bounded k j
  root_first := by
    by_cases hk : 0 = i
    · subst hk
      obtain ⟨rest, heq, -⟩ := blocksOf_root data h.formatted h.table.root_self
      rw [written_inodes_self]
      show (blocksOf s 0 data).getD 0 0 = 0
      rw [heq]
      rfl
    · rw [written_inodes_of_ne hk]
      exact h.owned.root_first
  covered k b hb := by
    by_cases hk : k = i
    · subst hk
      exact written_covers h.formatted.blockSize_pos ((h.holds_written hlen).1 hb)
    · rw [written_inodes_of_ne hk] at hb
      exact (h.owned.covered k b hb).trans (written_size_ge _ _ _ h.formatted.blockSize_pos)

omit hlen in
/-- The listing of another inode is kept. -/
theorem Inv.getDirEntry_written_of_ne {g : ℕ} (hg : g ≠ i) :
    (written s i data).getDirEntry g = s.getDirEntry g := by
  refine MufaFs.getDirEntry_written_of_ne h.formatted (h.table.selfOk hi) hg fun j hj => ?_
  have hheld := h.owned.holds_of_listed h.table h.formatted hj
  exact ⟨h.owned.bounded g j,
    fun hb => h.owned.not_holds_of_mem_blocksOf hb hg hheld, h.owned.covered g _ hheld⟩

theorem Inv.getDirEntry_written : (written s i data).getDirEntry i =
    parseChunks s.sb.blockSize (blocksOf s i data).length data :=
  MufaFs.getDirEntry_written h.formatted (h.table.selfOk hi) (h.owned.bit_zero h.table) hlen

theorem Inv.listings_written (hdata : Content s.sb data) : ListingsOk (written s i data) := by
  intro g hg dir hdir
  by_cases hgi : g = i
  · subst hgi
    rw [h.getDirEntry_written hi hlen] at hdir
    exact hdata.goodDir h.formatted hdir
  · rw [h.getDirEntry_written_of_ne hi hgi] at hdir
    exact h.listings g hg dir hdir

/-- **`write_file` keeps the invariant.** -/
theorem Inv.write (hdata : Content s.sb data) : Inv (written s i data) where
  formatted := h.formatted
  table := h.table.of_dataBlocks hi rfl rfl
  owned := h.owned_written hi hlen
  listings := h.listings_written hi hlen hdata
  queue := h.queue.of_type rfl rfl fun k => written_type k
  slots := by
    have howned := h.owned_written hi hlen
    have htable : TableOk (written s i data) := h.table.of_dataBlocks hi rfl rfl
    refine h.slots.of_commit h.formatted rfl hi (htable.self_ite hi)
      (fun h0 => htable.slotInode (howned.bounded i) h0 hi) h.superblock_le
      (written_size_ge _ _ _ h.formatted.blockSize_pos) ?_ fun p hp hslot => ?_
    · rw [written_self]
      exact written_slot
    · rw [written_self] at hslot
      exact written_byte_head h.formatted hp hslot
  cwd_lt := h.cwd_lt

omit hi hlen in
theorem Inv.writeFile_eq : s.writeFile i data =
    if (blocksOf s i data).length ≤ 10 then some (written s i data) else none :=
  MufaFs.writeFile_eq h.formatted.blockSize_pos h.formatted.totalDataBlocks_pos (h.owned.bounded i)

omit hi hlen in
/-- A call of `write_file` that completes. -/
theorem Inv.writeFile_eq_some {t : Instance} (ht : s.writeFile i data = some t) :
    (blocksOf s i data).length ≤ 10 ∧ t = written s i data := by
  rw [h.writeFile_eq] at ht
  split_ifs at ht with hlen
  exact ⟨hlen, (Option.some.inj ht).symm⟩

omit hi hlen in
/-- A call of `write_file` with at most ten blocks of data completes. -/
theorem Inv.writeFile_of_length (hdata : data.length ≤ 10 * s.sb.blockSize) :
    s.writeFile i data = some (written s i data) := by
  rw [h.writeFile_eq, if_pos (blocksOf_length_le h.formatted.blockSize_pos hdata)]

end Write

/-! ### Releasing an inode -/

section Purge

variable {s : Instance} {i : ℕ}

/-- The state after `purge_file_contents`. -/
def purged (s : Instance) (i : ℕ) : Instance :=
  { s.setInode i { s.inodes i with dataBlocks := fun _ => 0 } with
    dataBitmap := release (s.inodes i) s.dataBitmap }

theorem purged_inodes_self :
    (purged s i).inodes i = { s.inodes i with dataBlocks := fun _ => 0 } :=
  Function.update_self _ _ _

theorem purged_inodes_of_ne {k : ℕ} (hk : k ≠ i) : (purged s i).inodes k = s.inodes k :=
  Function.update_of_ne hk _ _

theorem purged_type (k : ℕ) : ((purged s i).inodes k).type = (s.inodes k).type := by
  by_cases hk : k = i
  · subst hk; rw [purged_inodes_self]
  · rw [purged_inodes_of_ne hk]

/-- An inode without blocks lists nothing, unless it is the root. -/
theorem TableOk.getDirEntry_of_no_blocks (h : TableOk s) (hf : Formatted s.sb) (h0 : i ≠ 0)
    (hb : ∀ j, (s.inodes i).dataBlocks j = 0) : s.getDirEntry i = some [] := by
  have hnot : ∀ j, ¬Listed (s.inodes i) j := by
    rintro j (hj | ⟨hroot, -⟩)
    · exact hj (hb j)
    · exact h.self_ne_rootSelf hf h0 hroot
  rw [getDirEntry]
  induction List.finRange 10 with
  | nil => rfl
  | cons j js ih => rw [gatherEntries, ih, blockEntries_of_not_listed (hnot j)]; rfl

variable (h : Inv s)
include h

theorem Inv.purgeFileContents_eq (i : ℕ) : s.purgeFileContents i = some (purged s i) :=
  MufaFs.purgeFileContents_eq h.formatted.totalDataBlocks_pos (h.owned.bounded i)

variable (h0 : i ≠ 0)
include h0

/-- An inode without blocks holds none, unless it is the root. -/
theorem Inv.not_holds_purged {b : ℕ} : ¬((purged s i).inodes i).Holds b := by
  rw [purged_inodes_self]
  rintro (⟨hroot, -⟩ | ⟨hb, j, hj⟩)
  · exact h.table.self_ne_rootSelf h.formatted h0 hroot
  · exact hb hj.symm

theorem Inv.owned_purged : OwnedOk (purged s i) where
  partitioned := by
    have hholds : (fun k => {b | ((purged s i).inodes k).Holds b}) =
        Function.update (fun k => {b | (s.inodes k).Holds b}) i ∅ := by
      funext k
      by_cases hk : k = i
      · subst hk
        rw [Function.update_self]
        exact Set.eq_empty_iff_forall_notMem.2 fun b => h.not_holds_purged h0
      · rw [Function.update_of_ne hk, purged_inodes_of_ne hk]
    have hused : {b | (purged s i).dataBitmap b = true} =
        {b | s.dataBitmap b = true} \ {b | (s.inodes i).Holds b} :=
      Set.ext fun b => release_eq_true
    rw [hholds, hused]
    exact h.owned.partitioned.release i
  distinct k j j' heq hne := by
    by_cases hk : k = i
    · subst hk
      rw [purged_inodes_self] at hne
      exact absurd rfl hne
    · rw [purged_inodes_of_ne hk] at heq hne
      exact h.owned.distinct k j j' heq hne
  bounded k j := by
    by_cases hk : k = i
    · subst hk
      rw [purged_inodes_self]
      exact h.formatted.totalDataBlocks_pos
    · rw [purged_inodes_of_ne hk]
      exact h.owned.bounded k j
  root_first := by
    rw [purged_inodes_of_ne h0.symm]
    exact h.owned.root_first
  covered k b hb := by
    by_cases hk : k = i
    · subst hk
      exact absurd hb (h.not_holds_purged h0)
    · rw [purged_inodes_of_ne hk] at hb
      exact h.owned.covered k b hb

omit h h0 in
theorem getDirEntry_purged_of_ne {g : ℕ} (hg : g ≠ i) :
    (purged s i).getDirEntry g = s.getDirEntry g :=
  getDirEntry_congr rfl (by rw [purged_inodes_of_ne hg]) (by rw [purged_inodes_of_ne hg])
    fun _ _ => rfl

/-- `purge_file_contents` of an inode other than the root keeps the invariant. -/
theorem Inv.purge (hi : i < s.sb.totalInodes) : Inv (purged s i) where
  formatted := h.formatted
  table := h.table.of_dataBlocks hi rfl rfl
  owned := h.owned_purged h0
  listings := by
    intro g hg dir hdir
    by_cases hgi : g = i
    · subst hgi
      have htable : TableOk (purged s g) := h.table.of_dataBlocks hi rfl rfl
      rw [htable.getDirEntry_of_no_blocks h.formatted h0
        (fun j => by rw [purged_inodes_self])] at hdir
      cases hdir
      exact GoodDir.nil h.formatted.blockSize_pos
    · rw [getDirEntry_purged_of_ne hgi] at hdir
      exact h.listings g hg dir hdir
  queue := h.queue.of_type rfl rfl fun k => purged_type k
  slots := ⟨h.slots.superblock, h.slots.root, h.slots.slot⟩
  cwd_lt := h.cwd_lt

end Purge

/-! ### All steps -/

section Steps

variable {s t : Instance}

theorem Inv.claim (h : Inv s) {i type parent : ℕ} (hi : i < s.sb.totalInodes) (h0 : type ≠ 0)
    (h2 : type ≤ 2) (hp : SelfOk s.sb parent) : Inv (claimed s i type parent) where
  formatted := h.formatted
  table := h.table.claim hi h0 h2 hp
  owned := h.owned.of_sameBlocks sameBlocks_claimed
  listings := h.listings.of_sameBlocks sameBlocks_claimed
  queue := h.queue.claim h0
  slots := h.slots.of_sameBlocks sameBlocks_claimed
  cwd_lt := h.cwd_lt

/-- The queue and the shell can change without the blocks and the inodes. -/
theorem Inv.of_inodes (h : Inv s) (hsame : SameBlocks s t) (hinodes : t.inodes = s.inodes)
    (hqueue : QueueOk t) (hcwd : t.cwdNode < s.sb.totalInodes) : Inv t where
  formatted := hsame.sb ▸ h.formatted
  table := h.table.of_dataBlocks hcwd hsame.sb
    (hinodes.trans (Function.update_eq_self t.cwdNode s.inodes).symm)
  owned := h.owned.of_sameBlocks hsame
  listings := h.listings.of_sameBlocks hsame
  queue := hqueue
  slots := h.slots.of_sameBlocks hsame
  cwd_lt := hsame.sb ▸ hcwd

theorem Inv.push (h : Inv s) {i : ℕ} (hi : i < s.sb.totalInodes)
    (hq : i ∉ s.inodesSorted) : Inv (s.pushSorted i) :=
  h.of_inodes ⟨rfl, rfl, rfl, fun _ => rfl, fun _ => rfl⟩ rfl
    { nodup := List.nodup_cons.2 ⟨hq, h.queue.nodup⟩
      lt := fun k hk => (List.mem_cons.1 hk).elim (fun e => e ▸ hi) (h.queue.lt k)
      free_mem := fun k hk hfree => List.mem_cons_of_mem _ (h.queue.free_mem k hk hfree) }
    h.cwd_lt

@[simp] theorem pushSorted_inodes (i : ℕ) : (s.pushSorted i).inodes = s.inodes := rfl

@[simp] theorem getDirEntry_pushSorted (i q : ℕ) :
    (s.pushSorted i).getDirEntry q = s.getDirEntry q :=
  getDirEntry_congr rfl rfl rfl fun _ _ => rfl

theorem getDirEntry_shell (c : ℕ) (cwd : List Entry) (stderr : List Diagnostic) (q : ℕ) :
    { s with cwdNode := c, cwd, stderr }.getDirEntry q = s.getDirEntry q :=
  getDirEntry_congr rfl rfl rfl fun _ _ => rfl

@[simp] theorem getDirEntry_report (d : Diagnostic) (q : ℕ) :
    (s.report d).getDirEntry q = s.getDirEntry q := getDirEntry_shell _ _ _ q

/-- The invariant does not look at the listing kept for the shell, nor at what was printed. -/
theorem Inv.of_shell (h : Inv s) {c : ℕ} (hc : c < s.sb.totalInodes) (cwd : List Entry)
    (stderr : List Diagnostic) : Inv { s with cwdNode := c, cwd, stderr } :=
  h.of_inodes ⟨rfl, rfl, rfl, fun _ => rfl, fun _ => rfl⟩ rfl
    (h.queue.of_type rfl rfl fun _ => rfl) hc

theorem cdNode_eq_some {i : ℕ} (h : s.cdNode i = some t) :
    ∃ cwd, s.getDirEntry i = some cwd ∧ t = { s with cwdNode := i, cwd } := by
  obtain ⟨cwd, hcwd, h⟩ := Option.bind_eq_some_iff.1 h
  exact ⟨cwd, hcwd, (Option.some.inj h).symm⟩

/-- Rewriting keeps the invariant. -/
theorem Inv.rewrite (h : Inv s) (hr : Rewrite s t) : Inv t := by
  cases hr with
  | write hi hdata ht =>
    obtain ⟨hlen, rfl⟩ := h.writeFile_eq_some ht
    exact h.write hi hlen hdata
  | purge h0 hi ht =>
    rw [h.purgeFileContents_eq] at ht
    cases ht
    exact h.purge h0 hi

/-- **Every step keeps the invariant.** -/
theorem Inv.micro (h : Inv s) (hm : Micro s t) : Inv t := by
  cases hm with
  | @claimDir _ i p hfind hp =>
    rw [claimDir_eq hfind]
    refine h.claim (h.queue.lt i (findInode_eq_some hfind).1) (by norm_num) le_rfl ?_
    split_ifs with hroot
    · exact Or.inl (by have := h.formatted.totalInodes; omega)
    · exact h.table.selfOk hp
  | @claimFile _ i p hfind hp =>
    rw [claimFile_eq hfind]
    exact h.claim (h.queue.lt i (findInode_eq_some hfind).1) (by norm_num) (by norm_num)
      (h.table.selfOk hp)
  | rewrite hr => exact h.rewrite hr
  | commit hi => exact h.commit hi
  | push hi hq => exact h.push hi hq
  | enter hi ht =>
    obtain ⟨cwd, -, rfl⟩ := cdNode_eq_some ht
    exact h.of_shell hi cwd _
  | report d => exact h.of_shell h.cwd_lt s.cwd _

/-- The superblock in memory never changes. -/
theorem Micro.sb (h : Inv s) (hm : Micro s t) : t.sb = s.sb := by
  cases hm with
  | claimDir hfind => rw [claimDir_eq hfind]; rfl
  | claimFile hfind => rw [claimFile_eq hfind]; rfl
  | rewrite hr =>
    cases hr with
    | write _ _ ht => obtain ⟨-, rfl⟩ := h.writeFile_eq_some ht; rfl
    | purge _ _ ht => rw [h.purgeFileContents_eq] at ht; cases ht; rfl
  | commit _ => rfl
  | push _ _ => rfl
  | enter _ ht => obtain ⟨_, -, rfl⟩ := cdNode_eq_some ht; rfl
  | report d => rfl

/-- Every sequence of steps keeps the invariant. -/
theorem Inv.star (h : Inv s) (hm : Relation.ReflTransGen Micro s t) : Inv t :=
  Runs.invariant_of_star (fun _ _ hs hm => hs.micro hm) h hm

theorem Inv.star_sb (h : Inv s) (hm : Relation.ReflTransGen Micro s t) : t.sb = s.sb :=
  (Runs.invariant_of_star (P := fun u => Inv u ∧ u.sb = s.sb)
    (fun _ _ hu hm => ⟨hu.1.micro hm, (hm.sb hu.1).trans hu.2⟩) ⟨h, rfl⟩ hm).2

/-- Rewriting is a sequence of steps. -/
theorem star_of_rewrites (hr : Relation.ReflTransGen Rewrite s t) :
    Relation.ReflTransGen Micro s t :=
  Relation.ReflTransGen.mono (fun _ _ => Micro.rewrite) s t hr

end Steps

end MufaFs
