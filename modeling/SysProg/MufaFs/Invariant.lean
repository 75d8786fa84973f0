import SysProg.MufaFs.WriteFile

/-!
# The invariant of a mounted volume

What holds of the in-memory state and of the drive at every moment of a session, between commands
and inside of them.

* `TableOk`: the `self` fields are the indices, the root excepted, and the fields are in range;
* `OwnedOk`: the bitmap is the exact allocation map of the blocks in the inodes;
* `ListingsOk`: whatever a directory lists are inodes other than the root, in less than a block;
* `QueueOk`: the unoccupied inodes are queued;
* `SlotsOk`: the superblock and the inode slots on the drive.

Each of them is kept by `write_file` (`TableOk.written`, ...) and by `purge_file_contents`
(`TableOk.purged`, ...).
-/

namespace MufaFs

open ByteFile FirstFit Instance

/-! ### The parts of the invariant -/

/-- The blocks that an inode holds. Block `0` is held by the root, to everybody else it means that
there is no block. -/
def Inode.Holds (n : Inode) (b : ℕ) : Prop :=
  (n.self = rootSelf ∧ b = 0) ∨ (b ≠ 0 ∧ ∃ j, n.dataBlocks j = b)

/-- An index that a directory may list. `ROOT_SELF` is what a directory lists after the root was
handed out as a free inode; it is no index into the vector of inodes. -/
def IndexOk (sb : SuperBlock) (i : ℕ) : Prop := (1 ≤ i ∧ i < sb.totalInodes) ∨ i = rootSelf

/-- A listing that can be stored and read back. -/
structure GoodDir (sb : SuperBlock) (dir : List Entry) : Prop where
  short : (encodeDir dir).length < sb.blockSize
  entryOk : ∀ v ∈ dir, EntryOk v
  indexOk : ∀ v ∈ dir, IndexOk sb v.2

/-- What operations write to inodes: arguments of the shell, listings, and listings with one more
entry. -/
inductive Content (sb : SuperBlock) : List Byte → Prop
  | raw {data : List Byte} : IsArg data → Content sb data
  | dir {dir : List Entry} : GoodDir sb dir → Content sb (encodeDir dir)
  | insert {dir : List Entry} {name : List Byte} {i : ℕ} :
      GoodDir sb dir → IsArg name → IndexOk sb i → Content sb (encodeDir (dir ++ [(name, i)]))

/-- The fields of the inodes, apart from the data blocks. -/
structure TableOk (s : Instance) : Prop where
  root_self : (s.inodes 0).self = rootSelf
  self_eq : ∀ i, i ≠ 0 → i < s.sb.totalInodes → (s.inodes i).self = i
  type_le : ∀ i < s.sb.totalInodes, (s.inodes i).type ≤ 2
  parent_ok : ∀ i < s.sb.totalInodes, SelfOk s.sb (s.inodes i).parent
  root_occupied : (s.inodes 0).type ≠ 0
  indirect : ∀ i < s.sb.totalInodes,
    (s.inodes i).indirect1 = 0 ∧ (s.inodes i).indirect2 = 0 ∧ (s.inodes i).indirect3 = 0
  spare : ∀ i, s.sb.totalInodes ≤ i → s.inodes i = Inode.zero

/-- The allocation of data blocks. -/
structure OwnedOk (s : Instance) : Prop where
  partitioned : Partitioned (fun i => {b | (s.inodes i).Holds b}) {b | s.dataBitmap b = true}
  distinct : ∀ i j k, (s.inodes i).dataBlocks j = (s.inodes i).dataBlocks k →
    (s.inodes i).dataBlocks j ≠ 0 → j = k
  bounded : ∀ i j, (s.inodes i).dataBlocks j < s.sb.totalDataBlocks
  root_first : (s.inodes 0).dataBlocks 0 = 0
  covered : ∀ i b, (s.inodes i).Holds b →
    s.sb.blockAddr b + s.sb.blockSize ≤ s.drive.size

/-- Whatever can be read of a directory is a good listing. -/
def ListingsOk (s : Instance) : Prop :=
  ∀ i < s.sb.totalInodes, ∀ dir, s.getDirEntry i = some dir → GoodDir s.sb dir

/-- The queue holds every unoccupied inode, and nothing twice. -/
structure QueueOk (s : Instance) : Prop where
  nodup : s.inodesSorted.Nodup
  lt : ∀ i ∈ s.inodesSorted, i < s.sb.totalInodes
  free_mem : ∀ i < s.sb.totalInodes, (s.inodes i).type = 0 → i ∈ s.inodesSorted

/-- An inode that may stand in slot `i`. -/
structure SlotInode (sb : SuperBlock) (i : ℕ) (n : Inode) : Prop where
  type_le : n.type ≤ 2
  parent_ok : SelfOk sb n.parent
  self_ok : SelfOk sb n.self
  self_eq : n.type ≠ 0 → n.self = i
  bounded : ∀ j, n.dataBlocks j < sb.totalDataBlocks
  indirect : n.indirect1 = 0 ∧ n.indirect2 = 0 ∧ n.indirect3 = 0

/-- The superblock and the slots on the drive. Slot `0` keeps the root as it was made. -/
structure SlotsOk (s : Instance) : Prop where
  superblock : readSuperblock s.drive = s.sb
  root : s.drive.slice (s.sb.inodeAddr 0) s.sb.blockSize = pad s.sb.blockSize rootInode.encode
  slot : ∀ i, i ≠ 0 → i < s.sb.totalInodes → ∃ n, SlotInode s.sb i n ∧
    s.drive.slice (s.sb.inodeAddr i) s.sb.blockSize = pad s.sb.blockSize n.encode

/-- The invariant. -/
structure Inv (s : Instance) : Prop where
  formatted : Formatted s.sb
  table : TableOk s
  owned : OwnedOk s
  listings : ListingsOk s
  queue : QueueOk s
  slots : SlotsOk s
  cwd_lt : s.cwdNode < s.sb.totalInodes

/-! ### What may be listed -/

section Content

variable {sb : SuperBlock} {dir : List Entry} {data : List Byte} {k : ℕ}

theorem GoodDir.nil (h : 0 < sb.blockSize) : GoodDir sb [] :=
  ⟨by simpa using h, by simp, by simp⟩

theorem encodeDir_length_le_of_sublist {a b : List Entry} (h : a.Sublist b) :
    (encodeDir a).length ≤ (encodeDir b).length := by
  induction h with
  | slnil => rfl
  | cons v _ ih => simp only [encodeDir, List.flatMap_cons, List.length_append] at ih ⊢; omega
  | cons_cons v _ ih => simp only [encodeDir, List.flatMap_cons, List.length_append] at ih ⊢; omega

/-- Entries can be taken out of a good listing. -/
theorem GoodDir.of_sublist {a : List Entry} (h : GoodDir sb dir) (ha : a.Sublist dir) : GoodDir sb a :=
  ⟨(encodeDir_length_le_of_sublist ha).trans_lt h.short, fun v hv => h.entryOk v (ha.subset hv),
    fun v hv => h.indexOk v (ha.subset hv)⟩

theorem IndexOk.lt (h : Formatted sb) {i : ℕ} (hi : IndexOk sb i) : i < 2 ^ 64 := by
  have := h.totalInodes_lt_rootSelf
  have : rootSelf = 2 ^ 64 - 1 := rfl
  rcases hi with hi | hi <;> omega

/-- An encoding shorter than a block, in any number of blocks. -/
theorem parseChunks_encodeDir_of_some (hdir : ∀ v ∈ dir, EntryOk v) {bs : ℕ}
    (hlen : (encodeDir dir).length < bs) {L : List Entry}
    (h : parseChunks bs k (encodeDir dir) = some L) : L = [] ∨ L = dir := by
  cases k with
  | zero => exact Or.inl (Option.some.inj h).symm
  | succ k =>
    have hone := parseChunks_encodeDir hdir hlen
    rw [parseChunks] at h hone
    obtain ⟨a, ha, h⟩ := Option.bind_eq_some_iff.1 h
    obtain ⟨b, hb, h⟩ := Option.bind_eq_some_iff.1 h
    obtain rfl : a = dir := by simpa [ha, parseChunks] using hone
    rw [List.drop_of_length_le hlen.le] at hb
    rcases parseChunks_raw bs k isArg_nil with h0 | h0
    · simp [h0] at hb
    · obtain rfl : [] = b := by simpa [h0] using hb
      exact Or.inr (by simpa using h.symm)

/-- **Only good listings can be read from what operations write.** -/
theorem Content.goodDir (hf : Formatted sb) (h : Content sb data) {L : List Entry}
    (hL : parseChunks sb.blockSize k data = some L) : GoodDir sb L := by
  cases h with
  | raw harg =>
    rcases parseChunks_raw sb.blockSize k harg with h | h
    · simp [h] at hL
    · obtain rfl : [] = L := by simpa [h] using hL
      exact GoodDir.nil hf.blockSize_pos
  | dir hdir =>
    rcases parseChunks_encodeDir_of_some hdir.entryOk hdir.short hL with rfl | rfl
    · exact GoodDir.nil hf.blockSize_pos
    · exact hdir
  | @insert dir name i hdir hname hi =>
    obtain ⟨hpre, hok, hlen⟩ :=
      parseChunks_insert hdir.entryOk hdir.short hname (hi.lt hf) hL
    refine ⟨hlen, hok, fun v hv => ?_⟩
    rcases List.mem_append.1 (hpre.subset hv) with hv | hv
    · exact hdir.indexOk v hv
    · exact List.mem_singleton.1 hv ▸ hi

end Content

/-! ### First consequences -/

section Basic

variable {s : Instance} {i : ℕ}

theorem TableOk.selfOk (h : TableOk s) (hi : i < s.sb.totalInodes) :
    SelfOk s.sb (s.inodes i).self := by
  by_cases h0 : i = 0
  · exact Or.inr (h0 ▸ h.root_self)
  · exact Or.inl ((h.self_eq i h0 hi).symm ▸ hi)

theorem TableOk.self_ne_rootSelf (h : TableOk s) (hf : Formatted s.sb) (h0 : i ≠ 0) :
    (s.inodes i).self ≠ rootSelf := by
  have hlt := hf.totalInodes_lt_rootSelf
  by_cases hi : i < s.sb.totalInodes
  · rw [h.self_eq i h0 hi]
    omega
  · rw [h.spare i (by omega)]
    exact fun e => absurd e (by simp [Inode.zero, rootSelf])

theorem TableOk.self_eq_rootSelf_iff (h : TableOk s) (hf : Formatted s.sb) :
    (s.inodes i).self = rootSelf ↔ i = 0 :=
  ⟨fun e => by_contra fun h0 => h.self_ne_rootSelf hf h0 e, fun e => e ▸ h.root_self⟩

/-- The root holds block `0`. -/
theorem TableOk.root_holds (h : TableOk s) : (s.inodes 0).Holds 0 := Or.inl ⟨h.root_self, rfl⟩

theorem OwnedOk.bit_zero (h : OwnedOk s) (ht : TableOk s) : s.dataBitmap 0 = true :=
  (h.partitioned.used_iff 0).2 ⟨0, ht.root_holds⟩

theorem OwnedOk.bit_of_holds (h : OwnedOk s) {b : ℕ} (hb : (s.inodes i).Holds b) :
    s.dataBitmap b = true := (h.partitioned.used_iff b).2 ⟨i, hb⟩

/-- `get_dir_entry` reads blocks that the inode holds. -/
theorem OwnedOk.holds_of_listed (h : OwnedOk s) (ht : TableOk s) (hf : Formatted s.sb) {j : Fin 10}
    (hj : Listed (s.inodes i) j) : (s.inodes i).Holds ((s.inodes i).dataBlocks j) := by
  rcases hj with hj | ⟨hroot, rfl⟩
  · exact Or.inr ⟨hj, j, rfl⟩
  · obtain rfl := (ht.self_eq_rootSelf_iff hf).1 hroot
    exact Or.inl ⟨hroot, h.root_first⟩

theorem OwnedOk.lt_of_holds (h : OwnedOk s) (hf : Formatted s.sb) {b : ℕ}
    (hb : (s.inodes i).Holds b) : b < s.sb.totalDataBlocks := by
  rcases hb with ⟨-, rfl⟩ | ⟨-, j, rfl⟩
  · exact hf.totalDataBlocks_pos
  · exact h.bounded i j

theorem release_eq_true {n : Inode} {bitmap : ℕ → Bool} {b : ℕ} :
    release n bitmap b = true ↔ bitmap b = true ∧ ¬n.Holds b := by
  simp only [release, Inode.Holds, Bool.and_eq_true, Bool.not_eq_true', decide_eq_false_iff_not]

/-- Nobody else holds a block that `write_file` takes. -/
theorem OwnedOk.not_holds_of_mem_blocksOf (h : OwnedOk s) {data : List Byte} {b g : ℕ}
    (hb : b ∈ blocksOf s i data) (hg : g ≠ i) : ¬(s.inodes g).Holds b := fun hgb => by
  have hnot : ¬(s.inodes i).Holds b := fun hib => hg (h.partitioned.holder_unique g i b hgb hib)
  have := release_eq_true.2 ⟨h.bit_of_holds hgb, hnot⟩
  rw [not_release_of_mem_blocksOf hb] at this
  exact Bool.noConfusion this

end Basic

end MufaFs
