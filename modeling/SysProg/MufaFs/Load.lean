import SysProg.MufaFs.Creation

/-!
# Loading the vector of inodes

`init` on a drive with any content of the inode area.  Each turn reads a whole slot onto a record
that is shorter, and what spills over goes into the records behind, which later turns read again.  No
turn writes below its own record, so what has been pushed into the queue stays as it is.

The marks on the bitmap do not touch the vector.  They are a parameter here, because the loop that
sets them leaves `data_blocks` after a tenth block: `markBlocks` ends there, `markPacked` reads on in
the packed record, where `data_blocks[10]` is `indirect1`.

* `initLoop`: the loop of `init` after some turns;
* `initStepWith_eq`: one turn, whatever the vector holds;
* `init_loads`: every record is loaded as it stands in its slot.
-/

namespace MufaFs

open ByteFile FirstFit Instance

/-! ### The loop with a parameter -/

/-- The vector of inodes, the bitmap, and the queue. -/
abbrev LoopState := (ℕ → Inode) × (ℕ → Bool) × List ℕ

/-- How the blocks of an inode are marked on a bitmap of the given size. -/
abbrev Marking := ℕ → Inode → (ℕ → Bool) → Option (ℕ → Bool)

/-- One turn of the loop of `init`, as in `initStep`, with the marks as a parameter. -/
def initStepWith (marking : Marking) (drive : File) (sb : SuperBlock) (st : LoopState) (i : ℕ) :
    Option LoopState :=
  let (table, bitmap, queue) := st
  let inodeSizeByte := sb.inodeSize * sb.blockSize
  let slot := (drive.fseek (sb.inodesStart + i * inodeSizeByte)).fread inodeSizeByte
  if slot.length < inodeSizeByte ∨
      sb.inodesSize * sizeofInode < i * sizeofInode + inodeSizeByte then none
  else
    let table := loadSlot table i slot
    if (table i).type = 0 then
      some (Function.update table i { table i with self := i }, bitmap, i :: queue)
    else do
      let bitmap ← marking sb.totalDataBlocks (table i) bitmap
      some (table, bitmap, i :: queue)

/-- The loop of `init` after `m` turns. -/
def initLoop (marking : Marking) (drive : File) (sb : SuperBlock) (bitmap : ℕ → Bool) (m : ℕ) :
    Option LoopState :=
  (List.range m).foldlM (initStepWith marking drive sb) (fun _ => Inode.zero, bitmap, [])

/-- The marks where a read behind `data_blocks` is out of bounds. -/
def markArray : Marking := fun size n bitmap => markBlocks size n 11 0 bitmap

/-- The entry at position `j` from the beginning of `data_blocks`, in the packed record. -/
def Inode.entry (n : Inode) (j : ℕ) : ℕ := n.fields.getD (3 + j) 0

/-- The loop of `markBlocks` with the array read beyond its end. -/
def markEntries (size : ℕ) (n : Inode) : (fuel j : ℕ) → (ℕ → Bool) → Option (ℕ → Bool)
  | 0, _, _ => none
  | fuel + 1, j, bitmap =>
      if n.entry j = 0 then some bitmap
      else do
        let bitmap ← setBit size bitmap (n.entry (j + 1)) true
        markEntries size n fuel (j + 1) bitmap

/-- The marks where a read behind `data_blocks` delivers the next field. -/
def markPacked : Marking := fun size n bitmap => markEntries size n 11 0 bitmap

/-- `init` runs the loop with the marks of `markBlocks`. -/
theorem init_eq_initLoop (drive : File) (sb : SuperBlock) : Instance.init drive sb =
    (setBit sb.totalDataBlocks (fun _ => false) 0 true).bind fun bitmap =>
      (initLoop markArray drive sb bitmap sb.totalInodes).bind fun st =>
        ({ drive, sb, inodes := st.1, dataBitmap := st.2.1, inodesSorted := st.2.2, cwdNode := 0,
           cwd := [], stderr := [] } : Instance).cdNode 0 := rfl

theorem initLoop_succ (marking : Marking) (drive : File) (sb : SuperBlock) (bitmap : ℕ → Bool)
    (m : ℕ) : initLoop marking drive sb bitmap (m + 1) =
      (initLoop marking drive sb bitmap m).bind fun st => initStepWith marking drive sb st m := by
  rw [initLoop, List.range_succ, List.foldlM_append]
  simp only [List.foldlM_cons, List.foldlM_nil, bind_pure]
  rfl

/-! ### One turn -/

/-- An inode area that can be read: each slot holds a record, no slot ends behind the drive, and no
address wraps around. -/
structure InodeArea (drive : File) (sb : SuperBlock) : Prop where
  slot : sizeofInode ≤ sb.inodeSize * sb.blockSize
  read : ∀ i < sb.totalInodes,
    sb.inodesStart + (i + 1) * (sb.inodeSize * sb.blockSize) ≤ drive.size
  size : ∀ i < sb.totalInodes,
    sb.inodesStart + (i + 1) * (sb.inodeSize * sb.blockSize) < 2 ^ 64

section Turn

variable {drive : File} {sb : SuperBlock} {i : ℕ}

/-- A slot longer than a record sets the record, and leaves the records before it alone. -/
theorem loadSlot_self {table : ℕ → Inode} {slot : List Byte} (h : sizeofInode ≤ slot.length) :
    loadSlot table i slot i = Inode.decode (slot.take sizeofInode) := by
  have h121 : sizeofInode = 121 := rfl
  rw [loadSlot, if_neg (by rw [Nat.succ_mul]; omega)]
  congr 1
  refine List.ext_getElem (by simpa using h) fun b hb _ => ?_
  have hb' : b < sizeofInode := by simpa using hb
  rw [List.getElem_map, List.getElem_range, if_pos (by omega), Nat.add_sub_cancel_left,
    List.getElem_take, List.getD_eq_getElem _ _ (by omega)]

theorem loadSlot_of_lt {table : ℕ → Inode} {slot : List Byte} {k : ℕ} (h : k < i) :
    loadSlot table i slot k = table k :=
  if_pos (Or.inl (Nat.mul_le_mul_right _ h))

/-- Every read stays inside the storage of the vector. -/
theorem InodeArea.inside (h : InodeArea drive sb) (hi : i < sb.totalInodes) :
    i * sizeofInode + sb.inodeSize * sb.blockSize ≤ sb.inodesSize * sizeofInode := by
  have h121 : sizeofInode = 121 := rfl
  have hslot := h.slot
  have hsize := h.size (sb.totalInodes - 1) (by omega)
  rw [Nat.sub_add_cancel (by omega)] at hsize
  rw [SuperBlock.inodesSize, u64, Nat.mod_eq_of_lt (by omega)]
  calc i * sizeofInode + sb.inodeSize * sb.blockSize
      ≤ i * (sb.inodeSize * sb.blockSize) + sb.inodeSize * sb.blockSize :=
        Nat.add_le_add_right (Nat.mul_le_mul_left i hslot) _
    _ = (i + 1) * (sb.inodeSize * sb.blockSize) := by ring
    _ ≤ sb.totalInodes * (sb.inodeSize * sb.blockSize) := Nat.mul_le_mul_right _ hi
    _ ≤ sb.totalInodes * (sb.inodeSize * sb.blockSize) * sizeofInode :=
        Nat.le_mul_of_pos_right _ (by omega)

/-- The address of a slot does not wrap around. -/
theorem InodeArea.inodeAddr (h : InodeArea drive sb) (hi : i < sb.totalInodes) :
    sb.inodeAddr i = sb.inodesStart + i * (sb.inodeSize * sb.blockSize) := by
  have hsize := h.size i hi
  rw [Nat.succ_mul] at hsize
  rw [SuperBlock.inodeAddr, u64, Nat.mul_assoc, Nat.mod_eq_of_lt (by omega)]

/-- The vector after slot `i` was read: what spills over stands in the records behind. -/
def loadRecord (drive : File) (sb : SuperBlock) (table : ℕ → Inode) (i : ℕ) : ℕ → Inode :=
  Function.update
    (loadSlot table i (drive.slice (sb.inodeAddr i) (sb.inodeSize * sb.blockSize))) i
    (adopt (slotInode drive sb) i)

/-- The marks for slot `i`. -/
def markSlot (marking : Marking) (drive : File) (sb : SuperBlock) (bitmap : ℕ → Bool) (i : ℕ) :
    Option (ℕ → Bool) :=
  if (slotInode drive sb i).type = 0 then some bitmap
  else marking sb.totalDataBlocks (slotInode drive sb i) bitmap

theorem loadRecord_self (table : ℕ → Inode) :
    loadRecord drive sb table i i = adopt (slotInode drive sb) i :=
  Function.update_self _ _ _

theorem loadRecord_of_lt (table : ℕ → Inode) {k : ℕ} (h : k < i) :
    loadRecord drive sb table i k = table k := by
  rw [loadRecord, Function.update_of_ne h.ne, loadSlot_of_lt h]

/-- **One turn**, whatever the vector holds. -/
theorem initStepWith_eq (h : InodeArea drive sb) (hi : i < sb.totalInodes) (marking : Marking)
    (table : ℕ → Inode) (bitmap : ℕ → Bool) (queue : List ℕ) :
    initStepWith marking drive sb (table, bitmap, queue) i =
      (markSlot marking drive sb bitmap i).map fun bitmap =>
        (loadRecord drive sb table i, bitmap, i :: queue) := by
  have hread := h.read i hi
  have hinside := h.inside hi
  have haddr := h.inodeAddr hi
  rw [Nat.succ_mul] at hread
  have hslot : (drive.fseek (sb.inodesStart + i * (sb.inodeSize * sb.blockSize))).fread
      (sb.inodeSize * sb.blockSize) =
      drive.slice (sb.inodeAddr i) (sb.inodeSize * sb.blockSize) := by
    rw [haddr, File.fread_of_le _ _ _ (by omega)]
  have hload : loadSlot table i (drive.slice (sb.inodeAddr i) (sb.inodeSize * sb.blockSize)) i =
      slotInode drive sb i := by
    rw [loadSlot_self (by rw [File.slice_length]; exact h.slot), File.slice_take _ _ _ h.slot,
      slotInode]
  simp only [initStepWith, hslot, File.slice_length, lt_irrefl, false_or,
    if_neg (Nat.not_lt.2 hinside), hload, markSlot, loadRecord, adopt]
  by_cases htype : (slotInode drive sb i).type = 0
  · simp only [if_pos htype, Option.map_some]
  · -- an occupied inode is kept as it was read
    have hkeep : Function.update (loadSlot table i (drive.slice (sb.inodeAddr i)
        (sb.inodeSize * sb.blockSize))) i (slotInode drive sb i) =
        loadSlot table i (drive.slice (sb.inodeAddr i) (sb.inodeSize * sb.blockSize)) := by
      rw [← hload, Function.update_eq_self]
    rw [if_neg htype, if_neg htype, if_neg htype, hkeep]
    cases marking sb.totalDataBlocks (slotInode drive sb i) bitmap <;> rfl

end Turn

/-! ### The whole loop -/

section Loop

variable {drive : File} {sb : SuperBlock}

/-- After `m` turns the first `m` records are adopted from their slots, and in the queue. -/
theorem initLoop_eq (h : InodeArea drive sb) (marking : Marking) (bitmap : ℕ → Bool) {m : ℕ}
    (hm : m ≤ sb.totalInodes) : ∃ table : ℕ → Inode,
      (∀ i < m, table i = adopt (slotInode drive sb) i) ∧
      initLoop marking drive sb bitmap m =
        ((List.range m).foldlM (markSlot marking drive sb) bitmap).map fun bitmap =>
          (table, bitmap, (List.range m).reverse) := by
  induction m with
  | zero => exact ⟨fun _ => Inode.zero, fun i hi => absurd hi (Nat.not_lt_zero i), rfl⟩
  | succ m ih =>
    obtain ⟨table, htable, hloop⟩ := ih (by omega)
    refine ⟨loadRecord drive sb table m, fun i hi => ?_, ?_⟩
    · -- the record of the last turn, or one that it has kept
      rcases Nat.lt_succ_iff_lt_or_eq.1 hi with hi | rfl
      · rw [loadRecord_of_lt table hi, htable i hi]
      · exact loadRecord_self table
    · rw [initLoop_succ, hloop, List.range_succ, List.foldlM_append, List.reverse_append]
      cases (List.range m).foldlM (markSlot marking drive sb) bitmap with
      | none => rfl
      | some bitmap =>
        simp only [Option.map_some, Option.bind_some, Option.bind_eq_bind, List.foldlM_cons,
          List.foldlM_nil, bind_pure, initStepWith_eq h hm]
        rfl

end Loop

/-! ### Marks that read on -/

/-- Occupied slots list direct blocks of the drive, and no indirect ones. -/
def DirectSlots (drive : File) (sb : SuperBlock) : Prop :=
  ∀ i < sb.totalInodes, (slotInode drive sb i).type ≠ 0 →
    (∀ j, (slotInode drive sb i).dataBlocks j < sb.totalDataBlocks) ∧
      (slotInode drive sb i).indirect1 = 0 ∧ (slotInode drive sb i).indirect2 = 0 ∧
      (slotInode drive sb i).indirect3 = 0

section Packed

variable {size : ℕ} {n : Inode}

theorem Inode.entry_of_lt (n : Inode) {j : ℕ} (h : j < 10) : n.entry j = n.dataBlocks ⟨j, h⟩ := by
  interval_cases j <;> rfl

theorem Inode.entry_ten (n : Inode) : n.entry 10 = n.indirect1 := rfl

/-- Reading on ends at `data_blocks[10]` at the latest. -/
theorem markEntries_isSome (hsize : ∀ j, n.dataBlocks j < size) (hzero : n.indirect1 = 0) {fuel : ℕ}
    (bitmap : ℕ → Bool) {j : ℕ} (hj : j ≤ 10) (hfuel : 10 < fuel + j) :
    (markEntries size n fuel j bitmap).isSome := by
  induction fuel generalizing j bitmap with
  | zero => omega
  | succ fuel ih =>
    rw [markEntries]
    split_ifs with hentry
    · rfl
    · have hj10 : j ≠ 10 := by
        rintro rfl
        exact hentry (n.entry_ten.trans hzero)
      have hlt : n.entry (j + 1) < size := by
        rcases Nat.lt_or_ge (j + 1) 10 with h | h
        · rw [n.entry_of_lt h]
          exact hsize _
        · obtain rfl : j = 9 := by omega
          rw [n.entry_ten, hzero]
          exact Nat.zero_lt_of_lt (hsize 0)
      rw [setBit, if_pos hlt]
      exact ih _ (by omega) (by omega)

variable {drive : File} {sb : SuperBlock}

theorem markSlot_isSome (h : DirectSlots drive sb) (bitmap : ℕ → Bool) {i : ℕ}
    (hi : i < sb.totalInodes) : (markSlot markPacked drive sb bitmap i).isSome := by
  rw [markSlot]
  split_ifs with htype
  · rfl
  · obtain ⟨hsize, hzero, -⟩ := h i hi htype
    exact markEntries_isSome hsize hzero bitmap (by omega) (by omega)

theorem foldlM_markSlot_isSome (h : DirectSlots drive sb) (bitmap : ℕ → Bool) {m : ℕ}
    (hm : m ≤ sb.totalInodes) :
    ((List.range m).foldlM (markSlot markPacked drive sb) bitmap).isSome := by
  induction m with
  | zero => rfl
  | succ m ih =>
    obtain ⟨bitmap', hbitmap⟩ := Option.isSome_iff_exists.1 (ih (by omega))
    rw [List.range_succ, List.foldlM_append, hbitmap]
    simpa using markSlot_isSome h bitmap' hm

end Packed

/-! ### Records and slots -/

/-- The record has the bytes `bytes`, except that `self` is the index `i` if the type is `0`. -/
def LoadedFrom (bytes : List Byte) (i : ℕ) (n : Inode) : Prop :=
  ∃ self, ({ n with self } : Inode).encode = bytes ∧ n.self = if n.type = 0 then i else self

/-- What `init` does on a drive whose inode area begins at `inodes_start`, with slots of 256 bytes. -/
structure FaithfulLoad (drive : File) (sb : SuperBlock) : Prop where
  /-- No read leaves the storage of the vector. -/
  inside : ∀ i < sb.totalInodes, i * sizeofInode + 256 ≤ sb.inodesSize * sizeofInode
  /-- The loop ends. -/
  completes : ∀ bitmap, ∀ m ≤ sb.totalInodes, (initLoop markPacked drive sb bitmap m).isSome
  /-- What is in the queue has been loaded. -/
  records : ∀ marking bitmap m st, m ≤ sb.totalInodes →
    initLoop marking drive sb bitmap m = some st → st.2.2 = (List.range m).reverse ∧
      ∀ i < m, LoadedFrom (drive.slice (sb.inodesStart + i * 256) sizeofInode) i (st.1 i)
  /-- What is in the queue is not changed any more. -/
  unchanged : ∀ marking bitmap m m' st st', m ≤ m' → m' ≤ sb.totalInodes →
    initLoop marking drive sb bitmap m = some st → initLoop marking drive sb bitmap m' = some st' →
    ∀ i ∈ st.2.2, st'.1 i = st.1 i
  /-- After `init` the whole vector has been loaded. -/
  mounted : ∀ s, Instance.init drive sb = some s → ∀ i < sb.totalInodes,
    LoadedFrom (drive.slice (sb.inodesStart + i * 256) sizeofInode) i (s.inodes i)

section Records

theorem Inode.fields_ofFields {vs : List ℕ} (h : vs.length = 16) :
    (Inode.ofFields vs).fields = vs := by
  match vs, h with
  | [_, _, _, _, _, _, _, _, _, _, _, _, _, _, _, _], _ => rfl

/-- The bytes of a record are those it was decoded from. -/
theorem Inode.encode_decode {bytes : List Byte} (h : bytes.length = sizeofInode) :
    (Inode.decode bytes).encode = bytes := by
  rw [Inode.encode, Inode.decode, Inode.fields_ofFields (Packed.unpack_length _ _),
    Packed.pack_unpack h]

variable {drive : File} {sb : SuperBlock}

theorem loadedFrom_adopt (drive : File) (sb : SuperBlock) (i : ℕ) :
    LoadedFrom (drive.slice (sb.inodeAddr i) sizeofInode) i (adopt (slotInode drive sb) i) := by
  refine ⟨(slotInode drive sb i).self, ?_, ?_⟩
  · have hself : ({ adopt (slotInode drive sb) i with self := (slotInode drive sb i).self } : Inode) =
        slotInode drive sb i := by
      rw [adopt]
      split_ifs <;> rfl
    rw [hself, slotInode, Inode.encode_decode (File.slice_length _ _ _)]
  · rw [adopt_type, adopt]
    split_ifs <;> rfl

/-- After `m` turns the first `m` inodes are in the queue, and their records are those adopted from the
slots. -/
theorem InodeArea.initLoop_eq_some (h : InodeArea drive sb) {marking : Marking} {bitmap : ℕ → Bool}
    {m : ℕ} {st : LoopState} (hm : m ≤ sb.totalInodes)
    (hst : initLoop marking drive sb bitmap m = some st) :
    st.2.2 = (List.range m).reverse ∧ ∀ i < m, st.1 i = adopt (slotInode drive sb) i := by
  obtain ⟨table, htable, heq⟩ := initLoop_eq h marking bitmap hm
  rw [heq, Option.map_eq_some_iff] at hst
  obtain ⟨bitmap', -, rfl⟩ := hst
  exact ⟨rfl, htable⟩

/-- **The inodes are loaded faithfully**, whatever the inode area holds. -/
theorem init_loads (hinode : sb.inodeSize = 1) (hblock : sb.blockSize = 256)
    (hread : ∀ i < sb.totalInodes, sb.inodesStart + (i + 1) * 256 ≤ drive.size)
    (hsize : drive.size < 2 ^ 63) (hslots : DirectSlots drive sb) : FaithfulLoad drive sb := by
  have hslot : sb.inodeSize * sb.blockSize = 256 := by rw [hinode, hblock]
  have harea : InodeArea drive sb :=
    ⟨by rw [hslot]; decide, by rwa [hslot], fun i hi => by have := hread i hi; rw [hslot]; omega⟩
  have haddr : ∀ i < sb.totalInodes, sb.inodeAddr i = sb.inodesStart + i * 256 := fun i hi => by
    rw [harea.inodeAddr hi, hslot]
  have hrecords : ∀ marking bitmap m st, m ≤ sb.totalInodes →
      initLoop marking drive sb bitmap m = some st → ∀ i < m,
        LoadedFrom (drive.slice (sb.inodesStart + i * 256) sizeofInode) i (st.1 i) := by
    intro marking bitmap m st hm hst i hi
    rw [(harea.initLoop_eq_some hm hst).2 i hi, ← haddr i (by omega)]
    exact loadedFrom_adopt drive sb i
  refine ⟨fun i hi => ?_, fun bitmap m hm => ?_, fun marking bitmap m st hm hst =>
    ⟨(harea.initLoop_eq_some hm hst).1, hrecords marking bitmap m st hm hst⟩, ?_, ?_⟩
  · rw [← hslot]
    exact harea.inside hi
  · obtain ⟨table, -, heq⟩ := initLoop_eq harea markPacked bitmap hm
    rw [heq, Option.isSome_map]
    exact foldlM_markSlot_isSome hslots bitmap hm
  · intro marking bitmap m m' st st' hmm hm' hst hst' i hi
    obtain ⟨hqueue, hbefore⟩ := harea.initLoop_eq_some (hmm.trans hm') hst
    have hlt : i < m := by simpa [hqueue] using hi
    rw [hbefore i hlt, (harea.initLoop_eq_some hm' hst').2 i (hlt.trans_le hmm)]
  · intro s hs i hi
    rw [init_eq_initLoop, Option.bind_eq_some_iff] at hs
    obtain ⟨bitmap, -, hs⟩ := hs
    obtain ⟨st, hst, hs⟩ := Option.bind_eq_some_iff.1 hs
    -- entering the root changes no inode
    obtain ⟨cwd, -, hs⟩ := Option.bind_eq_some_iff.1 hs
    cases hs
    exact hrecords markArray bitmap _ st le_rfl hst i hi

end Records

section Small

variable {s : Instance}

/-- The slots of a volume with the invariant are of this kind. -/
theorem Inv.directSlots (h : Inv s) : DirectSlots s.drive s.sb := by
  have hf := h.formatted
  intro i hi _
  by_cases h0 : i = 0
  · rw [h0, h.slots.slotInode_root hf]
    exact ⟨fun _ => hf.totalDataBlocks_pos, rfl, rfl, rfl⟩
  · have hslot := h.slots.slotInode hf h0 hi
    exact ⟨hslot.bounded, hslot.indirect⟩

theorem Inv.inodeArea (h : Inv s) : InodeArea s.drive s.sb := by
  have hf := h.formatted
  have h121 : sizeofInode = 121 := rfl
  have hcover := (Nat.le_add_right _ _).trans (h.owned.covered 0 0 h.table.root_holds)
  have hfits := hf.fits
  have hmany := hf.manyBlocks
  rw [hf.blockAddr hf.totalDataBlocks_pos] at hcover
  refine ⟨?_, fun i hi => ?_, fun i hi => ?_⟩
  · rw [hf.inodeSize, hf.blockSize]
    omega
  · rw [hf.inodesStart, hf.inodeSize, hf.blockSize]
    omega
  · rw [hf.inodesStart, hf.inodeSize, hf.blockSize]
    omega

theorem smallVolume_size : smallVolume.drive.size = 77825 := by
  have htotal := smallSuperBlock_totalInodes
  have hsize : smallVolume.drive.size = max (77824 + 1) (336 + 256 * smallSuperBlock.totalInodes) :=
    formatDrive_size _ smallVolume_inv.formatted (newSuperBlock_reservedBlocks _ _ _)
      (encode_newSuperBlock_length _ _ _)
  rw [hsize, htotal]
  rfl

theorem init_loads_small : FaithfulLoad smallVolume.drive smallVolume.sb := by
  have hf := smallVolume_inv.formatted
  refine init_loads hf.inodeSize hf.blockSize (fun i hi => ?_) ?_ smallVolume_inv.directSlots
  · have hread := smallVolume_inv.inodeArea.read i hi
    rwa [hf.inodeSize, hf.blockSize] at hread
  · rw [smallVolume_size]
    norm_num

end Small

end MufaFs
