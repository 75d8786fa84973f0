import SysProg.MufaFs.Load
import SysProg.MufaFs.Ownership
import SysProg.MufaFs.Sync

/-!
# The bitmap after mounting

The loop of `init` that marks blocks tests `data_blocks[j]` and marks `data_blocks[j + 1]`: it never
marks the first block of an inode, and it leaves the array after a tenth block.

* `Scans n b`: the loop marks `b` for the inode `n`;
* `markedBitmap_eq`: the bitmap after all inodes;
* `init_bitmap_iff`: the drives whose bitmap is rebuilt;
* `Recoverable.iff_of_unshared`: where no block is listed twice, these are the drives without files.
-/

namespace MufaFs

open ByteFile FirstFit Instance

/-! ### The bitmap that should be there -/

/-- A nonzero entry of an occupied inode. -/
def OccupiedLists (drive : File) (sb : SuperBlock) (b : ℕ) : Prop :=
  b ≠ 0 ∧ ∃ i < sb.totalInodes, (slotInode drive sb i).type ≠ 0 ∧
    ∃ j, (slotInode drive sb i).dataBlocks j = b

/-- The bitmap of `init` after its loop. -/
def markedBitmap (drive : File) (sb : SuperBlock) : Option (ℕ → Bool) := do
  let bitmap ← setBit sb.totalDataBlocks (fun _ => false) 0 true
  let st ← initLoop markArray drive sb bitmap sb.totalInodes
  some st.2.1

/-- The bitmap is rebuilt, without a read outside of `data_blocks`, and so no write takes a block that
another file holds. -/
structure Rebuilt (drive : File) (sb : SuperBlock) : Prop where
  bitmap : ∃ bitmap, markedBitmap drive sb = some bitmap ∧
    ∀ b, bitmap b = true ↔ b = 0 ∨ OccupiedLists drive sb b
  fresh : ∀ s, Instance.init drive sb = some s → ∀ i data, ∀ b ∈ blocksOf s i data,
    (∀ j, (s.inodes i).dataBlocks j ≠ b) → ¬OccupiedLists drive sb b

/-! ### The marks for one inode -/

/-- The block stands behind the first position, in an inode that lists blocks up to there. -/
def Scans (n : Inode) (b : ℕ) : Prop :=
  ∃ k : Fin 10, 0 < k ∧ n.dataBlocks k = b ∧ ∀ l < k, n.dataBlocks l ≠ 0

section Marks

variable {size : ℕ} {n : Inode} {fuel j : ℕ} (bitmap : ℕ → Bool)

/-- An inode without a zero entry takes the loop out of the array. -/
theorem markBlocks_eq_none (hn : ∀ k, n.dataBlocks k ≠ 0) :
    markBlocks size n fuel j bitmap = none := by
  induction fuel generalizing j bitmap with
  | zero => rfl
  | succ fuel ih =>
    rw [markBlocks]
    split_ifs with h h0 h'
    · exact absurd h0 (hn _)
    · rw [setBit]
      split_ifs
      · exact ih _
      · rfl
    · rfl
    · rfl

/-- From position `j` on, the loop marks the entries behind it up to the first zero. -/
theorem markBlocks_of_zero (hsize : ∀ k, n.dataBlocks k < size) {z : Fin 10} (hz : n.dataBlocks z = 0)
    (hfuel : 10 < fuel + j) (hj : j ≤ z) : ∃ bitmap', markBlocks size n fuel j bitmap = some bitmap' ∧
      ∀ b, bitmap' b = true ↔ bitmap b = true ∨ ∃ k : Fin 10, j < k ∧ n.dataBlocks k = b ∧
        ∀ l : Fin 10, j ≤ l → l < k → n.dataBlocks l ≠ 0 := by
  induction fuel generalizing j bitmap with
  | zero => omega
  | succ fuel ih =>
    have hz10 := z.isLt
    have h : j < 10 := by omega
    rw [markBlocks, dif_pos h]
    by_cases h0 : n.dataBlocks ⟨j, h⟩ = 0
    · -- the test fails: nothing is marked any more
      refine ⟨bitmap, if_pos h0, fun b => ⟨Or.inl, ?_⟩⟩
      rintro (hb | ⟨k, hjk, -, hk⟩)
      · exact hb
      · exact absurd h0 (hk ⟨j, h⟩ le_rfl hjk)
    · have hne : j ≠ z := fun e => h0 (by rwa [show (⟨j, h⟩ : Fin 10) = z from Fin.ext e])
      have h' : j + 1 < 10 := by omega
      rw [if_neg h0, dif_pos h', setBit, if_pos (hsize _)]
      obtain ⟨bitmap', hmark, hbits⟩ := ih (Function.update bitmap (n.dataBlocks ⟨j + 1, h'⟩) true)
        (by omega : 10 < fuel + (j + 1)) (by omega)
      refine ⟨bitmap', hmark, fun b => (hbits b).trans ?_⟩
      rw [Function.update_apply]
      constructor
      · rintro (hb | ⟨k, hjk, hk, hl⟩)
        · split_ifs at hb with hbj
          · refine Or.inr ⟨⟨j + 1, h'⟩, Nat.lt_succ_self j, hbj.symm, fun l hjl hlk => ?_⟩
            rwa [show l = ⟨j, h⟩ from Fin.ext (le_antisymm (Nat.le_of_lt_succ hlk) hjl)]
          · exact Or.inl hb
        · refine Or.inr ⟨k, by omega, hk, fun l hjl hlk => ?_⟩
          by_cases hlj : l = ⟨j, h⟩
          · rwa [hlj]
          · have : l.val ≠ j := fun e => hlj (Fin.ext e)
            exact hl l (by omega) hlk
      · rintro (hb | ⟨k, hjk, hk, hl⟩)
        · left
          split_ifs
          · rfl
          · exact hb
        · by_cases hkj : k = ⟨j + 1, h'⟩
          · left
            rw [if_pos (hkj ▸ hk.symm)]
          · have : k.val ≠ j + 1 := fun e => hkj (Fin.ext e)
            exact Or.inr ⟨k, by omega, hk, fun l hjl hlk => hl l (by omega) hlk⟩

/-- The marks for an inode with a zero entry. -/
theorem markArray_of_zero (hsize : ∀ k, n.dataBlocks k < size) {z : Fin 10}
    (hz : n.dataBlocks z = 0) : ∃ bitmap', markArray size n bitmap = some bitmap' ∧
      ∀ b, bitmap' b = true ↔ bitmap b = true ∨ Scans n b := by
  obtain ⟨bitmap', hmark, hbits⟩ :=
    markBlocks_of_zero bitmap hsize hz (by norm_num : 10 < 11 + 0) (Nat.zero_le _)
  refine ⟨bitmap', hmark, fun b => (hbits b).trans (or_congr_right ?_)⟩
  exact exists_congr fun k => and_congr_right fun _ => and_congr_right fun _ =>
    ⟨fun h l hl => h l (Nat.zero_le _) hl, fun h l _ hl => h l hl⟩

end Marks

/-! ### The marks for all inodes -/

/-- An occupied slot below `m`. -/
def OccupiedBelow (drive : File) (sb : SuperBlock) (m i : ℕ) : Prop :=
  i < m ∧ (slotInode drive sb i).type ≠ 0

/-- The bitmap can be rebuilt: no occupied inode lists ten blocks, and every block that is listed is
also listed where the loop marks it. -/
structure Recoverable (drive : File) (sb : SuperBlock) : Prop where
  pos : 0 < sb.totalDataBlocks
  zero : ∀ i, OccupiedBelow drive sb sb.totalInodes i → ∃ z, (slotInode drive sb i).dataBlocks z = 0
  scanned : ∀ b, OccupiedLists drive sb b →
    ∃ i, OccupiedBelow drive sb sb.totalInodes i ∧ Scans (slotInode drive sb i) b

section Loop

variable {drive : File} {sb : SuperBlock} {m : ℕ} {bitmap bitmap' : ℕ → Bool}

theorem occupiedBelow_succ {i : ℕ} : OccupiedBelow drive sb (m + 1) i ↔
    OccupiedBelow drive sb m i ∨ i = m ∧ (slotInode drive sb m).type ≠ 0 := by
  rw [OccupiedBelow, OccupiedBelow, Nat.lt_succ_iff_lt_or_eq]
  constructor
  · rintro ⟨hi | rfl, htype⟩
    · exact Or.inl ⟨hi, htype⟩
    · exact Or.inr ⟨rfl, htype⟩
  · rintro (⟨hi, htype⟩ | ⟨rfl, htype⟩)
    · exact ⟨Or.inl hi, htype⟩
    · exact ⟨Or.inr rfl, htype⟩

/-- One turn stays in the arrays exactly if the inode, when it is occupied, has a zero entry. -/
theorem markSlot_isSome_iff (hslots : DirectSlots drive sb) (hm : m < sb.totalInodes) :
    (markSlot markArray drive sb bitmap m).isSome ↔
      ((slotInode drive sb m).type ≠ 0 → ∃ z, (slotInode drive sb m).dataBlocks z = 0) := by
  rw [markSlot]
  by_cases htype : (slotInode drive sb m).type = 0
  · rw [if_pos htype]
    exact ⟨fun _ h => absurd htype h, fun _ => rfl⟩
  · rw [if_neg htype]
    constructor
    · intro hsome _
      by_contra hzero
      have hnone : markArray sb.totalDataBlocks (slotInode drive sb m) bitmap = none :=
        markBlocks_eq_none bitmap (not_exists.1 hzero)
      rw [hnone] at hsome
      exact absurd hsome (by simp)
    · intro hzero
      obtain ⟨z, hz⟩ := hzero htype
      obtain ⟨bitmap', hmark, -⟩ := markArray_of_zero bitmap (hslots m hm htype).1 hz
      rw [hmark]
      rfl

/-- What one turn marks. -/
theorem markSlot_eq_some (hslots : DirectSlots drive sb) (hm : m < sb.totalInodes)
    (h : markSlot markArray drive sb bitmap m = some bitmap') (b : ℕ) :
    bitmap' b = true ↔ bitmap b = true ∨
      (slotInode drive sb m).type ≠ 0 ∧ Scans (slotInode drive sb m) b := by
  have hsome : (markSlot markArray drive sb bitmap m).isSome := by rw [h]; rfl
  have hzero := (markSlot_isSome_iff hslots hm).1 hsome
  rw [markSlot] at h
  split_ifs at h with htype
  · cases h
    simp [htype]
  · obtain ⟨z, hz⟩ := hzero htype
    obtain ⟨bitmap'', hmark, hbits⟩ := markArray_of_zero bitmap (hslots m hm htype).1 hz
    cases hmark.symm.trans h
    rw [hbits]
    simp [htype]

/-- The turns for the first `m` inodes stay in the arrays exactly if all that are occupied have a zero
entry. -/
theorem foldlM_markSlot_isSome_iff (hslots : DirectSlots drive sb) (hm : m ≤ sb.totalInodes) :
    ((List.range m).foldlM (markSlot markArray drive sb) bitmap).isSome ↔
      ∀ i, OccupiedBelow drive sb m i → ∃ z, (slotInode drive sb i).dataBlocks z = 0 := by
  induction m with
  | zero => exact ⟨fun _ i hi => absurd hi.1 (Nat.not_lt_zero i), fun _ => rfl⟩
  | succ m ih =>
    have ih := ih (by omega)
    simp only [occupiedBelow_succ, or_imp, forall_and, ← ih, List.range_succ, List.foldlM_append]
    cases (List.range m).foldlM (markSlot markArray drive sb) bitmap with
    | none => simp
    | some bitmap =>
      have hstep : (markSlot markArray drive sb bitmap m).isSome ↔ _ :=
        markSlot_isSome_iff hslots hm
      simpa using hstep

/-- **What the turns for the first `m` inodes mark.** -/
theorem foldlM_markSlot_eq_some (hslots : DirectSlots drive sb) (hm : m ≤ sb.totalInodes)
    (h : (List.range m).foldlM (markSlot markArray drive sb) bitmap = some bitmap') (b : ℕ) :
    bitmap' b = true ↔ bitmap b = true ∨
      ∃ i, OccupiedBelow drive sb m i ∧ Scans (slotInode drive sb i) b := by
  induction m generalizing bitmap' with
  | zero =>
    cases h
    exact ⟨Or.inl, fun hb => hb.resolve_right fun ⟨i, hi, _⟩ => absurd hi.1 (Nat.not_lt_zero i)⟩
  | succ m ih =>
    rw [List.range_succ, List.foldlM_append] at h
    obtain ⟨before, hbefore, h⟩ := Option.bind_eq_some_iff.1 h
    have hstep : markSlot markArray drive sb before m = some bitmap' := by simpa using h
    rw [markSlot_eq_some hslots hm hstep, ih (by omega) hbefore, or_assoc]
    refine or_congr_right ?_
    simp only [occupiedBelow_succ, or_and_right, exists_or]
    refine or_congr_right ⟨fun ⟨htype, hb⟩ => ⟨m, ⟨rfl, htype⟩, hb⟩, ?_⟩
    rintro ⟨i, ⟨rfl, htype⟩, hb⟩
    exact ⟨htype, hb⟩

theorem markedBitmap_eq (harea : InodeArea drive sb) (hpos : 0 < sb.totalDataBlocks) :
    markedBitmap drive sb =
      (List.range sb.totalInodes).foldlM (markSlot markArray drive sb) emptyBitmap := by
  obtain ⟨table, -, hloop⟩ := initLoop_eq harea markArray emptyBitmap le_rfl
  rw [markedBitmap, setBit, if_pos hpos]
  simp only [Option.bind_eq_bind, Option.bind_some]
  rw [emptyBitmap] at hloop ⊢
  rw [hloop]
  cases (List.range sb.totalInodes).foldlM (markSlot markArray drive sb)
    (Function.update (fun _ => false) 0 true) <;> rfl

theorem init_dataBitmap {s : Instance} (hs : Instance.init drive sb = some s) :
    markedBitmap drive sb = some s.dataBitmap := by
  rw [init_eq_initLoop] at hs
  obtain ⟨bitmap, hbitmap, hs⟩ := Option.bind_eq_some_iff.1 hs
  obtain ⟨st, hst, hs⟩ := Option.bind_eq_some_iff.1 hs
  obtain ⟨cwd, -, hs⟩ := Option.bind_eq_some_iff.1 hs
  cases hs
  rw [markedBitmap, hbitmap]
  simp only [Option.bind_eq_bind, Option.bind_some, hst]

/-- A block that the loop marks is listed, or is block `0`. -/
theorem Scans.listed {n : Inode} {b : ℕ} (h : Scans n b) : ∃ j, n.dataBlocks j = b :=
  h.imp fun _ hk => hk.2.1

theorem Rebuilt.recoverable (harea : InodeArea drive sb) (hslots : DirectSlots drive sb)
    (h : Rebuilt drive sb) : Recoverable drive sb := by
  obtain ⟨bitmap, hmarked, hbits⟩ := h.bitmap
  have hpos : 0 < sb.totalDataBlocks := by
    by_contra hnot
    rw [markedBitmap, setBit, if_neg hnot] at hmarked
    exact absurd hmarked (by simp)
  rw [markedBitmap_eq harea hpos] at hmarked
  refine ⟨hpos, (foldlM_markSlot_isSome_iff hslots le_rfl).1 (by rw [hmarked]; rfl), fun b hb => ?_⟩
  rcases (foldlM_markSlot_eq_some hslots le_rfl hmarked b).1 ((hbits b).2 (Or.inr hb)) with h0 | hscan
  · exact absurd (emptyBitmap_eq_true.1 h0) hb.1
  · exact hscan

theorem Recoverable.rebuilt (harea : InodeArea drive sb) (hslots : DirectSlots drive sb)
    (h : Recoverable drive sb) : Rebuilt drive sb := by
  have hsome : ((List.range sb.totalInodes).foldlM (markSlot markArray drive sb)
      emptyBitmap).isSome := (foldlM_markSlot_isSome_iff hslots le_rfl).2 h.zero
  obtain ⟨bitmap, hmarked⟩ := Option.isSome_iff_exists.1 hsome
  have hbits : ∀ b, bitmap b = true ↔ b = 0 ∨ OccupiedLists drive sb b := by
    intro b
    rw [foldlM_markSlot_eq_some hslots le_rfl hmarked, emptyBitmap_eq_true]
    by_cases h0 : b = 0
    · simp [h0]
    · refine or_congr_right ⟨?_, h.scanned b⟩
      rintro ⟨i, ⟨hi, htype⟩, hscan⟩
      exact ⟨h0, i, hi, htype, hscan.listed⟩
  rw [← markedBitmap_eq harea h.pos] at hmarked
  refine ⟨⟨bitmap, hmarked, hbits⟩, fun s hs i data b hb hown hlists => ?_⟩
  -- the block is listed and so its bit is set: only the inode itself could have released it
  have hbit : s.dataBitmap b = true := by
    cases (init_dataBitmap hs).symm.trans hmarked
    exact (hbits b).2 (Or.inr hlists)
  by_cases hholds : (s.inodes i).Holds b
  · rcases hholds with ⟨-, rfl⟩ | ⟨-, j, hj⟩
    · exact hlists.1 rfl
    · exact hown j hj
  · have hset := release_eq_true.2 ⟨hbit, hholds⟩
    rw [not_release_of_mem_blocksOf hb] at hset
    exact Bool.noConfusion hset

/-- **The bitmap is rebuilt** exactly if no occupied inode lists ten blocks, and every listed block is
also listed behind the first position of an inode, with no zero before it. -/
theorem init_bitmap_iff (harea : InodeArea drive sb) (hslots : DirectSlots drive sb) :
    Rebuilt drive sb ↔ Recoverable drive sb :=
  ⟨fun h => h.recoverable harea hslots, fun h => h.rebuilt harea hslots⟩

/-- No block is listed twice. -/
def Unshared (drive : File) (sb : SuperBlock) : Prop :=
  ∀ i k j l, OccupiedBelow drive sb sb.totalInodes i → OccupiedBelow drive sb sb.totalInodes k →
    (slotInode drive sb i).dataBlocks j = (slotInode drive sb k).dataBlocks l →
    (slotInode drive sb i).dataBlocks j ≠ 0 → i = k ∧ j = l

/-- A marked block stands behind the first position, and so the first block of an inode is not
marked if it is listed only there. -/
theorem Unshared.first_not_scanned (h : Unshared drive sb) {i k : ℕ}
    (hi : OccupiedBelow drive sb sb.totalInodes i) (hk : OccupiedBelow drive sb sb.totalInodes k)
    (hne : (slotInode drive sb i).dataBlocks 0 ≠ 0) :
    ¬Scans (slotInode drive sb k) ((slotInode drive sb i).dataBlocks 0) := by
  rintro ⟨l, hl, heq, -⟩
  obtain ⟨-, rfl⟩ := h i k 0 l hi hk heq.symm hne
  exact absurd hl (lt_irrefl _)

/-- **Where no block is listed twice, only drives without blocks are recovered.** -/
theorem Recoverable.iff_of_unshared (h : Unshared drive sb) :
    Recoverable drive sb ↔ 0 < sb.totalDataBlocks ∧ ∀ b, ¬OccupiedLists drive sb b := by
  constructor
  · refine fun hrecover => ⟨hrecover.pos, fun b hb => ?_⟩
    -- the block is marked for some inode, and the first block of that inode would be marked too
    obtain ⟨i, hi, k, hk, -, hbefore⟩ := hrecover.scanned b hb
    have hfirst : (slotInode drive sb i).dataBlocks 0 ≠ 0 := hbefore 0 hk
    obtain ⟨i', hi', hscan⟩ := hrecover.scanned _ ⟨hfirst, i, hi.1, hi.2, 0, rfl⟩
    exact h.first_not_scanned hi hi' hfirst hscan
  · rintro ⟨hpos, hnone⟩
    refine ⟨hpos, fun i hi => ⟨0, ?_⟩, fun b hb => absurd hb (hnone b)⟩
    by_contra hne
    exact hnone _ ⟨hne, i, hi.1, hi.2, 0, rfl⟩

end Loop

section Small

variable {s : Instance}

/-- In a volume in sync no block is listed twice. -/
theorem Synced.unshared (hs : Synced s) (h : Inv s) : Unshared s.drive s.sb := by
  intro i k j l hi hk heq hne
  rw [(hs i hi.1).dataBlocks] at heq hne
  rw [(hs k hk.1).dataBlocks] at heq
  exact h.owned.occurs_once heq hne

theorem init_bitmap_small : Rebuilt smallVolume.drive smallVolume.sb := by
  have hinv := smallVolume_inv
  refine (init_bitmap_iff hinv.inodeArea hinv.directSlots).2
    ((Recoverable.iff_of_unshared (smallVolume_synced.unshared hinv)).2
      ⟨hinv.formatted.totalDataBlocks_pos, ?_⟩)
  rintro b ⟨hb, i, hi, -, j, hj⟩
  rw [(smallVolume_synced i hi).dataBlocks] at hj
  exact hb (hj.symm.trans (fresh_dataBlocks (fun i _ j => newInodes_dataBlocks i j) _ i j))

/-- After `write a x` the block of the file is on the drive and, once the drive is mounted again, not
in the bitmap. -/
theorem wroteVolume_not_rebuilt : ∃ b, OccupiedLists wroteVolume.drive wroteVolume.sb b ∧
    (∀ bitmap, markedBitmap wroteVolume.drive wroteVolume.sb = some bitmap → bitmap b = false) ∧
    ¬Rebuilt wroteVolume.drive wroteVolume.sb := by
  have hinv := wroteVolume_inv
  have h9 : 9 < wroteVolume.sb.totalInodes := smallVolume_largestFree.lt
  have hslot := wroteVolume_synced 9 h9
  have htype : (slotInode wroteVolume.drive wroteVolume.sb 9).type = 1 :=
    hslot.type.trans ((written_type 9).trans (congrArg Inode.type touchedVolume_inodes))
  have hocc : OccupiedBelow wroteVolume.drive wroteVolume.sb wroteVolume.sb.totalInodes 9 :=
    ⟨h9, by rw [htype]; decide⟩
  have hne : (slotInode wroteVolume.drive wroteVolume.sb 9).dataBlocks 0 ≠ 0 := by
    rw [hslot.dataBlocks]
    exact wroteVolume_block
  have hlists : OccupiedLists wroteVolume.drive wroteVolume.sb
      ((slotInode wroteVolume.drive wroteVolume.sb 9).dataBlocks 0) :=
    ⟨hne, 9, hocc.1, hocc.2, 0, rfl⟩
  have hunshared := wroteVolume_synced.unshared hinv
  refine ⟨_, hlists, fun bitmap hbitmap => ?_, fun h => ?_⟩
  · rw [markedBitmap_eq hinv.inodeArea hinv.formatted.totalDataBlocks_pos] at hbitmap
    rw [Bool.eq_false_iff, ne_eq, foldlM_markSlot_eq_some hinv.directSlots le_rfl hbitmap,
      emptyBitmap_eq_true]
    rintro (h0 | ⟨i, hi, hscan⟩)
    · exact hne h0
    · exact hunshared.first_not_scanned hocc hi hne hscan
  · have hrecover := h.recoverable hinv.inodeArea hinv.directSlots
    exact ((Recoverable.iff_of_unshared hunshared).1 hrecover).2 _ hlists

end Small

end MufaFs
