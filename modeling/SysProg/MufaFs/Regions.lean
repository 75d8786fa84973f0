import SysProg.MufaFs.Layout

/-!
# The regions of a volume

`createDriveImage` derives the fields of the superblock from the size of the drive.  The fixed 80
bytes are taken off before the size is divided into blocks, the reserved block is not, and so the
data blocks end behind the drive, by one block at most.  Below 80 bytes the subtraction wraps around.

* `VolumeLayout`: no field has wrapped, the regions follow each other, and they end inside the drive;
* `newSuperBlock_regions`: the part of this that holds from 80 bytes on;
* `createDriveImage_layout_iff`: all of it holds of the sizes that are rejected, and of no other.
-/

namespace MufaFs

open ByteFile

/-- The regions that a superblock describes, each with its first address and the one behind its last:
the superblock with its padding, the reserved blocks, the slots of the inodes, and the data blocks. -/
def SuperBlock.regions (sb : SuperBlock) : List (ℕ × ℕ) :=
  [(0, sizeofSuperBlock + 10),
    (sizeofSuperBlock + 10, sizeofSuperBlock + 10 + sb.reservedBlocks * sb.blockSize),
    (sb.inodesStart, sb.inodesStart + sb.totalInodes * sb.inodeSize * sb.blockSize),
    (sb.dataBlockStart, sb.dataBlockStart + sb.totalDataBlocks * sb.blockSize)]

/-- The computed fields are what the formulas of `createDriveImage` give in the integers. -/
structure Unwrapped (sb : SuperBlock) (size : ℕ) : Prop where
  totalBlocks : (sb.totalBlocks : ℤ) = ((size : ℤ) - (sizeofSuperBlock + 10)) / sb.blockSize
  inodesStart : sb.inodesStart = sizeofSuperBlock + 10 + sb.reservedBlocks * sb.blockSize
  totalInodes : sb.totalInodes = sb.totalBlocks / 30
  dataBlockStart : sb.dataBlockStart =
    sb.inodesStart + sb.totalInodes * sb.blockSize * sb.inodeSize
  totalDataBlocks : (sb.totalDataBlocks : ℤ) = sb.totalBlocks - sb.totalInodes

/-- One region after another. -/
structure Ordered (sb : SuperBlock) : Prop where
  proper : ∀ r ∈ sb.regions, r.1 ≤ r.2
  disjoint : sb.regions.Pairwise fun r r' => r.2 ≤ r'.1

/-- The layout that a superblock describes on a drive of `size` bytes. -/
structure VolumeLayout (sb : SuperBlock) (size : ℕ) : Prop where
  unwrapped : Unwrapped sb size
  ordered : Ordered sb
  inside : sb.dataBlockStart + sb.totalDataBlocks * sb.blockSize ≤ size

/-- `createDriveImage` rejects the size, or writes a superblock that describes such a layout. -/
def LaidOut (name : List Byte) (size : ℕ) (next : UInt16) : Prop :=
  createDriveImage name size next = none ∨
    ∃ img, createDriveImage name size next = some img ∧ VolumeLayout (readSuperblock img) size

section Regions

variable {name : List Byte} {size : ℕ} {next : UInt16}

theorem newSuperBlock_totalBlocks (name : List Byte) (next : UInt16) (h80 : 80 ≤ size)
    (h : size < 2 ^ 64) : (newSuperBlock name size next).totalBlocks = (size - 80) / 256 := by
  simp only [newSuperBlock, sizeofSuperBlock, u64]
  omega

/-- The data blocks end where all blocks but the reserved one are used up. -/
theorem Formatted.dataBlocks_end {sb : SuperBlock} (hf : Formatted sb)
    (htotal : sb.totalDataBlocks = sb.totalBlocks - sb.totalInodes)
    (hle : sb.totalInodes ≤ sb.totalBlocks) :
    sb.dataBlockStart + sb.totalDataBlocks * sb.blockSize = 336 + 256 * sb.totalBlocks := by
  rw [hf.dataBlockStart, hf.blockSize, htotal]
  omega

theorem newSuperBlock_end (h10 : 10 ≤ (newSuperBlock name size next).totalInodes) :
    (newSuperBlock name size next).dataBlockStart +
        (newSuperBlock name size next).totalDataBlocks * (newSuperBlock name size next).blockSize =
      336 + 256 * (newSuperBlock name size next).totalBlocks :=
  (newSuperBlock_formatted h10).dataBlocks_end rfl (Nat.div_le_self _ 30)

theorem createDriveImage_eq_none_iff :
    createDriveImage name size next = none ↔ (newSuperBlock name size next).totalInodes < 10 := by
  rw [createDriveImage]
  split_ifs with h
  · exact ⟨fun _ => h, fun _ => rfl⟩
  · exact ⟨fun e => absurd e (by simp), fun hlt => absurd hlt h⟩

/-- From 80 bytes on no field wraps and the regions follow each other, but the data blocks end behind
the drive, by one block at most. -/
theorem newSuperBlock_regions (h80 : 80 ≤ size) (h : size < 2 ^ 64)
    (h10 : 10 ≤ (newSuperBlock name size next).totalInodes) :
    Unwrapped (newSuperBlock name size next) size ∧ Ordered (newSuperBlock name size next) ∧
      size < (newSuperBlock name size next).dataBlockStart +
        (newSuperBlock name size next).totalDataBlocks * (newSuperBlock name size next).blockSize ∧
      (newSuperBlock name size next).dataBlockStart +
        (newSuperBlock name size next).totalDataBlocks * (newSuperBlock name size next).blockSize ≤
      size + 256 := by
  have hf := newSuperBlock_formatted h10
  have htotal := newSuperBlock_totalBlocks name next h80 h
  have hres := newSuperBlock_reservedBlocks name size next
  have hle : (newSuperBlock name size next).totalInodes ≤
      (newSuperBlock name size next).totalBlocks := Nat.div_le_self _ 30
  have h70 : sizeofSuperBlock = 70 := rfl
  refine ⟨⟨?_, ?_, rfl, ?_, ?_⟩, ⟨?_, ?_⟩, ?_⟩
  · rw [htotal, hf.blockSize, h70]
    omega
  · rw [hf.inodesStart, hres, hf.blockSize, h70]
  · rw [hf.dataBlockStart, hf.inodesStart, hf.blockSize, hf.inodeSize]
    omega
  · exact Int.ofNat_sub hle
  · simp [SuperBlock.regions]
  · simp only [SuperBlock.regions, List.pairwise_cons, List.mem_cons, List.not_mem_nil, or_false,
      forall_eq_or_imp, forall_eq, hf.inodesStart, hf.dataBlockStart, hf.blockSize, hf.inodeSize,
      hres, h70, IsEmpty.forall_iff, implies_true, List.Pairwise.nil, and_true]
    omega
  · rw [newSuperBlock_end h10, htotal]
    omega

/-- The sizes that are rejected. Below 80 bytes the wrapped number of blocks is large enough. -/
theorem newSuperBlock_totalInodes_lt_iff (h : size < 2 ^ 64) :
    (newSuperBlock name size next).totalInodes < 10 ↔ 80 ≤ size ∧ size < 76880 := by
  simp only [newSuperBlock, sizeofSuperBlock, u64]
  omega

end Regions

/-- **The layout of a volume** is as promised exactly for the sizes from 80 to 76879 bytes, and these
are the sizes that are rejected. -/
theorem createDriveImage_layout_iff (name : List Byte) (size : UInt64) (next : UInt16) :
    LaidOut name size.toNat next ↔ 80 ≤ size.toNat ∧ size.toNat < 76880 := by
  have h := size.toNat_lt
  rw [← newSuperBlock_totalInodes_lt_iff h, LaidOut, createDriveImage_eq_none_iff]
  refine ⟨fun hlaid => ?_, Or.inl⟩
  rcases hlaid with hlt | ⟨img, himg, hlayout⟩
  · exact hlt
  · rw [readSuperblock_image himg] at hlayout
    by_contra hge
    have h10 : 10 ≤ (newSuperBlock name size.toNat next).totalInodes := by omega
    by_cases h80 : 80 ≤ size.toNat
    · have := (newSuperBlock_regions h80 h h10).2.2.1
      have := hlayout.inside
      omega
    · -- the number of blocks has wrapped around, and is no quotient of a negative number
      have htotal := hlayout.unwrapped.totalBlocks
      rw [(newSuperBlock_formatted h10).blockSize] at htotal
      have h70 : sizeofSuperBlock = 70 := rfl
      omega

/-- The drive of two megabytes that `main` makes: its data blocks end 80 bytes behind it. -/
theorem createDriveImage_overruns : ¬LaidOut (ascii "drive_name") 2097152 0 := by
  have h10 : 10 ≤ (newSuperBlock (ascii "drive_name") 2097152 0).totalInodes := by
    rw [← not_lt, newSuperBlock_totalInodes_lt_iff (by norm_num)]
    norm_num
  have hend := (newSuperBlock_regions (by norm_num) (by norm_num) h10).2.2.1
  rintro (hnone | ⟨img, himg, hlayout⟩)
  · exact absurd (createDriveImage_eq_none_iff.1 hnone) (not_lt.2 h10)
  · rw [readSuperblock_image himg] at hlayout
    exact absurd hlayout.inside (not_le.2 hend)

end MufaFs
