import SysProg.MufaFs.Instance

/-!
# The layout of an image

`Formatted sb` collects what `createDriveImage` puts into a superblock.  On a formatted volume no
address computation of `write_inode` or of the data blocks wraps, except for the root: its `self`
field `-1` takes `write_inode` to offset 80, into the reserved block (`inodeAddr_root`).

* `formatDrive_byte`: every byte of an image: the superblock, the root in slot `0`, and zeros;
* `newSuperBlock_formatted`: the superblock of an image is formatted;
* `readSuperblock_image`: mounting reads back the superblock that was written.
-/

namespace MufaFs

open ByteFile

/-! ### Zero fill -/

section Purge

theorem purge_of_le {f : File} {n : ℕ} (h : n ≤ 4096) :
    purge f n = f.fwrite (List.replicate n 0) := by
  rw [purge, if_neg (by omega)]

theorem purge_of_lt {f : File} {n : ℕ} (h : 4096 < n) :
    purge f n = purge (f.fwrite (List.replicate 4096 0)) (n - 4096) := by
  rw [purge, if_pos h]

theorem byte_fwrite_zeros (f : File) (n p : ℕ) : (f.fwrite (List.replicate n 0)).byte p =
    if f.pos ≤ p ∧ p < f.pos + n then 0 else f.byte p := by
  simp only [File.fwrite, List.length_replicate]
  split_ifs with h
  · rw [List.getD_eq_getElem _ _ (by simp; omega), List.getElem_replicate]
  · rfl

theorem purge_byte (f : File) (n p : ℕ) :
    (purge f n).byte p = if f.pos ≤ p ∧ p < f.pos + n then 0 else f.byte p := by
  induction n using Nat.strong_induction_on generalizing f with
  | _ n ih =>
    by_cases h : 4096 < n
    · rw [purge_of_lt h, ih _ (by omega), byte_fwrite_zeros, File.fwrite_pos,
        List.length_replicate]
      split_ifs <;> first | rfl | omega
    · rw [purge_of_le (by omega), byte_fwrite_zeros]

@[simp] theorem purge_pos (f : File) (n : ℕ) : (purge f n).pos = f.pos + n := by
  induction n using Nat.strong_induction_on generalizing f with
  | _ n ih =>
    by_cases h : 4096 < n
    · rw [purge_of_lt h, ih _ (by omega), File.fwrite_pos, List.length_replicate]
      omega
    · simp [purge_of_le (show n ≤ 4096 by omega)]

/-- Zero fill extends the file just far enough. -/
theorem purge_size (f : File) {n : ℕ} (hn : 0 < n) : (purge f n).size = max f.size (f.pos + n) := by
  induction n using Nat.strong_induction_on generalizing f with
  | _ n ih =>
    by_cases h : 4096 < n
    · rw [purge_of_lt h, ih _ (by omega) _ (by omega)]
      simp only [File.fwrite, List.length_replicate]
      rw [if_neg (by simp)]
      omega
    · rw [purge_of_le (by omega)]
      simp only [File.fwrite, List.length_replicate]
      rw [if_neg (by simp [hn.ne'])]

end Purge

/-! ### Formatted superblocks -/

/-- The layout that `createDriveImage` chooses. -/
structure Formatted (sb : SuperBlock) : Prop where
  blockSize : sb.blockSize = 256
  inodeSize : sb.inodeSize = 1
  inodesStart : sb.inodesStart = 336
  totalInodes : 10 ≤ sb.totalInodes
  dataBlockStart : sb.dataBlockStart = 336 + 256 * sb.totalInodes
  manyBlocks : 29 * sb.totalInodes ≤ sb.totalDataBlocks
  fits : 256 * (sb.totalInodes + sb.totalDataBlocks) ≤ 2 ^ 64 - 256

namespace Formatted

variable {sb : SuperBlock} (h : Formatted sb)
include h

theorem inodeAddr {i : ℕ} (hi : i < sb.totalInodes) : sb.inodeAddr i = 336 + 256 * i := by
  have := h.fits
  have := h.manyBlocks
  rw [SuperBlock.inodeAddr, h.inodesStart, h.inodeSize, h.blockSize, u64, Nat.mod_eq_of_lt] <;>
    omega

/-- The root is written below the inode slots. -/
theorem inodeAddr_root : sb.inodeAddr rootSelf = 80 := by
  rw [SuperBlock.inodeAddr, h.inodesStart, h.inodeSize, h.blockSize, rootSelf, u64]
  norm_num

theorem blockAddr {b : ℕ} (hb : b < sb.totalDataBlocks) :
    sb.blockAddr b = 336 + 256 * sb.totalInodes + 256 * b := by
  have := h.fits
  rw [SuperBlock.blockAddr, h.dataBlockStart, h.blockSize, u64, Nat.mod_eq_of_lt] <;> omega

theorem inodesSize : sb.inodesSize = 256 * sb.totalInodes := by
  have := h.fits
  have := h.manyBlocks
  rw [SuperBlock.inodesSize, h.inodeSize, h.blockSize, u64, Nat.mod_eq_of_lt] <;> omega

theorem totalDataBlocks_pos : 0 < sb.totalDataBlocks := by
  have := h.manyBlocks
  have := h.totalInodes
  omega

/-- `ROOT_SELF` is no index into the vector of inodes. -/
theorem inodesSize_le_rootSelf : sb.inodesSize ≤ rootSelf := by
  have := h.fits
  have := h.manyBlocks
  rw [h.inodesSize, rootSelf]
  omega

theorem totalInodes_lt_rootSelf : sb.totalInodes < rootSelf := by
  have := h.inodesSize
  have := h.inodesSize_le_rootSelf
  have := h.totalInodes
  omega

end Formatted

/-! ### The image -/

@[simp] theorem encode_length (n : Inode) : n.encode.length = sizeofInode := by
  rw [Inode.encode, Packed.pack_length (by rfl)]
  rfl

/-- Decoding the bytes of a superblock whose fields fit their widths gives it back. -/
theorem SuperBlock.decode_encode {sb : SuperBlock} (hlen : sb.volumeName.length = 16)
    (hfit : List.Forall₂ (fun w v => v < 256 ^ w) SuperBlock.widths
      [sb.blockSize, sb.totalBlocks, sb.reservedBlocks, sb.inodesStart, sb.inodeSize,
        sb.totalInodes, sb.dataBlockStart, sb.totalDataBlocks, sb.nextVolumes])
    (rest : List Byte) : SuperBlock.decode (sb.encode ++ rest) = sb := by
  rw [SuperBlock.decode, SuperBlock.encode, List.append_assoc,
    List.drop_append_of_le_length hlen.ge, List.drop_of_length_le hlen.le, List.nil_append,
    Packed.unpack_pack hfit, List.take_append_of_le_length hlen.ge, List.take_of_length_le hlen.le]
  rfl

section Image

variable {sb : SuperBlock} {size : ℕ}

theorem formatDrive_eq (hf : Formatted sb) (hres : sb.reservedBlocks = 1) :
    formatDrive sb size = ((purge (purge ((((File.empty.fseek size).fwrite [0]).fseek 0).fwrite
      sb.encode) 266) (256 * sb.totalInodes)).fseek 336).fwrite rootInode.encode := by
  have hfill : u64 (sb.totalInodes * 1 * 256) = 256 * sb.totalInodes := by
    rw [← hf.inodesSize, SuperBlock.inodesSize, hf.blockSize, hf.inodeSize, mul_assoc]
  have hres' : 10 + 1 * 256 = 266 := rfl
  have h10 := hf.totalInodes
  have hroot : sb.inodeAddr 0 = 336 := hf.inodeAddr (by omega)
  simp only [formatDrive, mkdirRoot, writeRootInode, hroot, hf.blockSize, hf.inodeSize, hres,
    hfill, hres']

/-- Every byte of an image: the superblock, the root in slot `0`, and zeros. -/
theorem formatDrive_byte (hf : Formatted sb) (hres : sb.reservedBlocks = 1)
    (hlen : sb.encode.length = 70) (p : ℕ) : (formatDrive sb size).byte p =
      if p < 70 then sb.encode.getD p 0
      else if 336 ≤ p ∧ p < 457 then rootInode.encode.getD (p - 336) 0 else 0 := by
  have h10 := hf.totalInodes
  have hinode : rootInode.encode.length = 121 := encode_length _
  have hzero : ([0] : List Byte).getD (p - size) 0 = 0 := by cases p - size <;> rfl
  rw [formatDrive_eq hf hres]
  simp only [File.fwrite, File.fseek, purge_byte, purge_pos, hlen, hinode, File.empty, hzero,
    ite_self, Nat.sub_zero]
  split_ifs <;> first | omega | rfl

variable (size) in
theorem formatDrive_size (hf : Formatted sb) (hres : sb.reservedBlocks = 1)
    (hlen : sb.encode.length = 70) :
    (formatDrive sb size).size = max (size + 1) (336 + 256 * sb.totalInodes) := by
  have h10 := hf.totalInodes
  have hinode : rootInode.encode.length = 121 := encode_length _
  have hne : rootInode.encode ≠ [] := List.ne_nil_of_length_pos (by omega)
  have hne' : sb.encode ≠ [] := List.ne_nil_of_length_pos (by omega)
  have hpos : 0 < 256 * sb.totalInodes := by omega
  rw [formatDrive_eq hf hres, File.fwrite, if_neg hne, File.fseek, purge_size _ hpos, purge_pos,
    purge_size _ (by norm_num), File.fwrite, if_neg hne', File.fseek, File.fwrite,
    if_neg (List.cons_ne_nil _ _), File.fseek, hlen, hinode]
  simp only [File.empty, List.length_singleton]
  omega

/-- A superblock that fits is read back from the image it was written to. -/
theorem readSuperblock_formatDrive (hf : Formatted sb) (hres : sb.reservedBlocks = 1)
    (hlen : sb.encode.length = 70) (hdec : SuperBlock.decode sb.encode = sb) :
    readSuperblock (formatDrive sb size) = sb := by
  have h10 := hf.totalInodes
  have hsize := formatDrive_size size hf hres hlen
  have hslice : (formatDrive sb size).slice 0 70 = sb.encode := by
    rw [← hlen]
    apply File.slice_eq_of_getD
    intro k hk
    rw [Nat.zero_add, formatDrive_byte hf hres hlen, if_pos (by omega)]
  rw [readSuperblock, sizeofSuperBlock, File.fread_of_le _ _ _ (by omega), hslice, hdec]

end Image

/-! ### The superblock of a new image -/

section New

variable {name : List Byte} {size : ℕ} {next : UInt16} {img : File}

theorem strcpy_newVolume_length (name : List Byte) :
    (strcpy newVolume (name.take 15)).length = 16 := by
  have h : ((name.take 15).takeWhile (· ≠ 0)).length ≤ 15 :=
    (List.takeWhile_prefix _).length_le.trans (by simp)
  have h16 : newVolume.length = 16 := rfl
  simp only [strcpy, List.length_append, List.length_cons, List.length_drop, h16]
  omega

theorem newSuperBlock_formatted (h : 10 ≤ (newSuperBlock name size next).totalInodes) :
    Formatted (newSuperBlock name size next) := by
  simp only [newSuperBlock, sizeofSuperBlock, u64] at h ⊢
  constructor <;> simp only <;> omega

theorem newSuperBlock_totalBlocks_lt (name : List Byte) (size : ℕ) (next : UInt16) :
    (newSuperBlock name size next).totalBlocks < 2 ^ 56 := by
  simp only [newSuperBlock, u64, sizeofSuperBlock]
  omega

theorem newSuperBlock_reservedBlocks (name : List Byte) (size : ℕ) (next : UInt16) :
    (newSuperBlock name size next).reservedBlocks = 1 := rfl

/-- The fields of a new superblock fit their widths. -/
theorem newSuperBlock_fits (h : 10 ≤ (newSuperBlock name size next).totalInodes) :
    List.Forall₂ (fun w v => v < 256 ^ w) SuperBlock.widths
      [(newSuperBlock name size next).blockSize, (newSuperBlock name size next).totalBlocks,
        (newSuperBlock name size next).reservedBlocks, (newSuperBlock name size next).inodesStart,
        (newSuperBlock name size next).inodeSize, (newSuperBlock name size next).totalInodes,
        (newSuperBlock name size next).dataBlockStart,
        (newSuperBlock name size next).totalDataBlocks,
        (newSuperBlock name size next).nextVolumes] := by
  have hf := newSuperBlock_formatted h
  have hfit := hf.fits
  have hmany := hf.manyBlocks
  have h2 : (256 : ℕ) ^ 2 = 65536 := by norm_num
  have h8 : (256 : ℕ) ^ 8 = 2 ^ 64 := by norm_num
  have hnext : (newSuperBlock name size next).nextVolumes < 65536 := UInt16.toNat_lt next
  have htotal := newSuperBlock_totalBlocks_lt name size next
  refine .cons ?_ (.cons ?_ (.cons ?_ (.cons ?_ (.cons ?_ (.cons ?_ (.cons ?_ (.cons ?_
    (.cons ?_ .nil))))))))
  · rw [hf.blockSize, h2]; norm_num
  · rw [h8]; omega
  · rw [newSuperBlock_reservedBlocks, h8]; norm_num
  · rw [hf.inodesStart, h8]; norm_num
  · rw [hf.inodeSize, h2]; norm_num
  · rw [h8]; omega
  · rw [hf.dataBlockStart, h8]; omega
  · rw [h8]; omega
  · rw [h2]; exact hnext

theorem encode_newSuperBlock_length (name : List Byte) (size : ℕ) (next : UInt16) :
    (newSuperBlock name size next).encode.length = 70 := by
  rw [SuperBlock.encode, List.length_append, Packed.pack_length (by rfl)]
  simp [newSuperBlock, SuperBlock.widths, strcpy_newVolume_length]

theorem createDriveImage_eq_some (h : createDriveImage name size next = some img) :
    10 ≤ (newSuperBlock name size next).totalInodes ∧
      img = formatDrive (newSuperBlock name size next) size := by
  rw [createDriveImage] at h
  split_ifs at h with hlt
  exact ⟨by omega, (Option.some.inj h).symm⟩

/-- **Mounting reads back the superblock that was written.** -/
theorem readSuperblock_image (h : createDriveImage name size next = some img) :
    readSuperblock img = newSuperBlock name size next := by
  obtain ⟨h10, rfl⟩ := createDriveImage_eq_some h
  refine readSuperblock_formatDrive (newSuperBlock_formatted h10)
    (newSuperBlock_reservedBlocks _ _ _) (encode_newSuperBlock_length _ _ _) ?_
  simpa using SuperBlock.decode_encode (strcpy_newVolume_length name) (newSuperBlock_fits h10) []

end New

end MufaFs
