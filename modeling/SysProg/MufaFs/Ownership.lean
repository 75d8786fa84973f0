import SysProg.MufaFs.Creation

/-!
# Who owns which block

* `session_blocks_owned`: between the commands of a session the bitmap is the exact map of the
  blocks that inodes hold, no block has two owners, and block `0` stays with the root;
* `writeFile_isolated`: at any moment of a session, `write_file` leaves alone the blocks and the
  slots of the other inodes, and the superblock.
-/

namespace MufaFs

open ByteFile FirstFit Instance Relation

section Ownership

variable {s t u : Instance} {f g : ℕ} {data : List Byte}

/-- No nonzero block occurs twice in the lists of blocks. -/
theorem OwnedOk.occurs_once (h : OwnedOk s) {i k : ℕ} {j l : Fin 10}
    (heq : (s.inodes i).dataBlocks j = (s.inodes k).dataBlocks l)
    (hne : (s.inodes i).dataBlocks j ≠ 0) : i = k ∧ j = l := by
  have hik : i = k := h.partitioned.holder_unique i k _ (Or.inr ⟨hne, j, rfl⟩)
    (Or.inr ⟨hne, l, heq.symm⟩)
  subst hik
  exact ⟨rfl, h.distinct i j l heq hne⟩

/-- A bit is set for block `0` and for the blocks that occur in the lists. -/
theorem Inv.bit_iff (h : Inv s) (b : ℕ) : s.dataBitmap b = true ↔
    b = 0 ∨ ∃ i < s.sb.inodesSize, ∃ j, (s.inodes i).dataBlocks j = b := by
  have h10 := h.formatted.totalInodes
  have hsize := h.formatted.inodesSize
  refine (h.owned.partitioned.used_iff b).trans ⟨?_, ?_⟩
  · rintro ⟨i, ⟨-, rfl⟩ | ⟨hb, j, hj⟩⟩
    · exact Or.inl rfl
    · refine Or.inr ⟨i, ?_, j, hj⟩
      by_contra hi
      rw [h.table.spare i (by omega)] at hj
      exact hb hj.symm
  · rintro (rfl | ⟨i, -, j, hj⟩)
    · exact ⟨0, h.table.root_holds⟩
    · by_cases hb : b = 0
      · exact ⟨0, hb ▸ h.table.root_holds⟩
      · exact ⟨i, Or.inr ⟨hb, j, hj⟩⟩

/-- `write_file` takes block `0` for nobody but the root. -/
theorem Inv.zero_not_mem_blocks (h : Inv s) (hf : f ≠ 0) : 0 ∉ blocksOf s f data :=
  MufaFs.zero_not_mem_blocksOf data (h.table.self_ne_rootSelf h.formatted hf)
    (h.owned.bit_zero h.table)

/-- The blocks of another inode are not written. -/
theorem Inv.written_byte_of_holds (h : Inv s) (hf : f < s.sb.totalInodes) (hg : g ≠ f) {b k : ℕ}
    (hb : (s.inodes g).Holds b) (hk : k < s.sb.blockSize) :
    (written s f data).drive.byte (s.sb.blockAddr b + k) = s.drive.byte (s.sb.blockAddr b + k) :=
  written_byte_block h.formatted (h.table.selfOk hf) (h.owned.lt_of_holds h.formatted hb)
    (fun hmem => h.owned.not_holds_of_mem_blocksOf hmem hg hb) hk

/-- The slot of another inode is not written. -/
theorem Inv.written_byte_of_slot (h : Inv s) (hf : f < s.sb.totalInodes)
    (hg : g < s.sb.totalInodes) (hne : g ≠ f) {k : ℕ} (hk : k < s.sb.blockSize) :
    (written s f data).drive.byte (s.sb.inodeAddr g + k) = s.drive.byte (s.sb.inodeAddr g + k) := by
  refine written_byte_slot h.formatted (h.table.selfOk hf) hg ?_ hk
  rw [h.table.self_ite hf]
  split_ifs with h0
  · have := h.formatted.totalInodes_lt_rootSelf
    omega
  · exact hne.symm

/-- The superblock is not written. -/
theorem Inv.written_byte_of_superblock (h : Inv s) (hf : f < s.sb.totalInodes) {p : ℕ}
    (hp : p < sizeofSuperBlock) : (written s f data).drive.byte p = s.drive.byte p := by
  have h70 : sizeofSuperBlock = 70 := rfl
  have hblock := h.formatted.blockAddr h.formatted.totalDataBlocks_pos
  refine written_byte_head h.formatted (by omega) (Or.inl ?_)
  rcases h.table.selfOk hf with hself | hself
  · rw [h.formatted.inodeAddr hself]
    omega
  · rw [hself, h.formatted.inodeAddr_root]
    omega

end Ownership

/-- **Block ownership between the commands of a session.** No nonzero block occurs twice, the bitmap
has set the bits of block `0` and of the blocks that occur, and no later call of `write_file` takes
block `0` for another inode than the root or writes into it. -/
theorem session_blocks_owned {s : Instance} (hs : Session s) :
    (∀ i k j l, (s.inodes i).dataBlocks j = (s.inodes k).dataBlocks l →
      (s.inodes i).dataBlocks j ≠ 0 → i = k ∧ j = l) ∧
    (∀ b, s.dataBitmap b = true ↔
      b = 0 ∨ ∃ i < s.sb.inodesSize, ∃ j, (s.inodes i).dataBlocks j = b) ∧
    ∀ u, ReflTransGen Micro s u → ∀ f t data, f ≠ 0 → f < u.sb.totalInodes →
      u.writeFile f data = some t → 0 ∉ blocksOf u f data ∧ t.dataBitmap 0 = true ∧
        ∀ k < u.sb.blockSize,
          t.drive.byte (u.sb.blockAddr 0 + k) = u.drive.byte (u.sb.blockAddr 0 + k) := by
  have hinv := hs.inv
  refine ⟨fun i k j l => hinv.owned.occurs_once, hinv.bit_iff, ?_⟩
  intro u hu f t data h0 hf ht
  have hu_inv := hinv.star hu
  obtain ⟨hlen, rfl⟩ := hu_inv.writeFile_eq_some ht
  have htable : TableOk (written u f data) := hu_inv.table.of_dataBlocks hf rfl rfl
  exact ⟨hu_inv.zero_not_mem_blocks h0, (hu_inv.owned_written hf hlen).bit_zero htable,
    fun k hk => hu_inv.written_byte_of_holds hf h0.symm hu_inv.table.root_holds hk⟩

theorem wroteVolume_blocks_owned :
    (∀ i k j l, (wroteVolume.inodes i).dataBlocks j = (wroteVolume.inodes k).dataBlocks l →
      (wroteVolume.inodes i).dataBlocks j ≠ 0 → i = k ∧ j = l) ∧
    ∀ b, wroteVolume.dataBitmap b = true ↔
      b = 0 ∨ ∃ i < wroteVolume.sb.inodesSize, ∃ j, (wroteVolume.inodes i).dataBlocks j = b :=
  ⟨(session_blocks_owned wroteVolume_session).1, (session_blocks_owned wroteVolume_session).2.1⟩

/-- **Isolation on the drive.** At any moment of a session, a call of `write_file` leaves unchanged
the data blocks that another inode holds, the slot of another inode, and the superblock. -/
theorem writeFile_isolated {u t : Instance} {f : ℕ} {data : List Byte} (hu : Moment u)
    (hf : f < u.sb.totalInodes) (ht : u.writeFile f data = some t) :
    (∀ g < u.sb.totalInodes, g ≠ f →
      (∀ b, (u.inodes g).Holds b → ∀ k < u.sb.blockSize,
        t.drive.byte (u.sb.blockAddr b + k) = u.drive.byte (u.sb.blockAddr b + k)) ∧
      ∀ k < u.sb.blockSize,
        t.drive.byte (u.sb.inodeAddr g + k) = u.drive.byte (u.sb.inodeAddr g + k)) ∧
    ∀ p < sizeofSuperBlock, t.drive.byte p = u.drive.byte p := by
  have hinv := hu.inv
  obtain ⟨-, rfl⟩ := hinv.writeFile_eq_some ht
  exact ⟨fun g hg hne => ⟨fun b hb k hk => hinv.written_byte_of_holds hf hne hb hk,
    fun k hk => hinv.written_byte_of_slot hf hg hne hk⟩,
    fun p hp => hinv.written_byte_of_superblock hf hp⟩

/-- The listing of the root is written anew, and is empty now. -/
theorem wroteVolume_isolated :
    (∀ g < wroteVolume.sb.totalInodes, g ≠ 0 →
      (∀ b, (wroteVolume.inodes g).Holds b → ∀ k < wroteVolume.sb.blockSize,
        (written wroteVolume 0 []).drive.byte (wroteVolume.sb.blockAddr b + k) =
          wroteVolume.drive.byte (wroteVolume.sb.blockAddr b + k)) ∧
      ∀ k < wroteVolume.sb.blockSize,
        (written wroteVolume 0 []).drive.byte (wroteVolume.sb.inodeAddr g + k) =
          wroteVolume.drive.byte (wroteVolume.sb.inodeAddr g + k)) ∧
    ∀ p < sizeofSuperBlock,
      (written wroteVolume 0 []).drive.byte p = wroteVolume.drive.byte p :=
  writeFile_isolated ⟨wroteVolume, wroteVolume_session, .refl⟩
    (by have := wroteVolume_inv.formatted.totalInodes; omega)
    (wroteVolume_inv.writeFile_of_length (Nat.zero_le _))

end MufaFs
