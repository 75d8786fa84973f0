import SysProg.Lib.FirstFit
import SysProg.MufaFs.Directory

/-!
# What `write_file` does

`write_file` releases the blocks of an inode, takes the first free blocks of the bitmap for the
data, one block for every `block_size` bytes and one for no data, fills them, and commits the
inode.

* `blocksOf s i data`: the blocks it takes;
* `writeFile_eq`: it completes exactly when these are at most ten, and then leaves the volume in
  `written s i data`;
* `written_byte`, `written_block`, `written_slot`: the drive afterwards, byte by byte outside of the
  blocks and the slot, and in the blocks and the slot;
* `getDirEntry_written`, `getDirEntry_written_of_ne`: the listings afterwards, that of the inode
  itself by `parseChunks`, and those of the other inodes.
-/

namespace MufaFs

open ByteFile FirstFit Instance

/-! ### One data block -/

section DataBlock

variable {sb : SuperBlock} (drive : File) {b : ℕ} {chunk : List Byte}

theorem writeDataBlock_eq : writeDataBlock sb drive b chunk =
    ({ purge (drive.fseek (sb.blockAddr b)) sb.blockSize with
      pos := sb.blockAddr b } : File).fwrite chunk := by
  simp [writeDataBlock, File.fseekCur]

theorem writeDataBlock_byte (hc : chunk.length ≤ sb.blockSize) {p : ℕ}
    (hp : p < sb.blockAddr b ∨ sb.blockAddr b + sb.blockSize ≤ p) :
    (writeDataBlock sb drive b chunk).byte p = drive.byte p := by
  rw [writeDataBlock_eq, File.byte_fwrite_of_not_mem _ _ _ (by dsimp only; omega)]
  show (purge _ _).byte p = _
  rw [purge_byte, if_neg (by rw [File.fseek_pos]; omega), File.fseek_byte]

/-- The block holds the chunk, filled up with zeros. -/
theorem writeDataBlock_slice (hc : chunk.length ≤ sb.blockSize) :
    (writeDataBlock sb drive b chunk).slice (sb.blockAddr b) sb.blockSize =
      pad sb.blockSize chunk := by
  have hlen : (pad sb.blockSize chunk).length = sb.blockSize := by simp [pad]; omega
  have key : (writeDataBlock sb drive b chunk).slice (sb.blockAddr b)
      (pad sb.blockSize chunk).length = pad sb.blockSize chunk := by
    apply File.slice_eq_of_getD
    intro k hk
    rw [hlen] at hk
    rw [writeDataBlock_eq]
    by_cases hkc : k < chunk.length
    · rw [pad, List.getD_append _ _ _ _ hkc]
      exact File.byte_fwrite_of_lt _ _ hkc
    · rw [File.byte_fwrite_of_not_mem _ _ _ (by dsimp only; omega), pad,
        List.getD_append_right _ _ _ _ (by omega), List.getD_eq_getElem _ _ (by simp; omega),
        List.getElem_replicate]
      show (purge _ _).byte _ = _
      rw [purge_byte, if_pos (by rw [File.fseek_pos]; omega)]
  rwa [hlen] at key

theorem writeDataBlock_size (hbs : 0 < sb.blockSize) (hc : chunk.length ≤ sb.blockSize) :
    (writeDataBlock sb drive b chunk).size =
      max drive.size (sb.blockAddr b + sb.blockSize) := by
  rw [writeDataBlock_eq]
  simp only [File.fwrite, purge_size _ hbs, File.fseek_size, File.fseek_pos]
  split_ifs <;> omega

end DataBlock

/-! ### The blocks of a file -/

/-- Write data into the given blocks, one after another. -/
def storeBlocks (sb : SuperBlock) : File → List ℕ → List Byte → File
  | drive, [], _ => drive
  | drive, b :: bs, data =>
      storeBlocks sb (writeDataBlock sb drive b (data.take sb.blockSize)) bs
        (data.drop sb.blockSize)

section Store

variable {sb : SuperBlock} {drive : File} {bs : List ℕ} {data : List Byte}

theorem storeBlocks_byte {p : ℕ}
    (hp : ∀ b ∈ bs, p < sb.blockAddr b ∨ sb.blockAddr b + sb.blockSize ≤ p) :
    (storeBlocks sb drive bs data).byte p = drive.byte p := by
  induction bs generalizing drive data with
  | nil => rfl
  | cons b bs ih =>
    rw [storeBlocks, ih fun c hc => hp c (List.mem_cons_of_mem _ hc),
      writeDataBlock_byte _ (by simp) (hp b List.mem_cons_self)]

theorem storeBlocks_size_ge (hbs : 0 < sb.blockSize) :
    drive.size ≤ (storeBlocks sb drive bs data).size := by
  induction bs generalizing drive data with
  | nil => rfl
  | cons b bs ih =>
    rw [storeBlocks]
    exact le_trans (by rw [writeDataBlock_size _ hbs (by simp)]; exact le_max_left _ _) ih

theorem storeBlocks_covers (hbs : 0 < sb.blockSize) {b : ℕ} (hb : b ∈ bs) :
    sb.blockAddr b + sb.blockSize ≤ (storeBlocks sb drive bs data).size := by
  induction bs generalizing drive data with
  | nil => simp at hb
  | cons c bs ih =>
    rw [storeBlocks]
    rcases List.mem_cons.1 hb with rfl | hb
    · refine le_trans ?_ (storeBlocks_size_ge hbs)
      rw [writeDataBlock_size _ hbs (by simp)]
      exact le_max_right _ _
    · exact ih hb

/-- Block `m` of the list holds chunk `m` of the data, if no two of the blocks overlap. -/
theorem storeBlocks_slice (hsep : bs.Pairwise fun b c =>
      sb.blockAddr b + sb.blockSize ≤ sb.blockAddr c ∨ sb.blockAddr c + sb.blockSize ≤ sb.blockAddr b)
    {m : ℕ} (hm : m < bs.length) :
    (storeBlocks sb drive bs data).slice (sb.blockAddr bs[m]) sb.blockSize =
      pad sb.blockSize ((data.drop (m * sb.blockSize)).take sb.blockSize) := by
  induction bs generalizing drive data m with
  | nil => simp at hm
  | cons b bs ih =>
    obtain ⟨hb, hsep⟩ := List.pairwise_cons.1 hsep
    rw [storeBlocks]
    cases m with
    | zero =>
      have hkeep : (storeBlocks sb (writeDataBlock sb drive b (data.take sb.blockSize)) bs
          (data.drop sb.blockSize)).slice (sb.blockAddr b) sb.blockSize =
          (writeDataBlock sb drive b (data.take sb.blockSize)).slice (sb.blockAddr b)
            sb.blockSize :=
        File.slice_congr fun k hk => storeBlocks_byte fun c hc => by have := hb c hc; omega
      simpa [writeDataBlock_slice drive (List.length_take_le sb.blockSize data)] using hkeep
    | succ m =>
      have hm' : m < bs.length := by simpa using hm
      have hrest : (storeBlocks sb (writeDataBlock sb drive b (data.take sb.blockSize)) bs
          (data.drop sb.blockSize)).slice (sb.blockAddr bs[m]) sb.blockSize =
          pad sb.blockSize (((data.drop sb.blockSize).drop (m * sb.blockSize)).take
            sb.blockSize) := ih hsep hm'
      rwa [List.drop_drop, show sb.blockSize + m * sb.blockSize = (m + 1) * sb.blockSize by ring]
        at hrest

end Store

/-! ### The loop -/

/-- The number of blocks that the loop of `write_file` wants for `n` bytes: one also for none. -/
def blocksFor (blockSize n : ℕ) : ℕ := (n - 1) / blockSize + 1

/-- Set the bits of some blocks. -/
def mark (bitmap : ℕ → Bool) (bs : List ℕ) (b : ℕ) : Bool := bitmap b || decide (b ∈ bs)

/-- Enter some blocks into `data_blocks` from position `j` on. -/
def place (blocks : Fin 10 → ℕ) (j : ℕ) (bs : List ℕ) (k : Fin 10) : ℕ :=
  if j ≤ k.val ∧ k.val < j + bs.length then bs.getD (k.val - j) 0 else blocks k

theorem blocksFor_of_le {bs n : ℕ} (hbs : 0 < bs) (h : n ≤ bs) : blocksFor bs n = 1 := by
  rw [blocksFor, Nat.div_eq_of_lt (by omega)]

theorem blocksFor_of_lt {bs n : ℕ} (hbs : 0 < bs) (h : bs < n) :
    blocksFor bs n = blocksFor bs (n - bs) + 1 := by
  rw [blocksFor, blocksFor, show n - 1 = (n - bs - 1) + bs by omega, Nat.add_div_right _ hbs]

theorem place_nil (blocks : Fin 10 → ℕ) (j : ℕ) : place blocks j [] = blocks := by
  funext k
  rw [place, if_neg (by simp)]

theorem place_cons (blocks : Fin 10 → ℕ) {j : ℕ} (hj : j < 10) (b : ℕ) (bs : List ℕ) :
    place (Function.update blocks ⟨j, hj⟩ b) (j + 1) bs = place blocks j (b :: bs) := by
  funext k
  simp only [place, List.length_cons]
  by_cases hk : k.val = j
  · obtain rfl : k = ⟨j, hj⟩ := Fin.ext hk
    rw [if_neg (by simp), if_pos (by simp), Function.update_self]
    simp
  · rw [Function.update_of_ne (fun e => hk (congrArg Fin.val e))]
    by_cases hin : j ≤ k.val ∧ k.val < j + (bs.length + 1)
    · rw [if_pos (by omega), if_pos hin, show k.val - j = (k.val - (j + 1)) + 1 by omega,
        List.getD_cons_succ]
    · rw [if_neg (by omega), if_neg hin]

theorem mark_nil (bitmap : ℕ → Bool) : mark bitmap [] = bitmap := by
  funext b
  simp [mark]

theorem mark_cons (bitmap : ℕ → Bool) (b : ℕ) (bs : List ℕ) :
    mark (Function.update bitmap b true) bs = mark bitmap (b :: bs) := by
  funext c
  by_cases h : c = b
  · subst h
    simp [mark]
  · simp [mark, h]

/-- Both chunk sizes that `write_file` computes cut the data at the block size. -/
theorem take_chunkSize (bs : ℕ) (data : List Byte) :
    data.take (if data.length < bs then data.length else bs) = data.take bs ∧
      data.drop (if data.length < bs then data.length else bs) = data.drop bs := by
  split_ifs with h
  · simp [List.take_of_length_le h.le, List.drop_of_length_le h.le]
  · exact ⟨rfl, rfl⟩

/-- **The loop of `write_file`**: it takes the first free blocks, as many as the data wants, and
runs past the end of `data_blocks` if these are too many. -/
theorem writeLoop_eq {sb : SuperBlock} (hbs : 0 < sb.blockSize) {fuel i j : ℕ} (hj : j ≤ 10)
    {data : List Byte} {drive : File} {bitmap : ℕ → Bool} {blocks : Fin 10 → ℕ} {bs : List ℕ}
    (hfree : (free bitmap i fuel).take (blocksFor sb.blockSize data.length) = bs) :
    writeLoop sb fuel i j data drive bitmap blocks =
      if j + bs.length ≤ 10 then
        some (storeBlocks sb drive bs data, mark bitmap bs, place blocks j bs)
      else none := by
  induction fuel generalizing i j data drive bitmap blocks bs with
  | zero =>
    obtain rfl : [] = bs := by simpa using hfree
    simp [writeLoop, storeBlocks, place_nil, mark_nil, hj]
  | succ fuel ih =>
    rw [writeLoop]
    cases hbit : bitmap i with
    | true =>
      -- a block in use is skipped
      rw [free_succ_of_set hbit] at hfree
      simpa using ih hj hfree
    | false =>
      obtain ⟨htake, hdrop⟩ := take_chunkSize sb.blockSize data
      have hk : blocksFor sb.blockSize data.length =
          (blocksFor sb.blockSize data.length - 1) + 1 := by simp [blocksFor]
      rw [free_succ_of_unset hbit, hk, List.take_succ_cons] at hfree
      subst hfree
      simp only [Bool.false_eq_true, if_false, htake, hdrop, storeBlocks, List.length_cons]
      by_cases h10 : j < 10
      · rw [dif_pos h10]
        by_cases hrest : (data.drop sb.blockSize).length = 0
        · -- the data is used up
          rw [List.length_drop] at hrest
          rw [if_pos (by rwa [List.length_drop]), blocksFor_of_le hbs (by omega), Nat.sub_self,
            List.take_zero, if_pos (by simpa using h10)]
          have hplace := place_cons blocks h10 i []
          rw [place_nil] at hplace
          rw [← mark_cons, ← hplace, mark_nil]
          rfl
        · rw [List.length_drop] at hrest
          have hlen : blocksFor sb.blockSize data.length - 1 =
              blocksFor sb.blockSize (data.drop sb.blockSize).length := by
            rw [blocksFor_of_lt hbs (by omega), List.length_drop, Nat.add_sub_cancel]
          rw [if_neg (by rwa [List.length_drop]), hlen,
            ih (by omega) (by rw [free_update (Nat.lt_succ_self i)]), mark_cons, place_cons,
            show j + 1 + _ = j + (_ + 1) from Nat.succ_add_eq_add_succ _ _]
      · rw [dif_neg h10, if_neg (by omega)]

/-! ### Releasing the blocks of an inode -/

/-- The bitmap once the blocks of an inode are released; the root gives back block `0` as well. -/
def release (n : Inode) (bitmap : ℕ → Bool) (b : ℕ) : Bool :=
  bitmap b && !decide ((n.self = rootSelf ∧ b = 0) ∨ (b ≠ 0 ∧ ∃ j, n.dataBlocks j = b))

theorem foldlM_unallocate {size : ℕ} {n : Inode} (hn : ∀ j, n.dataBlocks j < size)
    (bitmap : ℕ → Bool) (js : List (Fin 10)) : js.foldlM (unallocate size n) bitmap =
      some fun b => bitmap b && !decide (b ≠ 0 ∧ ∃ j ∈ js, n.dataBlocks j = b) := by
  induction js generalizing bitmap with
  | nil => simp
  | cons j js ih =>
    rw [List.foldlM_cons, unallocate]
    split_ifs with h
    · rw [setBit, if_pos (hn j), Option.bind_eq_bind, Option.bind_some, ih]
      congr 1
      funext b
      by_cases hb : b = n.dataBlocks j
      · subst hb
        simp [h]
      · rw [Function.update_of_ne hb]
        simp [Ne.symm hb]
    · rw [Option.bind_eq_bind, Option.bind_some, ih]
      congr 1
      funext b
      have : b ≠ 0 → n.dataBlocks j ≠ b := fun h0 e => h0 (e ▸ not_not.1 h)
      by_cases hb : b = 0
      · simp [hb]
      · simp [hb, this hb]

/-- **`purge_file_contents`** unsets the bits of the blocks and clears the list. -/
theorem purgeFileContents_eq {s : Instance} {i : ℕ} (hpos : 0 < s.sb.totalDataBlocks)
    (hi : ∀ j, (s.inodes i).dataBlocks j < s.sb.totalDataBlocks) : s.purgeFileContents i =
      some { s.setInode i { s.inodes i with dataBlocks := fun _ => 0 } with
        dataBitmap := release (s.inodes i) s.dataBitmap } := by
  have hroot : (if (s.inodes i).self = rootSelf then
        setBit s.sb.totalDataBlocks s.dataBitmap 0 false else some s.dataBitmap) =
      some fun b => s.dataBitmap b && !decide ((s.inodes i).self = rootSelf ∧ b = 0) := by
    split_ifs with h
    · rw [setBit, if_pos hpos]
      congr 1
      funext b
      by_cases hb : b = 0
      · simp [hb, h]
      · simp [hb]
    · simp [h]
  rw [purgeFileContents, hroot]
  simp only [Option.bind_eq_bind, Option.bind_some, foldlM_unallocate hi, List.mem_finRange,
    true_and]
  congr 2
  funext b
  simp only [release, Bool.decide_or, Bool.not_or, Bool.and_assoc]

/-! ### The whole of `write_file` -/

/-- The blocks that `write_file` takes: the first free ones once the inode's own are released. -/
def blocksOf (s : Instance) (i : ℕ) (data : List Byte) : List ℕ :=
  (free (release (s.inodes i) s.dataBitmap) 0 s.sb.totalDataBlocks).take
    (blocksFor s.sb.blockSize data.length)

/-- The number of blocks that `write_file` can take: the free ones, the inode's own counted. -/
def room (s : Instance) (i : ℕ) : ℕ :=
  (free (release (s.inodes i) s.dataBitmap) 0 s.sb.totalDataBlocks).length

/-- The number of blocks that are free. -/
def freeBlocks (s : Instance) : ℕ := (free s.dataBitmap 0 s.sb.totalDataBlocks).length

/-- An inode with the given blocks. -/
def Inode.withBlocks (n : Inode) (bs : List ℕ) : Inode :=
  { n with dataBlocks := fun k => bs.getD k.val 0 }

/-- The state after `write_file`. -/
def written (s : Instance) (i : ℕ) (data : List Byte) : Instance :=
  writeInode { s.setInode i ((s.inodes i).withBlocks (blocksOf s i data)) with
    drive := storeBlocks s.sb s.drive (blocksOf s i data) data
    dataBitmap := mark (release (s.inodes i) s.dataBitmap) (blocksOf s i data) } i

theorem place_zero (bs : List ℕ) : place (fun _ => 0) 0 bs = fun k => bs.getD k.val 0 := by
  funext k
  rw [place]
  split_ifs with h
  · rw [Nat.sub_zero]
  · rw [List.getD_eq_default _ _ (by omega)]

/-- **`write_file`** completes exactly when it takes at most ten blocks. -/
theorem writeFile_eq {s : Instance} {i : ℕ} {data : List Byte} (hbs : 0 < s.sb.blockSize)
    (hpos : 0 < s.sb.totalDataBlocks)
    (hi : ∀ j, (s.inodes i).dataBlocks j < s.sb.totalDataBlocks) :
    s.writeFile i data =
      if (blocksOf s i data).length ≤ 10 then some (written s i data) else none := by
  rw [writeFile, purgeFileContents_eq hpos hi]
  simp only [Option.bind_eq_bind, Option.bind_some, setInode, Function.update_self]
  have hfree : (free (release (s.inodes i) s.dataBitmap) 0 s.sb.totalDataBlocks).take
      (blocksFor s.sb.blockSize data.length) = blocksOf s i data := rfl
  rw [writeLoop_eq hbs (Nat.zero_le 10) hfree, Nat.zero_add]
  split_ifs with h
  · simp only [Option.bind_some, written, setInode, Function.update_idem, Inode.withBlocks,
      place_zero]
  · rfl

section Written

variable {s : Instance} {i : ℕ} {data : List Byte}

@[simp] theorem written_sb : (written s i data).sb = s.sb := rfl
@[simp] theorem written_inodesSorted : (written s i data).inodesSorted = s.inodesSorted := rfl
@[simp] theorem written_cwdNode : (written s i data).cwdNode = s.cwdNode := rfl
@[simp] theorem written_cwd : (written s i data).cwd = s.cwd := rfl
@[simp] theorem written_stderr : (written s i data).stderr = s.stderr := rfl

theorem written_dataBitmap : (written s i data).dataBitmap =
    mark (release (s.inodes i) s.dataBitmap) (blocksOf s i data) := rfl

theorem written_inodes : (written s i data).inodes =
    Function.update s.inodes i ((s.inodes i).withBlocks (blocksOf s i data)) := rfl

theorem written_inodes_self :
    (written s i data).inodes i = (s.inodes i).withBlocks (blocksOf s i data) := by
  rw [written_inodes, Function.update_self]

theorem written_inodes_of_ne {k : ℕ} (h : k ≠ i) :
    (written s i data).inodes k = s.inodes k := by
  rw [written_inodes, Function.update_of_ne h]

@[simp] theorem written_type (k : ℕ) :
    ((written s i data).inodes k).type = (s.inodes k).type := by
  by_cases h : k = i
  · subst h; rw [written_inodes_self]; rfl
  · rw [written_inodes_of_ne h]

@[simp] theorem written_self (k : ℕ) :
    ((written s i data).inodes k).self = (s.inodes k).self := by
  by_cases h : k = i
  · subst h; rw [written_inodes_self]; rfl
  · rw [written_inodes_of_ne h]

@[simp] theorem written_parent (k : ℕ) :
    ((written s i data).inodes k).parent = (s.inodes k).parent := by
  by_cases h : k = i
  · subst h; rw [written_inodes_self]; rfl
  · rw [written_inodes_of_ne h]

theorem written_drive : (written s i data).drive =
    ((storeBlocks s.sb s.drive (blocksOf s i data) data).fseek
      (s.sb.inodeAddr (s.inodes i).self)).fwrite
        ((s.inodes i).withBlocks (blocksOf s i data)).encode := by
  simp only [written, writeInode, setInode, Function.update_self]
  rfl

theorem blocksOf_length : (blocksOf s i data).length =
    min (blocksFor s.sb.blockSize data.length) (room s i) := List.length_take

/-- Ten blocks of data do not need more than ten blocks. -/
theorem blocksOf_length_le (hbs : 0 < s.sb.blockSize) (hlen : data.length ≤ 10 * s.sb.blockSize) :
    (blocksOf s i data).length ≤ 10 := by
  have hdiv : (data.length - 1) / s.sb.blockSize < 10 :=
    (Nat.div_lt_iff_lt_mul hbs).2 (by omega)
  rw [blocksOf_length, blocksFor]
  omega

/-- Data that fits into a block takes one, if there is one. -/
theorem blocksOf_length_one (hbs : 0 < s.sb.blockSize) (hlen : data.length ≤ s.sb.blockSize)
    (hroom : 0 < room s i) : (blocksOf s i data).length = 1 := by
  rw [blocksOf_length, blocksFor_of_le hbs hlen]
  omega

theorem mem_blocksOf_lt {b : ℕ} (h : b ∈ blocksOf s i data) : b < s.sb.totalDataBlocks := by
  have := (mem_free.1 (List.mem_of_mem_take h)).1
  omega

theorem not_release_of_mem_blocksOf {b : ℕ} (h : b ∈ blocksOf s i data) :
    release (s.inodes i) s.dataBitmap b = false :=
  (mem_free.1 (List.mem_of_mem_take h)).2

theorem blocksOf_nodup : (blocksOf s i data).Nodup := (free_nodup _ _ _).sublist
  (List.take_sublist _ _)

theorem freeBlocks_le_room (s : Instance) (i : ℕ) : freeBlocks s ≤ room s i := by
  refine (List.monotone_filter_right _ fun b hb => ?_).length_le
  rw [Bool.not_eq_true'] at hb ⊢
  rw [release, hb, Bool.false_and]

variable (s i data) in
/-- What is left after a write. -/
theorem room_le_freeBlocks_written :
    room s i ≤ freeBlocks (written s i data) + (blocksOf s i data).length := by
  rw [room, freeBlocks, written_dataBitmap, written_sb]
  exact free_length_le _ _ _ _

variable (s i data) in
/-- What is left for an inode. -/
theorem room_written (k : ℕ) : room s i ≤ room (written s i data) k + (blocksOf s i data).length :=
  (room_le_freeBlocks_written s i data).trans
    (Nat.add_le_add_right (freeBlocks_le_room _ k) _)

/-- A file outside of `write_file`'s blocks and of the inode's slot is untouched. -/
theorem written_byte {p : ℕ}
    (hblocks : ∀ b ∈ blocksOf s i data,
      p < s.sb.blockAddr b ∨ s.sb.blockAddr b + s.sb.blockSize ≤ p)
    (hslot : p < s.sb.inodeAddr (s.inodes i).self ∨
      s.sb.inodeAddr (s.inodes i).self + sizeofInode ≤ p) :
    (written s i data).drive.byte p = s.drive.byte p := by
  rw [written_drive, File.byte_fwrite_of_not_mem _ _ _ (by simpa using hslot), File.fseek_byte,
    storeBlocks_byte hblocks]

theorem written_slot : (written s i data).drive.slice (s.sb.inodeAddr (s.inodes i).self)
    sizeofInode = ((written s i data).inodes i).encode := by
  rw [written_drive, written_inodes_self]
  have := File.slice_fwrite_self ((storeBlocks s.sb s.drive (blocksOf s i data) data).fseek
    (s.sb.inodeAddr (s.inodes i).self)) ((s.inodes i).withBlocks (blocksOf s i data)).encode
  rwa [encode_length] at this

variable (s i data) in
/-- The drive never shrinks. -/
theorem written_size_ge (hbs : 0 < s.sb.blockSize) :
    s.drive.size ≤ (written s i data).drive.size := by
  rw [written_drive]
  exact (storeBlocks_size_ge hbs).trans (File.fseek_fwrite_size_ge _ _ _)

theorem written_covers (hbs : 0 < s.sb.blockSize) {b : ℕ} (hb : b ∈ blocksOf s i data) :
    s.sb.blockAddr b + s.sb.blockSize ≤ (written s i data).drive.size := by
  rw [written_drive]
  exact (storeBlocks_covers hbs hb).trans (File.fseek_fwrite_size_ge _ _ _)

end Written

/-! ### Regions of the drive -/

/-- `self` fields of inodes: an index, or `ROOT_SELF`. -/
def SelfOk (sb : SuperBlock) (self : ℕ) : Prop := self < sb.totalInodes ∨ self = rootSelf

namespace Formatted

variable {sb : SuperBlock} (h : Formatted sb)
include h

theorem blockSize_pos : 0 < sb.blockSize := by rw [h.blockSize]; norm_num

/-- An inode does not fill its slot. -/
theorem sizeofInode_lt : sizeofInode < sb.blockSize := by rw [h.blockSize]; decide

/-- Slots of inodes lie before the data blocks. -/
theorem slot_lt_block {self b : ℕ} (hself : SelfOk sb self) (hb : b < sb.totalDataBlocks) :
    sb.inodeAddr self + sb.blockSize ≤ sb.blockAddr b := by
  have h10 := h.totalInodes
  rw [h.blockAddr hb, h.blockSize]
  rcases hself with hself | rfl
  · rw [h.inodeAddr hself]; omega
  · rw [h.inodeAddr_root]; omega

/-- Different data blocks do not overlap. -/
theorem block_disjoint {b c : ℕ} (hb : b < sb.totalDataBlocks) (hc : c < sb.totalDataBlocks)
    (hbc : b ≠ c) : sb.blockAddr b + sb.blockSize ≤ sb.blockAddr c ∨
      sb.blockAddr c + sb.blockSize ≤ sb.blockAddr b := by
  rw [h.blockAddr hb, h.blockAddr hc, h.blockSize]
  omega

/-- Slots of different inodes do not overlap, and the root is not written into any slot. -/
theorem slot_disjoint {i self : ℕ} (hi : i < sb.totalInodes) (hself : SelfOk sb self)
    (hne : self ≠ i) : sb.inodeAddr self + sb.blockSize ≤ sb.inodeAddr i ∨
      sb.inodeAddr i + sb.blockSize ≤ sb.inodeAddr self := by
  rw [h.inodeAddr hi, h.blockSize]
  rcases hself with hself | rfl
  · rw [h.inodeAddr hself]; omega
  · rw [h.inodeAddr_root]; omega

end Formatted

section Regions

variable {s : Instance} {i : ℕ} {data : List Byte} (hf : Formatted s.sb)
  (hself : SelfOk s.sb (s.inodes i).self)
include hf hself

/-- Block `m` that `write_file` takes holds chunk `m` of the data. -/
theorem written_block {m : ℕ} (hm : m < (blocksOf s i data).length) :
    (written s i data).drive.slice (s.sb.blockAddr (blocksOf s i data)[m]) s.sb.blockSize =
      pad s.sb.blockSize ((data.drop (m * s.sb.blockSize)).take s.sb.blockSize) := by
  have hlt := mem_blocksOf_lt (List.getElem_mem hm)
  have hslot := hf.slot_lt_block hself hlt
  have hsize := hf.sizeofInode_lt
  have hsep : (blocksOf s i data).Pairwise fun b c =>
      s.sb.blockAddr b + s.sb.blockSize ≤ s.sb.blockAddr c ∨
        s.sb.blockAddr c + s.sb.blockSize ≤ s.sb.blockAddr b :=
    List.Pairwise.imp_of_mem (fun hb hc hbc =>
      hf.block_disjoint (mem_blocksOf_lt hb) (mem_blocksOf_lt hc) hbc) blocksOf_nodup
  rw [written_drive, File.slice_fwrite_disjoint _ _ _ _ (by
    rw [encode_length, File.fseek_pos]; omega)]
  exact storeBlocks_slice hsep hm

/-- A data block that `write_file` does not take is kept. -/
theorem written_byte_block {b k : ℕ} (hb : b < s.sb.totalDataBlocks)
    (hfree : b ∉ blocksOf s i data) (hk : k < s.sb.blockSize) :
    (written s i data).drive.byte (s.sb.blockAddr b + k) =
      s.drive.byte (s.sb.blockAddr b + k) := by
  have hslot := hf.slot_lt_block hself hb
  have hsize := hf.sizeofInode_lt
  refine written_byte (fun c hc => ?_) (by omega)
  have := hf.block_disjoint hb (mem_blocksOf_lt hc) (fun e => hfree (e ▸ hc))
  omega

/-- The slot of another inode is kept, and no slot but the inode's own is written. -/
theorem written_byte_slot {g k : ℕ} (hg : g < s.sb.totalInodes) (hne : (s.inodes i).self ≠ g)
    (hk : k < s.sb.blockSize) : (written s i data).drive.byte (s.sb.inodeAddr g + k) =
      s.drive.byte (s.sb.inodeAddr g + k) := by
  have hdis := hf.slot_disjoint hg hself hne
  have hsize := hf.sizeofInode_lt
  refine written_byte (fun b hb => ?_) (by omega)
  have := hf.slot_lt_block (Or.inl hg : SelfOk s.sb g) (mem_blocksOf_lt hb)
  omega

omit hself in
/-- Before the data blocks only the record of the inode is written. -/
theorem written_byte_head {p : ℕ} (hp : p < s.sb.blockAddr 0)
    (hslot : p < s.sb.inodeAddr (s.inodes i).self ∨
      s.sb.inodeAddr (s.inodes i).self + sizeofInode ≤ p) :
    (written s i data).drive.byte p = s.drive.byte p := by
  refine written_byte (fun b hb => Or.inl (hp.trans_le ?_)) hslot
  rw [hf.blockAddr hf.totalDataBlocks_pos, hf.blockAddr (mem_blocksOf_lt hb)]
  omega

end Regions

/-! ### The listings afterwards -/

/-- Whether `get_dir_entry` reads the block in `data_blocks[j]`. -/
def Listed (n : Inode) (j : Fin 10) : Prop := n.dataBlocks j ≠ 0 ∨ (n.self = rootSelf ∧ j = 0)

theorem blockEntries_of_listed {s : Instance} {n : Inode} {j : Fin 10} (h : Listed n j) :
    s.blockEntries n j = parseEntries (CString.zstrings
      ((s.drive.fseek (s.sb.blockAddr (n.dataBlocks j))).fread s.sb.blockSize)) := if_pos h

theorem blockEntries_of_not_listed {s : Instance} {n : Inode} {j : Fin 10} (h : ¬Listed n j) :
    s.blockEntries n j = some [] := if_neg h

/-- A listing depends only on the list of blocks and on what the drive holds in them. -/
theorem getDirEntry_congr {s t : Instance} {g : ℕ} (hsb : t.sb = s.sb)
    (hself : (t.inodes g).self = (s.inodes g).self)
    (hblocks : (t.inodes g).dataBlocks = (s.inodes g).dataBlocks)
    (hread : ∀ j, Listed (s.inodes g) j →
      (t.drive.fseek (s.sb.blockAddr ((s.inodes g).dataBlocks j))).fread s.sb.blockSize =
        (s.drive.fseek (s.sb.blockAddr ((s.inodes g).dataBlocks j))).fread s.sb.blockSize) :
    t.getDirEntry g = s.getDirEntry g := by
  have hentries : ∀ j, t.blockEntries (t.inodes g) j = s.blockEntries (s.inodes g) j := by
    intro j
    have hlisted : Listed (t.inodes g) j ↔ Listed (s.inodes g) j := by
      rw [Listed, Listed, hself, hblocks]
    by_cases hj : Listed (s.inodes g) j
    · rw [blockEntries_of_listed hj, blockEntries_of_listed (hlisted.2 hj), hblocks, hsb, hread j hj]
    · rw [blockEntries_of_not_listed hj, blockEntries_of_not_listed (hlisted.not.2 hj)]
  rw [getDirEntry, getDirEntry]
  induction List.finRange 10 with
  | nil => rfl
  | cons j js ih => rw [gatherEntries, gatherEntries, hentries, ih]

section Listing

variable {s : Instance} {i : ℕ} {data : List Byte}

variable (data) in
/-- Nobody but the root gets block `0`, as long as its bit is set. -/
theorem zero_not_mem_blocksOf (h : (s.inodes i).self ≠ rootSelf) (hbit : s.dataBitmap 0 = true) :
    0 ∉ blocksOf s i data := fun h0 => by
  have := not_release_of_mem_blocksOf h0
  simp [release, h, hbit] at this

variable (hf : Formatted s.sb)
include hf

variable (data) in
/-- The root always gets block `0` back as its first block. -/
theorem blocksOf_root (h : (s.inodes i).self = rootSelf) :
    ∃ rest, blocksOf s i data = 0 :: rest ∧ 0 ∉ rest := by
  have hbit : release (s.inodes i) s.dataBitmap 0 = false := by simp [release, h]
  obtain ⟨n, hn⟩ := Nat.exists_eq_succ_of_ne_zero hf.totalDataBlocks_pos.ne'
  have hnodup : (blocksOf s i data).Nodup := blocksOf_nodup
  have heq : blocksOf s i data = 0 :: (free (release (s.inodes i) s.dataBitmap) 1 n).take
      (blocksFor s.sb.blockSize data.length - 1) := by
    have hk : blocksFor s.sb.blockSize data.length =
        (blocksFor s.sb.blockSize data.length - 1) + 1 := by simp [blocksFor]
    rw [blocksOf, hn, free_succ_of_unset hbit, hk, List.take_succ_cons]
    rfl
  rw [heq] at hnodup
  exact ⟨_, heq, (List.nodup_cons.1 hnodup).1⟩

/-- The `m`-th block in the list of the inode, if it was taken, is read by `get_dir_entry`. -/
theorem listed_written (hbit : s.dataBitmap 0 = true) {j : Fin 10} :
    Listed ((written s i data).inodes i) j ↔ j.val < (blocksOf s i data).length := by
  have hget : ((written s i data).inodes i).dataBlocks j = (blocksOf s i data).getD j.val 0 := by
    rw [written_inodes_self]; rfl
  rw [Listed, hget, written_self]
  by_cases hroot : (s.inodes i).self = rootSelf
  · obtain ⟨rest, heq, h0⟩ := blocksOf_root data hf hroot
    simp only [heq, hroot, true_and, List.length_cons]
    rcases Fin.eq_zero_or_eq_succ j with rfl | ⟨k, rfl⟩
    · simp
    · rw [Fin.val_succ, List.getD_cons_succ]
      constructor
      · rintro (h | h)
        · by_contra hlt
          exact h (List.getD_eq_default _ _ (by omega))
        · exact absurd h (Fin.succ_ne_zero k)
      · intro h
        refine Or.inl fun e => h0 ?_
        rw [List.getD_eq_getElem _ _ (by omega)] at e
        exact e ▸ List.getElem_mem _
  · have h0 := zero_not_mem_blocksOf data hroot hbit
    simp only [hroot, false_and, or_false]
    constructor
    · intro h
      by_contra hlt
      exact h (List.getD_eq_default _ _ (by omega))
    · intro h e
      rw [List.getD_eq_getElem _ _ h] at e
      exact h0 (e ▸ List.getElem_mem _)

/-- What `get_dir_entry` reads of one block of the inode. -/
theorem blockEntries_written (hself : SelfOk s.sb (s.inodes i).self)
    (hbit : s.dataBitmap 0 = true) (j : Fin 10) :
    (written s i data).blockEntries ((written s i data).inodes i) j =
      if j.val < (blocksOf s i data).length then
        parseEntries (CString.zstrings
          (pad s.sb.blockSize ((data.drop (j.val * s.sb.blockSize)).take s.sb.blockSize)))
      else some [] := by
  by_cases hj : j.val < (blocksOf s i data).length
  · have hget : ((written s i data).inodes i).dataBlocks j = (blocksOf s i data)[j.val] := by
      rw [written_inodes_self]
      exact List.getD_eq_getElem _ _ hj
    have hcover := written_covers (s := s) (i := i) hf.blockSize_pos (List.getElem_mem hj)
    rw [blockEntries_of_listed ((listed_written hf hbit).2 hj), if_pos hj, hget, written_sb,
      File.fread_of_le _ _ _ hcover, written_block hf hself hj]
  · rw [blockEntries_of_not_listed ((listed_written hf hbit).not.2 hj), if_neg hj]

/-- **The listing of an inode after `write_file`** is what its blocks parse to. -/
theorem getDirEntry_written (hself : SelfOk s.sb (s.inodes i).self)
    (hbit : s.dataBitmap 0 = true) (hlen : (blocksOf s i data).length ≤ 10) :
    (written s i data).getDirEntry i =
      parseChunks s.sb.blockSize (blocksOf s i data).length data := by
  -- from block `k` on, by induction on the number of the remaining ones
  have key : ∀ d k, k + d = 10 →
      (written s i data).gatherEntries ((written s i data).inodes i) ((List.finRange 10).drop k) =
        parseChunks s.sb.blockSize ((blocksOf s i data).length - k)
          (data.drop (k * s.sb.blockSize)) := by
    intro d
    induction d with
    | zero =>
      intro k hk
      rw [List.drop_of_length_le (by simp; omega), show (blocksOf s i data).length - k = 0 by omega]
      rfl
    | succ d ih =>
      intro k hk
      have hk10 : k < 10 := by omega
      have hstep := ih (k + 1) (by omega)
      rw [List.drop_eq_getElem_cons (by simpa using hk10), gatherEntries, hstep,
        blockEntries_written hf hself hbit]
      simp only [List.getElem_finRange, Fin.cast_mk]
      by_cases hlt : k < (blocksOf s i data).length
      · rw [if_pos hlt, show (blocksOf s i data).length - k =
          ((blocksOf s i data).length - (k + 1)) + 1 by omega, parseChunks, List.drop_drop,
          Nat.succ_mul]
      · rw [if_neg hlt, show (blocksOf s i data).length - k = 0 by omega,
          show (blocksOf s i data).length - (k + 1) = 0 by omega]
        rfl
  have h0 := key 10 0 rfl
  rwa [List.drop_zero, Nat.zero_mul, List.drop_zero, Nat.sub_zero] at h0

/-- **The listing of another inode** is kept, as long as none of its blocks is taken. -/
theorem getDirEntry_written_of_ne {g : ℕ} (hself : SelfOk s.sb (s.inodes i).self) (hg : g ≠ i)
    (hblocks : ∀ j, Listed (s.inodes g) j → (s.inodes g).dataBlocks j < s.sb.totalDataBlocks ∧
      (s.inodes g).dataBlocks j ∉ blocksOf s i data ∧
      s.sb.blockAddr ((s.inodes g).dataBlocks j) + s.sb.blockSize ≤ s.drive.size) :
    (written s i data).getDirEntry g = s.getDirEntry g := by
  refine getDirEntry_congr rfl (written_self g) (by rw [written_inodes_of_ne hg]) fun j hj => ?_
  obtain ⟨hlt, hfree, hcover⟩ := hblocks j hj
  have hcover' := hcover.trans (written_size_ge s i data hf.blockSize_pos)
  rw [File.fread_of_le _ _ _ hcover, File.fread_of_le _ _ _ hcover']
  exact File.slice_congr fun k hk => written_byte_block hf hself hlt hfree hk

end Listing

end MufaFs
