import SysProg.MufaFs.Session

/-!
# Mounting

`init` reads the slots one after another into the vector of inodes.  A slot is longer than an
inode, so each read also overwrites the two records behind, which later reads set right.

* `init_eq`: what `init` leaves in memory, from the inodes that stand in the slots;
* `Inv.of_init`: the invariant holds after mounting a drive whose slots list no data blocks;
* `mount_image`: in particular after mounting a new image.
-/

namespace MufaFs

open ByteFile FirstFit Instance

/-! ### Reading one inode -/

/-- Every field of the inode fits its width. -/
def Inode.Fits (n : Inode) : Prop :=
  List.Forall₂ (fun w v => v < 256 ^ w) Inode.widths n.fields

theorem Inode.ofFields_fields (n : Inode) : Inode.ofFields n.fields = n := by
  obtain ⟨type, parent, self, dataBlocks, i1, i2, i3⟩ := n
  simp only [Inode.ofFields, Inode.fields, Inode.mk.injEq]
  refine ⟨rfl, rfl, rfl, ?_, rfl, rfl, rfl⟩
  funext j
  fin_cases j <;> rfl

/-- The bytes of an inode are read back as the inode. -/
theorem Inode.decode_encode {n : Inode} (h : n.Fits) (rest : List Byte) :
    Inode.decode (n.encode ++ rest) = n := by
  rw [Inode.decode, Inode.encode, Packed.unpack_pack h, Inode.ofFields_fields]

theorem encode_zero : Inode.zero.encode = List.replicate sizeofInode 0 := by decide

theorem SlotInode.fits {sb : SuperBlock} {i : ℕ} {n : Inode} (h : SlotInode sb i n)
    (hf : Formatted sb) : n.Fits := by
  have h8 : (256 : ℕ) ^ 8 = 2 ^ 64 := by norm_num
  have hself : ∀ k, SelfOk sb k → k < 256 ^ 8 := fun k hk => by
    have hlt := hf.totalInodes_lt_rootSelf
    have hroot : rootSelf = 2 ^ 64 - 1 := rfl
    rw [h8]
    rcases hk with hk | hk <;> omega
  have hblock : ∀ j, n.dataBlocks j < 256 ^ 8 := fun j => by
    have := h.bounded j
    have := hf.fits
    rw [h8]
    omega
  have hzero : ∀ k, k = 0 → k < 256 ^ 8 := fun k hk => by rw [hk, h8]; norm_num
  have htype : n.type < 256 ^ 1 := by have := h.type_le; omega
  obtain ⟨h1, h2, h3⟩ := h.indirect
  exact .cons htype (.cons (hself _ h.parent_ok) (.cons (hself _ h.self_ok)
    (.cons (hblock 0) (.cons (hblock 1) (.cons (hblock 2) (.cons (hblock 3) (.cons (hblock 4)
    (.cons (hblock 5) (.cons (hblock 6) (.cons (hblock 7) (.cons (hblock 8) (.cons (hblock 9)
    (.cons (hzero _ h1) (.cons (hzero _ h2) (.cons (hzero _ h3) .nil)))))))))))))))

/-! ### Reading the slots -/

/-- The inodes that stand in the slots of a drive. -/
structure Slots (drive : File) (sb : SuperBlock) (n : ℕ → Inode) : Prop where
  fits : ∀ i < sb.totalInodes, (n i).Fits
  slice : ∀ i < sb.totalInodes,
    drive.slice (sb.inodeAddr i) sb.blockSize = pad sb.blockSize (n i).encode
  size : sb.blockAddr 0 ≤ drive.size

/-- An inode as `init` keeps it: an unoccupied one gets its index. -/
def adopt (n : ℕ → Inode) (i : ℕ) : Inode :=
  if (n i).type = 0 then { n i with self := i } else n i

/-- The vector of inodes after `m` slots were read. -/
def loaded (n : ℕ → Inode) (m i : ℕ) : Inode := if i < m then adopt n i else Inode.zero

/-- The marks that `init` sets for one inode. -/
def markInode (size : ℕ) (n : ℕ → Inode) (bitmap : ℕ → Bool) (i : ℕ) : Option (ℕ → Bool) :=
  if (n i).type = 0 then some bitmap else markBlocks size (n i) 11 0 bitmap

section Load

variable {drive : File} {sb : SuperBlock} {n : ℕ → Inode}

/-- The bytes read into record `k`. -/
theorem loadSlot_of_range {table : ℕ → Inode} {i k : ℕ} {slot : List Byte}
    (h : ¬((k + 1) * sizeofInode ≤ i * sizeofInode ∨
      i * sizeofInode + slot.length ≤ k * sizeofInode)) {n : Inode} (hfit : n.Fits)
    (hbytes : ∀ b < sizeofInode, (if i * sizeofInode ≤ k * sizeofInode + b ∧
        k * sizeofInode + b < i * sizeofInode + slot.length
      then slot.getD (k * sizeofInode + b - i * sizeofInode) 0
      else tableByte table (k * sizeofInode + b)) = n.encode.getD b 0) :
    loadSlot table i slot k = n := by
  have hlist : (List.range sizeofInode).map (fun b =>
      if i * sizeofInode ≤ k * sizeofInode + b ∧ k * sizeofInode + b < i * sizeofInode + slot.length
      then slot.getD (k * sizeofInode + b - i * sizeofInode) 0
      else tableByte table (k * sizeofInode + b)) = n.encode := by
    apply List.ext_getElem (by simp)
    intro b hb hb'
    rw [List.getElem_map, List.getElem_range, hbytes b (by simpa using hb),
      List.getD_eq_getElem _ _ hb']
  have := Inode.decode_encode hfit []
  rw [List.append_nil] at this
  rw [loadSlot, if_neg h]
  exact (congrArg Inode.decode hlist).trans this

theorem getD_pad_lt {bs k : ℕ} {c : List Byte} (h : k < c.length) :
    (pad bs c).getD k 0 = c.getD k 0 := by
  rw [pad, List.getD_append _ _ _ _ h]

theorem getD_pad_ge {bs k : ℕ} {c : List Byte} (h : c.length ≤ k) : (pad bs c).getD k 0 = 0 := by
  rw [pad, List.getD_append_right _ _ _ _ h]
  by_cases hk : k - c.length < bs - c.length
  · rw [List.getD_eq_getElem _ _ (by simpa using hk), List.getElem_replicate]
  · rw [List.getD_eq_default _ _ (by simpa using hk)]

theorem getD_encode_zero (b : ℕ) : Inode.zero.encode.getD b 0 = 0 := by
  rw [encode_zero]
  by_cases hb : b < sizeofInode
  · rw [List.getD_eq_getElem _ _ (by simpa using hb), List.getElem_replicate]
  · rw [List.getD_eq_default _ _ (by simpa using hb)]

/-- Reading slot `m` into a vector that is filled up to there: inode `m` is set, and the zeros behind
it go over zeros. -/
theorem loadSlot_loaded {m : ℕ} (hbs : sb.blockSize = 256) (hfit : (n m).Fits) :
    loadSlot (loaded n m) m (pad sb.blockSize (n m).encode) =
      Function.update (loaded n m) m (n m) := by
  have h121 : sizeofInode = 121 := rfl
  have henc : (n m).encode.length = 121 := encode_length _
  have hlen : (pad sb.blockSize (n m).encode).length = 256 := by
    rw [pad, List.length_append, List.length_replicate, henc, hbs]
  funext k
  by_cases hkm : k = m
  · subst hkm
    rw [Function.update_self]
    refine loadSlot_of_range (by rw [hlen, h121]; omega) hfit fun b hb => ?_
    rw [if_pos (by rw [hlen]; omega), Nat.add_sub_cancel_left, getD_pad_lt (by omega)]
  · rw [Function.update_of_ne hkm]
    by_cases hlt : k < m
    · rw [loadSlot, if_pos (Or.inl (Nat.mul_le_mul_right _ hlt))]
    · have hzero : ∀ k, m ≤ k → loaded n m k = Inode.zero := fun k hk => if_neg (by omega)
      by_cases hfar : m * sizeofInode + 256 ≤ k * sizeofInode
      · rw [loadSlot, if_pos (Or.inr (by rw [hlen]; exact hfar))]
      · rw [hzero k (by omega)]
        refine loadSlot_of_range (by rw [hlen, h121] at *; omega) (by unfold Inode.Fits; decide)
          fun b hb => ?_
        rw [getD_encode_zero]
        split_ifs with hin
        · exact getD_pad_ge (by rw [henc, h121]; omega)
        · have hdiv : (k * sizeofInode + b) / sizeofInode = k := by
            rw [Nat.mul_comm, Nat.mul_add_div (by omega), Nat.div_eq_of_lt hb, Nat.add_zero]
          rw [tableByte, hdiv, hzero k (by omega), getD_encode_zero]

theorem initStep_eq (hf : Formatted sb) (h : Slots drive sb n) {m : ℕ} (hm : m < sb.totalInodes)
    (bitmap : ℕ → Bool) (queue : List ℕ) :
    initStep drive sb (loaded n m, bitmap, queue) m =
      (markInode sb.totalDataBlocks n bitmap m).map fun bitmap =>
        (loaded n (m + 1), bitmap, m :: queue) := by
  have hbs := hf.blockSize
  have hstep : sb.inodeSize * sb.blockSize = sb.blockSize := by rw [hf.inodeSize, Nat.one_mul]
  have haddr : sb.inodesStart + m * sb.blockSize = sb.inodeAddr m := by
    rw [hf.inodeAddr hm, hf.inodesStart, hbs, Nat.mul_comm]
  have hend := hf.slot_lt_block (Or.inl hm : SelfOk sb m) hf.totalDataBlocks_pos
  have hsize := h.size
  have hslot : (drive.fseek (sb.inodeAddr m)).fread sb.blockSize =
      pad sb.blockSize (n m).encode := by
    rw [File.fread_of_le _ _ _ (by omega), h.slice m hm]
  have hlen : (pad sb.blockSize (n m).encode).length = sb.blockSize := by
    have := hf.sizeofInode_lt
    rw [pad, List.length_append, List.length_replicate, encode_length]
    omega
  have hroom : ¬(sb.inodesSize * sizeofInode < m * sizeofInode + sb.blockSize) := by
    have h121 : sizeofInode = 121 := rfl
    rw [hf.inodesSize, hbs, h121]
    omega
  -- the turn changes entry `m` of the table and no other one
  have hload : loaded n (m + 1) = Function.update (loaded n m) m (adopt n m) := by
    funext k
    by_cases hk : k = m
    · subst hk
      rw [Function.update_self, loaded, if_pos (Nat.lt_succ_self k)]
    · rw [Function.update_of_ne hk, loaded, loaded]
      by_cases hlt : k < m
      · rw [if_pos (by omega), if_pos hlt]
      · rw [if_neg (by omega), if_neg hlt]
  simp only [initStep, hstep, haddr, hslot, hlen, lt_irrefl, false_or, if_neg hroom,
    loadSlot_loaded hbs (h.fits m hm), Function.update_self, Function.update_idem, markInode]
  rw [hload, adopt]
  split_ifs with htype
  · rfl
  · cases markBlocks sb.totalDataBlocks (n m) 11 0 bitmap <;> rfl

/-- The loop of `init` after `m` slots. -/
theorem foldlM_initStep (hf : Formatted sb) (h : Slots drive sb n) (bitmap : ℕ → Bool) {m : ℕ}
    (hm : m ≤ sb.totalInodes) :
    (List.range m).foldlM (initStep drive sb) (fun _ => Inode.zero, bitmap, []) =
      ((List.range m).foldlM (markInode sb.totalDataBlocks n) bitmap).map fun bitmap =>
        (loaded n m, bitmap, (List.range m).reverse) := by
  induction m with
  | zero =>
    have : loaded n 0 = fun _ => Inode.zero := funext fun k => if_neg (by omega)
    simp [this]
  | succ m ih =>
    rw [List.range_succ, List.foldlM_append, List.foldlM_append, ih (by omega)]
    cases (List.range m).foldlM (markInode sb.totalDataBlocks n) bitmap with
    | none => rfl
    | some bitmap =>
      simp only [Option.map_some, Option.bind_eq_bind, Option.bind_some, List.foldlM_cons,
        List.foldlM_nil, List.reverse_append, List.reverse_cons, List.reverse_nil, List.nil_append,
        List.singleton_append]
      rw [initStep_eq hf h (by omega)]
      cases markInode sb.totalDataBlocks n bitmap m <;> rfl

/-- The state of a volume just read, before the root is entered. -/
def fresh (drive : File) (sb : SuperBlock) (n : ℕ → Inode) (bitmap : ℕ → Bool) : Instance where
  drive := drive
  sb := sb
  inodes := loaded n sb.totalInodes
  dataBitmap := bitmap
  inodesSorted := (List.range sb.totalInodes).reverse
  cwdNode := 0
  cwd := []
  stderr := []

/-- **What `init` does**: it loads the slots, marks blocks, and enters the root. -/
theorem init_eq (hf : Formatted sb) (h : Slots drive sb n) : Instance.init drive sb =
    ((List.range sb.totalInodes).foldlM (markInode sb.totalDataBlocks n)
      (Function.update (fun _ => false) 0 true)).bind fun bitmap =>
        (fresh drive sb n bitmap).cdNode 0 := by
  rw [Instance.init, setBit, if_pos hf.totalDataBlocks_pos]
  simp only [Option.bind_eq_bind, Option.bind_some, foldlM_initStep hf h _ le_rfl]
  cases (List.range sb.totalInodes).foldlM (markInode sb.totalDataBlocks n)
    (Function.update (fun _ => false) 0 true) <;> rfl

end Load

/-! ### The invariant after mounting -/

/-- The inode that stands in slot `i`. -/
def slotInode (drive : File) (sb : SuperBlock) (i : ℕ) : Inode :=
  Inode.decode (drive.slice (sb.inodeAddr i) sizeofInode)

theorem rootInode_fits : rootInode.Fits := by
  unfold Inode.Fits
  decide

section Slots

variable {drive : File} {sb : SuperBlock} {s t : Instance}

theorem slotInode_eq (hf : Formatted sb) {i : ℕ} {n : Inode} (hfit : n.Fits)
    (h : drive.slice (sb.inodeAddr i) sb.blockSize = pad sb.blockSize n.encode) :
    slotInode drive sb i = n := by
  have htake : drive.slice (sb.inodeAddr i) sizeofInode = n.encode := by
    rw [← File.slice_take _ _ _ hf.sizeofInode_lt.le, h, pad,
      List.take_append_of_le_length (encode_length n).ge, List.take_of_length_le (encode_length n).le]
  have := Inode.decode_encode hfit []
  rwa [List.append_nil, ← htake] at this

theorem SlotsOk.slotInode_root (h : SlotsOk s) (hf : Formatted s.sb) :
    slotInode s.drive s.sb 0 = rootInode := slotInode_eq hf rootInode_fits h.root

theorem SlotsOk.slotInode (h : SlotsOk s) (hf : Formatted s.sb) {i : ℕ} (h0 : i ≠ 0)
    (hi : i < s.sb.totalInodes) : SlotInode s.sb i (slotInode s.drive s.sb i) := by
  obtain ⟨n, hn, hslice⟩ := h.slot i h0 hi
  rwa [slotInode_eq hf (hn.fits hf) hslice]

/-- The slots of a volume with the invariant. -/
theorem Inv.slots_slotInode (h : Inv s) : Slots s.drive s.sb (MufaFs.slotInode s.drive s.sb) := by
  have hf := h.formatted
  refine ⟨fun i hi => ?_, fun i hi => ?_, ?_⟩
  · by_cases h0 : i = 0
    · rw [h0, h.slots.slotInode_root hf]
      exact rootInode_fits
    · exact (h.slots.slotInode hf h0 hi).fits hf
  · by_cases h0 : i = 0
    · rw [h0, h.slots.slotInode_root hf, h.slots.root]
    · obtain ⟨n, hn, hslice⟩ := h.slots.slot i h0 hi
      rw [slotInode_eq hf (hn.fits hf) hslice, hslice]
  · exact (Nat.le_add_right _ _).trans (h.owned.covered 0 0 h.table.root_holds)

end Slots

section NoBlocks

variable {drive : File} {sb : SuperBlock} {n : ℕ → Inode} {t : Instance}

/-- The bitmap of a volume whose inodes list no blocks. -/
def emptyBitmap : ℕ → Bool := Function.update (fun _ => false) 0 true

theorem emptyBitmap_eq_true {b : ℕ} : emptyBitmap b = true ↔ b = 0 := by
  rw [emptyBitmap]
  by_cases hb : b = 0
  · simp [hb]
  · simp [hb]

theorem adopt_type (n : ℕ → Inode) (i : ℕ) : (adopt n i).type = (n i).type := by
  rw [adopt]
  split_ifs <;> rfl

theorem adopt_dataBlocks (n : ℕ → Inode) (i : ℕ) : (adopt n i).dataBlocks = (n i).dataBlocks := by
  rw [adopt]
  split_ifs <;> rfl

theorem loaded_of_lt {i m : ℕ} (h : i < m) : loaded n m i = adopt n i := if_pos h

variable (hroot : n 0 = rootInode) (hnone : ∀ i < sb.totalInodes, ∀ j, (n i).dataBlocks j = 0)
include hroot

theorem loaded_root (h : 0 < sb.totalInodes) : loaded n sb.totalInodes 0 = rootInode := by
  rw [loaded_of_lt h, adopt, hroot]
  rfl

theorem tableOk_fresh (hf : Formatted sb) (bitmap : ℕ → Bool)
    (hslot : ∀ i, i ≠ 0 → i < sb.totalInodes → SlotInode sb i (n i)) :
    TableOk (fresh drive sb n bitmap) := by
  have h10 := hf.totalInodes
  have h0 : loaded n sb.totalInodes 0 = rootInode := loaded_root hroot (by omega)
  have key : ∀ P : Inode → Prop, P rootInode →
      (∀ i, i ≠ 0 → i < sb.totalInodes → P (adopt n i)) →
      ∀ i < sb.totalInodes, P (loaded n sb.totalInodes i) := by
    intro P hr h i hi
    by_cases hi0 : i = 0
    · rwa [hi0, h0]
    · rw [loaded_of_lt hi]
      exact h i hi0 hi
  constructor
  · exact congrArg Inode.self h0
  · intro i hi0 hi
    have hi : i < sb.totalInodes := hi
    show (loaded n sb.totalInodes i).self = i
    rw [loaded_of_lt hi, adopt]
    split_ifs with htype
    · rfl
    · exact (hslot i hi0 hi).self_eq htype
  · refine key (fun m => m.type ≤ 2) (by decide) fun i hi0 hi => ?_
    rw [adopt]
    split_ifs <;> exact (hslot i hi0 hi).type_le
  · refine key (fun m => SelfOk sb m.parent) (Or.inr rfl) fun i hi0 hi => ?_
    rw [adopt]
    split_ifs <;> exact (hslot i hi0 hi).parent_ok
  · show (loaded n sb.totalInodes 0).type ≠ 0
    rw [h0]
    decide
  · refine key (fun m => m.indirect1 = 0 ∧ m.indirect2 = 0 ∧ m.indirect3 = 0) ⟨rfl, rfl, rfl⟩
      fun i hi0 hi => ?_
    rw [adopt]
    split_ifs <;> exact (hslot i hi0 hi).indirect
  · intro i hi
    exact if_neg (Nat.not_lt.2 hi)

include hnone

omit hroot in
theorem fresh_dataBlocks (bitmap : ℕ → Bool) (i : ℕ) (j : Fin 10) :
    ((fresh drive sb n bitmap).inodes i).dataBlocks j = 0 := by
  show (loaded n sb.totalInodes i).dataBlocks j = 0
  by_cases hi : i < sb.totalInodes
  · rw [loaded_of_lt hi, adopt_dataBlocks]
    exact hnone i hi j
  · rw [loaded, if_neg hi]
    rfl

omit hroot in
theorem ownedOk_fresh (hf : Formatted sb)
    (htable : TableOk (fresh drive sb n emptyBitmap))
    (hcov : sb.blockAddr 0 + sb.blockSize ≤ drive.size) :
    OwnedOk (fresh drive sb n emptyBitmap) := by
  have hblocks : ∀ i j, ((fresh drive sb n emptyBitmap).inodes i).dataBlocks j = 0 :=
    fresh_dataBlocks hnone emptyBitmap
  have hholds : ∀ i b, ((fresh drive sb n emptyBitmap).inodes i).Holds b ↔ i = 0 ∧ b = 0 := by
    intro i b
    rw [Inode.Holds, htable.self_eq_rootSelf_iff hf]
    constructor
    · rintro (h | ⟨hb, j, hj⟩)
      · exact h
      · exact absurd (hj.symm.trans (hblocks i j)) hb
    · exact Or.inl
  constructor
  · constructor
    · intro i j b hi hj
      exact ((hholds i b).1 hi).1.trans ((hholds j b).1 hj).1.symm
    · intro b
      refine emptyBitmap_eq_true.trans ⟨fun hb => ⟨0, (hholds 0 b).2 ⟨rfl, hb⟩⟩, ?_⟩
      rintro ⟨i, hi⟩
      exact ((hholds i b).1 hi).2
  · intro i j k _ hne
    exact absurd (hblocks i j) hne
  · intro i j
    rw [hblocks]
    exact hf.totalDataBlocks_pos
  · exact hblocks 0 0
  · intro i b hb
    obtain ⟨-, rfl⟩ := (hholds i b).1 hb
    exact hcov

omit hroot in
theorem init_of_no_blocks (hf : Formatted sb) (h : Slots drive sb n) :
    Instance.init drive sb = (fresh drive sb n emptyBitmap).cdNode 0 := by
  have hmark : ∀ (is : List ℕ) (bitmap : ℕ → Bool), (∀ i ∈ is, i < sb.totalInodes) →
      is.foldlM (markInode sb.totalDataBlocks n) bitmap = some bitmap := by
    intro is
    induction is with
    | nil => intro _ _; rfl
    | cons i is ih =>
      intro bitmap his
      have hi : markInode sb.totalDataBlocks n bitmap i = some bitmap := by
        rw [markInode]
        split_ifs
        · rfl
        · rw [markBlocks, dif_pos (by norm_num)]
          exact if_pos (hnone i (his i List.mem_cons_self) 0)
      rw [List.foldlM_cons, hi, Option.bind_eq_bind, Option.bind_some,
        ih bitmap fun k hk => his k (List.mem_cons_of_mem _ hk)]
  rw [init_eq hf h, hmark _ _ fun i hi => List.mem_range.1 hi]
  rfl

/-- **Mounting a drive whose slots list no data blocks** establishes the invariant. -/
theorem Inv.of_init (hf : Formatted sb) (h : Slots drive sb n)
    (hslot : ∀ i, i ≠ 0 → i < sb.totalInodes → SlotInode sb i (n i))
    (hsb : readSuperblock drive = sb) (hcov : sb.blockAddr 0 + sb.blockSize ≤ drive.size)
    (hdir : ∀ dir, (fresh drive sb n emptyBitmap).getDirEntry 0 = some dir → GoodDir sb dir)
    (ht : Instance.init drive sb = some t) : Inv t := by
  have h10 := hf.totalInodes
  have htable : TableOk (fresh drive sb n emptyBitmap) := tableOk_fresh hroot hf _ hslot
  have hinv : Inv (fresh drive sb n emptyBitmap) :=
    { formatted := hf
      table := htable
      owned := ownedOk_fresh hnone hf htable hcov
      listings := by
        intro i hi dir h
        by_cases h0 : i = 0
        · exact hdir dir (h0 ▸ h)
        · rw [htable.getDirEntry_of_no_blocks hf h0 (fresh_dataBlocks hnone _ i)] at h
          cases h
          exact GoodDir.nil hf.blockSize_pos
      queue :=
        { nodup := List.nodup_reverse.2 List.nodup_range
          lt := fun i hi => List.mem_range.1 (List.mem_reverse.1 hi)
          free_mem := fun i hi _ => List.mem_reverse.2 (List.mem_range.2 hi) }
      slots :=
        { superblock := hsb
          root := by
            have hroot' := h.slice 0 (by omega)
            rwa [hroot] at hroot'
          slot := fun i h0 hi => ⟨n i, hslot i h0 hi, h.slice i hi⟩ }
      cwd_lt := by
        show 0 < sb.totalInodes
        omega }
  rw [init_of_no_blocks hnone hf h] at ht
  exact hinv.micro (.enter hinv.cwd_lt ht)

end NoBlocks

/-! ### Mounting a new image -/

def newInodes (i : ℕ) : Inode := if i = 0 then rootInode else Inode.zero

theorem newInodes_zero : newInodes 0 = rootInode := rfl

theorem newInodes_of_ne {i : ℕ} (h : i ≠ 0) : newInodes i = Inode.zero := if_neg h

theorem newInodes_dataBlocks (i : ℕ) (j : Fin 10) : (newInodes i).dataBlocks j = 0 := by
  rw [newInodes]
  split_ifs <;> rfl

section NewImage

variable {sb : SuperBlock} {size : ℕ} (hf : Formatted sb) (hres : sb.reservedBlocks = 1)
  (hlen : sb.encode.length = 70)
include hf hres hlen

theorem slots_formatDrive : Slots (formatDrive sb size) sb newInodes := by
  have h121 : sizeofInode = 121 := rfl
  refine ⟨fun i hi => ?_, fun i hi => ?_, ?_⟩
  · by_cases h0 : i = 0
    · rw [h0]
      exact rootInode_fits
    · rw [newInodes_of_ne h0]
      unfold Inode.Fits
      decide
  · have hbs := hf.blockSize
    rw [hf.inodeAddr hi]
    refine slice_slot hf.sizeofInode_lt.le ?_ fun k hk hk' => ?_
    · rw [← encode_length (newInodes i)]
      refine File.slice_eq_of_getD fun k hk => ?_
      rw [encode_length] at hk
      rw [formatDrive_byte hf hres hlen, if_neg (by omega)]
      by_cases h0 : i = 0
      · rw [if_pos (by omega), h0, newInodes_zero,
          show 336 + 256 * 0 + k - 336 = k by omega]
      · rw [if_neg (by omega), newInodes_of_ne h0, getD_encode_zero]
    · rw [formatDrive_byte hf hres hlen, if_neg (by omega), if_neg (by omega)]
  · rw [hf.blockAddr hf.totalDataBlocks_pos, formatDrive_size _ hf hres hlen]
    omega

/-- The root of a new image has an empty block, if the block lies inside of the file. -/
theorem getDirEntry_root_new (hcov : sb.blockAddr 0 + sb.blockSize ≤ (formatDrive sb size).size) :
    (fresh (formatDrive sb size) sb newInodes emptyBitmap).getDirEntry 0 = some [] := by
  have h10 := hf.totalInodes
  have haddr := hf.blockAddr hf.totalDataBlocks_pos
  have hread : ((formatDrive sb size).fseek (sb.blockAddr 0)).fread sb.blockSize =
      List.replicate sb.blockSize 0 := by
    rw [File.fread_of_le _ _ _ hcov]
    conv_lhs => rw [← List.length_replicate (n := sb.blockSize) (a := (0 : Byte))]
    refine File.slice_eq_of_getD fun k hk => ?_
    rw [List.length_replicate] at hk
    rw [formatDrive_byte hf hres hlen, if_neg (by omega), if_neg (by omega),
      List.getD_eq_getElem _ _ (by simpa using hk), List.getElem_replicate]
  have hentries : ∀ j, (fresh (formatDrive sb size) sb newInodes emptyBitmap).blockEntries
      ((fresh (formatDrive sb size) sb newInodes emptyBitmap).inodes 0) j = some [] := by
    intro j
    have hj : ((fresh (formatDrive sb size) sb newInodes emptyBitmap).inodes 0).dataBlocks j = 0 :=
      fresh_dataBlocks (fun i _ j => newInodes_dataBlocks i j) emptyBitmap 0 j
    by_cases hlisted : Listed
        ((fresh (formatDrive sb size) sb newInodes emptyBitmap).inodes 0) j
    · rw [blockEntries_of_listed hlisted, hj]
      show parseEntries (CString.zstrings
        (((formatDrive sb size).fseek (sb.blockAddr 0)).fread sb.blockSize)) = some []
      rw [hread, hf.blockSize, CString.zstrings_replicate]
      rfl
    · exact blockEntries_of_not_listed hlisted
  rw [getDirEntry]
  induction List.finRange 10 with
  | nil => rfl
  | cons j js ih => rw [gatherEntries, ih, hentries]; rfl

end NewImage

section Mount

variable {name : List Byte} {size : ℕ} {next : UInt16} {img : File} {s : Instance}

/-- The state after mounting a new image. -/
def newInstance (img : File) (sb : SuperBlock) : Instance := fresh img sb newInodes emptyBitmap

/-- The block of the root lies inside of the drive, unless the size was so small that the number of
blocks wrapped around. -/
theorem createDriveImage_covers (h : createDriveImage name size next = some img) :
    (newSuperBlock name size next).blockAddr 0 + (newSuperBlock name size next).blockSize ≤
      img.size ↔ 80 ≤ size := by
  obtain ⟨h10, rfl⟩ := createDriveImage_eq_some h
  have hf := newSuperBlock_formatted h10
  rw [hf.blockAddr hf.totalDataBlocks_pos, hf.blockSize, formatDrive_size _ hf
    (newSuperBlock_reservedBlocks _ _ _) (encode_newSuperBlock_length _ _ _)]
  have htotal : (newSuperBlock name size next).totalInodes =
      (size + 2 ^ 64 - 80) % 2 ^ 64 / 256 / 30 := rfl
  omega

/-- Every slot of a new image holds its inode. -/
theorem slots_image (h : createDriveImage name size next = some img) :
    Slots img (newSuperBlock name size next) newInodes := by
  obtain ⟨h10, rfl⟩ := createDriveImage_eq_some h
  exact slots_formatDrive (newSuperBlock_formatted h10) (newSuperBlock_reservedBlocks _ _ _)
    (encode_newSuperBlock_length _ _ _)

/-- Mounting a new image enters the root of the empty volume. -/
theorem mount_image_eq (h : createDriveImage name size next = some img) :
    mount img = (newInstance img (newSuperBlock name size next)).cdNode 0 := by
  have hf : Formatted (newSuperBlock name size next) :=
    newSuperBlock_formatted (createDriveImage_eq_some h).1
  rw [mount, readSuperblock_image h, init_of_no_blocks (fun i _ j => newInodes_dataBlocks i j) hf
    (slots_image h)]
  rfl

/-- **Mounting a new image** gives the empty volume. -/
theorem mount_image (h : createDriveImage name size next = some img) (h80 : 80 ≤ size) :
    mount img = some (newInstance img (newSuperBlock name size next)) := by
  have hcov := (createDriveImage_covers h).2 h80
  rw [mount_image_eq h, cdNode, newInstance]
  obtain ⟨h10, rfl⟩ := createDriveImage_eq_some h
  rw [getDirEntry_root_new (newSuperBlock_formatted h10) (newSuperBlock_reservedBlocks _ _ _)
    (encode_newSuperBlock_length _ _ _) hcov]
  rfl

theorem mount_small (h : createDriveImage name size next = some img) (h80 : ¬80 ≤ size) :
    mount img = none := by
  have hcov := (createDriveImage_covers h).not.2 h80
  rw [mount_image_eq h, cdNode, newInstance, getDirEntry]
  obtain ⟨h10, rfl⟩ := createDriveImage_eq_some h
  have hf : Formatted (newSuperBlock name size next) := newSuperBlock_formatted h10
  have hsize := formatDrive_size size hf (newSuperBlock_reservedBlocks _ _ _)
    (encode_newSuperBlock_length _ _ _)
  generalize newSuperBlock name size next = sb at *
  have hread : ((formatDrive sb size).fseek (sb.blockAddr 0)).fread sb.blockSize = [] := by
    refine List.eq_nil_of_length_eq_zero ?_
    rw [File.fread_length, File.fseek_size, File.fseek_pos, hf.blockAddr hf.totalDataBlocks_pos,
      hsize]
    have := hf.totalInodes
    omega
  have hroot : (fresh (formatDrive sb size) sb newInodes emptyBitmap).inodes 0 = rootInode :=
    loaded_root newInodes_zero (by have := hf.totalInodes; omega)
  have h0 : (fresh (formatDrive sb size) sb newInodes emptyBitmap).blockEntries
      ((fresh (formatDrive sb size) sb newInodes emptyBitmap).inodes 0) 0 = none := by
    rw [blockEntries_of_listed (by rw [hroot]; exact Or.inr ⟨rfl, rfl⟩), hroot]
    show parseEntries (CString.zstrings
      (((formatDrive sb size).fseek (sb.blockAddr 0)).fread sb.blockSize)) = none
    rw [hread]
    rfl
  rw [List.finRange_succ, gatherEntries, h0]
  rfl

/-- Whatever image was made and mounted, the state is the empty volume. -/
theorem mount_image_eq_some (h : createDriveImage name size next = some img)
    (hs : mount img = some s) : 80 ≤ size ∧ s = newInstance img (newSuperBlock name size next) := by
  by_cases h80 : 80 ≤ size
  · rw [mount_image h h80] at hs
    exact ⟨h80, (Option.some.inj hs).symm⟩
  · rw [mount_small h h80] at hs
    exact absurd hs (by simp)

/-- **The invariant holds on a new volume.** -/
theorem Inv.of_image (h : createDriveImage name size next = some img)
    (hs : mount img = some s) : Inv s := by
  obtain ⟨h80, -⟩ := mount_image_eq_some h hs
  have hcov := (createDriveImage_covers h).2 h80
  have hsb := readSuperblock_image h
  have hslots := slots_image h
  obtain ⟨h10, rfl⟩ := createDriveImage_eq_some h
  have hf : Formatted (newSuperBlock name size next) := newSuperBlock_formatted h10
  have hpos := hf.totalDataBlocks_pos
  rw [mount, hsb] at hs
  refine Inv.of_init newInodes_zero (fun i _ j => newInodes_dataBlocks i j) hf hslots
    (fun i h0 hi => ?_) hsb hcov (fun dir hdir => ?_) hs
  · have h10' := hf.totalInodes
    rw [newInodes_of_ne h0]
    exact ⟨Nat.zero_le _, Or.inl (Nat.lt_of_lt_of_le (by decide) h10'),
      Or.inl (Nat.lt_of_lt_of_le (by decide) h10'), fun h => absurd rfl h, fun _ => hpos,
      rfl, rfl, rfl⟩
  · rw [getDirEntry_root_new hf (newSuperBlock_reservedBlocks _ _ _)
      (encode_newSuperBlock_length _ _ _) hcov] at hdir
    cases hdir
    exact GoodDir.nil hf.blockSize_pos

/-- Nothing is listed on a new image. -/
theorem getDirEntry_of_image (himg : createDriveImage name size next = some img)
    (hmount : mount img = some s) (p : ℕ) : s.getDirEntry p = some [] := by
  have hinv := Inv.of_image himg hmount
  obtain ⟨h80, rfl⟩ := mount_image_eq_some himg hmount
  have hcov := (createDriveImage_covers himg).2 h80
  obtain ⟨h10, rfl⟩ := createDriveImage_eq_some himg
  by_cases h0 : p = 0
  · rw [h0]
    exact getDirEntry_root_new (newSuperBlock_formatted h10)
      (newSuperBlock_reservedBlocks name size next) (encode_newSuperBlock_length name size next) hcov
  · exact hinv.table.getDirEntry_of_no_blocks hinv.formatted h0
      (fresh_dataBlocks (fun i _ j => newInodes_dataBlocks i j) emptyBitmap p)

variable (img) in
/-- The root of a new volume. -/
theorem newInstance_root (h10 : 10 ≤ (newSuperBlock name size next).totalInodes) :
    (newInstance img (newSuperBlock name size next)).inodes 0 = rootInode :=
  loaded_root newInodes_zero (by omega)

/-- The other inodes of it. -/
theorem newInstance_inodes {k : ℕ} (h0 : k ≠ 0) (hk : k < (newSuperBlock name size next).totalInodes) :
    (newInstance img (newSuperBlock name size next)).inodes k = { Inode.zero with self := k } := by
  have hload : (newInstance img (newSuperBlock name size next)).inodes k = adopt newInodes k :=
    loaded_of_lt hk
  rw [hload, adopt, newInodes_of_ne h0]
  rfl

end Mount

end MufaFs
