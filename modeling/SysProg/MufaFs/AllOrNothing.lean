import SysProg.MufaFs.Creation

/-!
# Writes that store all data or nothing

`write_file` of a name never looks at the length of the data: the loop leaves `data_blocks` after ten
blocks, and ends without a word when the bitmap has no free block left.

* `Stored t i data`: the data stands in the direct blocks of the inode;
* `stored_written_iff`: `write_file` stores what it has blocks for;
* `Inv.room_child`: the blocks that are left after the listing of a new name;
* `allOrNothing_iff`: when `write_file` of a name stores all data, or refuses and changes nothing.
-/

namespace MufaFs

open ByteFile FirstFit Instance

/-! ### What a write promises -/

/-- The number of blocks that data of `n` bytes takes. -/
def blocksNeeded (blockSize n : ℕ) : ℕ := if n = 0 then 0 else blocksFor blockSize n

/-- Chunk for chunk, the data stands in the first direct blocks of inode `i`. -/
def Stored (t : Instance) (i : ℕ) (data : List Byte) : Prop :=
  ∀ m, m * t.sb.blockSize < data.length → ∃ h : m < 10, Listed (t.inodes i) ⟨m, h⟩ ∧
    t.drive.slice (t.sb.blockAddr ((t.inodes i).dataBlocks ⟨m, h⟩)) t.sb.blockSize =
      pad t.sb.blockSize ((data.drop (m * t.sb.blockSize)).take t.sb.blockSize)

/-- The inode that `write` of a name goes to: the one that is listed, or the top of the queue. -/
inductive Target (s : Instance) (name : List Byte) : ℕ → Prop
  | listed (dir : List Entry) (v : Entry) : s.getDirEntry s.cwdNode = some dir →
      lookup dir name = some v → Target s name v.2
  | new (dir : List Entry) (i : ℕ) (s' : Instance) : s.getDirEntry s.cwdNode = some dir →
      lookup dir name = none → s.findInode = some (i, s') → Target s name i

/-- The bitmap, every inode and every data block are as they were. -/
structure Unchanged (s t : Instance) : Prop where
  sb : t.sb = s.sb
  dataBitmap : t.dataBitmap = s.dataBitmap
  inodes : t.inodes = s.inodes
  bytes : ∀ b < s.sb.totalDataBlocks, ∀ k < s.sb.blockSize,
    t.drive.byte (s.sb.blockAddr b + k) = s.drive.byte (s.sb.blockAddr b + k)

/-- Reasons to refuse a write to inode `i`: too much data, too few blocks, or no file. -/
def Refusable (s : Instance) (i : ℕ) (data : List Byte) : Prop :=
  10 < blocksNeeded s.sb.blockSize data.length ∨
    room s i < blocksNeeded s.sb.blockSize data.length ∨ (s.inodes i).type ≠ 1

/-- `write_file` of a name stays inside of `data_blocks`, and either stores all data and returns true,
or returns false for a reason and changes nothing. -/
def AllOrNothing (s : Instance) (name data : List Byte) : Prop :=
  ∃ b t, s.writeFileNamed name data = some (b, t) ∧ ∃ i, Target s name i ∧
    (b = true ∧ Stored t i data ∨ b = false ∧ Refusable s i data ∧ Unchanged s t)

/-! ### One call of `write_file` -/

section Stored

variable {s : Instance} {i : ℕ} {data : List Byte} {bs n m : ℕ}

theorem lt_blocksNeeded (hbs : 0 < bs) : m < blocksNeeded bs n ↔ m * bs < n := by
  rw [blocksNeeded, blocksFor]
  split_ifs with h
  · simp [h]
  · rw [Nat.lt_succ_iff, Nat.le_div_iff_mul_le hbs]
    omega

variable (hf : Formatted s.sb) (hself : SelfOk s.sb (s.inodes i).self)
  (hbit : s.dataBitmap 0 = true)
include hf hself hbit

/-- **`write_file` stores what it has blocks for.** -/
theorem stored_written_iff (hlen : (blocksOf s i data).length ≤ 10) :
    Stored (written s i data) i data ↔
      blocksNeeded s.sb.blockSize data.length ≤ (blocksOf s i data).length := by
  have hbs := hf.blockSize_pos
  constructor
  · intro hstored
    by_contra hlt
    -- the first chunk without a block
    obtain ⟨h10, hlisted, -⟩ := hstored (blocksOf s i data).length
      ((lt_blocksNeeded hbs).1 (Nat.lt_of_not_le hlt))
    exact absurd ((listed_written hf hbit).1 hlisted) (lt_irrefl _)
  · intro hle m hm
    have hlt : m < (blocksOf s i data).length := ((lt_blocksNeeded hbs).2 hm).trans_le hle
    refine ⟨by omega, (listed_written hf hbit).2 hlt, ?_⟩
    have hblock : ((written s i data).inodes i).dataBlocks ⟨m, by omega⟩ = (blocksOf s i data)[m] := by
      rw [written_inodes_self]
      exact List.getD_eq_getElem _ _ hlt
    rw [hblock]
    exact written_block hf hself hlt

/-- A call of `write_file` completes and stores all data exactly if the data takes ten blocks at most,
and not more than there are. -/
theorem stores_iff (hblocks : ∀ j, (s.inodes i).dataBlocks j < s.sb.totalDataBlocks) :
    (∃ t, s.writeFile i data = some t ∧ Stored t i data) ↔
      blocksNeeded s.sb.blockSize data.length ≤ 10 ∧
        blocksNeeded s.sb.blockSize data.length ≤ room s i := by
  have hlength : (blocksOf s i data).length = min (blocksFor s.sb.blockSize data.length) (room s i) :=
    blocksOf_length
  have hneed : blocksNeeded s.sb.blockSize data.length = 0 ∧
      blocksFor s.sb.blockSize data.length = 1 ∨
        blocksNeeded s.sb.blockSize data.length = blocksFor s.sb.blockSize data.length := by
    rw [blocksNeeded]
    split_ifs with h
    · exact Or.inl ⟨rfl, blocksFor_of_le hf.blockSize_pos (by omega)⟩
    · exact Or.inr rfl
  rw [writeFile_eq hf.blockSize_pos hf.totalDataBlocks_pos hblocks]
  constructor
  · rintro ⟨t, ht, hstored⟩
    split_ifs at ht with hlen
    cases ht
    have hle := (stored_written_iff hf hself hbit hlen).1 hstored
    omega
  · rintro ⟨hten, hroom⟩
    have hlen : (blocksOf s i data).length ≤ 10 := by omega
    exact ⟨_, if_pos hlen, (stored_written_iff hf hself hbit hlen).2 (by omega)⟩

end Stored

/-! ### What is left for a new file -/

/-- The blocks that are free once the blocks of `p` and of `i` are released. -/
def roomOfBoth (s : Instance) (p i : ℕ) : ℕ :=
  (free (release (s.inodes i) (release (s.inodes p) s.dataBitmap)) 0 s.sb.totalDataBlocks).length

/-- The blocks that the directory `p` takes for the listing `dir`. -/
def listingBlocks (s : Instance) (p : ℕ) (dir : List Entry) : ℕ :=
  min (blocksFor s.sb.blockSize (encodeDir dir).length) (room s p)

section Room

variable {s : Instance} {p i : ℕ} {data : List Byte}

theorem release_release (n : Inode) (bitmap : ℕ → Bool) :
    release n (release n bitmap) = release n bitmap := by
  funext b
  rw [release, release, Bool.and_assoc, Bool.and_self]

/-- Released again, the blocks just taken are free. -/
theorem Inv.room_listing_self (h : Inv s) (hlen : (blocksOf s p data).length ≤ 10) :
    room (written s p data) p = room s p := by
  have hbits : release ((written s p data).inodes p) (written s p data).dataBitmap =
      release (s.inodes p) s.dataBitmap := by
    funext b
    rw [Bool.eq_iff_iff, release_eq_true, h.holds_written hlen, written_dataBitmap, mark,
      Bool.or_eq_true, decide_eq_true_eq]
    constructor
    · rintro ⟨hb | hb, hnot⟩
      · exact hb
      · exact absurd hb hnot
    · intro hb
      refine ⟨Or.inl hb, fun hmem => ?_⟩
      rw [not_release_of_mem_blocksOf hmem] at hb
      exact Bool.noConfusion hb
  rw [room, room, hbits, written_sb]

/-- Another inode can take what is free for both, without the blocks just taken. -/
theorem Inv.room_listing_of_ne (h : Inv s) (hi : i ≠ p) :
    room (written s p data) i + (blocksOf s p data).length = roomOfBoth s p i := by
  have hnot : ∀ b ∈ blocksOf s p data, ¬(s.inodes i).Holds b := fun b hb =>
    h.owned.not_holds_of_mem_blocksOf hb hi
  have hbits : release ((written s p data).inodes i) (written s p data).dataBitmap = fun b =>
      release (s.inodes i) (release (s.inodes p) s.dataBitmap) b ||
        decide (b ∈ blocksOf s p data) := by
    funext b
    rw [written_inodes_of_ne hi, Bool.eq_iff_iff]
    simp only [release_eq_true, written_dataBitmap, mark, Bool.or_eq_true, decide_eq_true_eq]
    constructor
    · rintro ⟨hb | hb, hholds⟩
      · exact Or.inl ⟨hb, hholds⟩
      · exact Or.inr hb
    · rintro (⟨hb, hholds⟩ | hb)
      · exact ⟨Or.inl hb, hholds⟩
      · exact ⟨Or.inr hb, hnot b hb⟩
  have hfree : ∀ b ∈ blocksOf s p data, b ∈ free (release (s.inodes i)
      (release (s.inodes p) s.dataBitmap)) 0 s.sb.totalDataBlocks := by
    intro b hb
    refine mem_free.2 ⟨⟨Nat.zero_le b, by rw [Nat.zero_add]; exact mem_blocksOf_lt hb⟩, ?_⟩
    rw [release, not_release_of_mem_blocksOf hb, Bool.false_and]
  rw [room, hbits, written_sb, roomOfBoth, free_length_eq blocksOf_nodup hfree]

theorem room_le_roomOfBoth (s : Instance) (p i : ℕ) : room s p ≤ roomOfBoth s p i := by
  refine (List.monotone_filter_right _ fun b hb => ?_).length_le
  rw [Bool.not_eq_true'] at hb ⊢
  rw [release, hb, Bool.false_and]

/-- **What is left for the data of a new file** once its name is in the listing. -/
theorem Inv.room_child (h : Inv s) {type parent : ℕ} (hi : i < s.sb.totalInodes) (h0 : type ≠ 0)
    (h2 : type ≤ 2) (hparent : SelfOk s.sb parent) {dir : List Entry}
    (hlen : (blocksOf (claimed s i type parent) p (encodeDir dir)).length ≤ 10) :
    room (created s i type parent p (encodeDir dir)) i +
      (if i = p then 0 else listingBlocks s p dir) = roomOfBoth s p i := by
  have hclaim := h.claim hi h0 h2 hparent
  have hsame : SameBlocks s (claimed s i type parent) := sameBlocks_claimed
  have hboth : roomOfBoth (claimed s i type parent) p i = roomOfBoth s p i := by
    rw [roomOfBoth, roomOfBoth, hsame.dataBitmap, hsame.sb]
    congr 2
    funext b
    rw [release, release, release, release, hsame.self, hsame.dataBlocks, hsame.self,
      hsame.dataBlocks]
  rw [room_created]
  split_ifs with hip
  · subst hip
    rw [hclaim.room_listing_self hlen, room_claimed, roomOfBoth, release_release, room, Nat.add_zero]
  · have hlist : (blocksOf (claimed s i type parent) p (encodeDir dir)).length =
        listingBlocks s p dir := by
      rw [blocksOf_length, room_claimed, listingBlocks, hsame.sb]
    rw [← hlist, hclaim.room_listing_of_ne hip, hboth]

end Room

/-! ### Writing by name -/

/-- When a write by name is all or nothing: the current directory can be read, and the name leads to
something that is no file, or to a file with blocks enough, or to nothing, and then the top of the
queue is left with blocks enough when the listing has its own. -/
inductive Fits (s : Instance) (name data : List Byte) : Prop
  | refused (dir : List Entry) (v : Entry) : s.getDirEntry s.cwdNode = some dir →
      lookup dir name = some v → v.2 < s.sb.inodesSize → (s.inodes v.2).type ≠ 1 → Fits s name data
  | file (dir : List Entry) (v : Entry) : s.getDirEntry s.cwdNode = some dir →
      lookup dir name = some v → v.2 < s.sb.inodesSize → (s.inodes v.2).type = 1 →
      blocksNeeded s.sb.blockSize data.length ≤ 10 →
      blocksNeeded s.sb.blockSize data.length ≤ room s v.2 → Fits s name data
  | new (dir : List Entry) (i : ℕ) (s' : Instance) : s.getDirEntry s.cwdNode = some dir →
      lookup dir name = none → s.findInode = some (i, s') →
      listingBlocks s s.cwdNode (dir ++ [(name, (s.inodes i).self)]) ≤ 10 →
      blocksNeeded s.sb.blockSize data.length ≤ 10 →
      blocksNeeded s.sb.blockSize data.length + (if i = s.cwdNode then 0
        else listingBlocks s s.cwdNode (dir ++ [(name, (s.inodes i).self)])) ≤
          roomOfBoth s s.cwdNode i → Fits s name data

section Named

variable {s t : Instance} {i : ℕ} {name data : List Byte} {dir : List Entry}

theorem Target.unique {k : ℕ} (hi : Target s name i) (hk : Target s name k) : i = k := by
  cases hi with
  | listed dir v hdir hv =>
    cases hk with
    | listed dir' v' hdir' hv' =>
      cases hdir.symm.trans hdir'
      cases hv.symm.trans hv'
      rfl
    | new dir' k s' hdir' hnew hfind =>
      cases hdir.symm.trans hdir'
      exact absurd (hv.symm.trans hnew) (by simp)
  | new dir i s' hdir hnew hfind =>
    cases hk with
    | listed dir' v' hdir' hv' =>
      cases hdir.symm.trans hdir'
      exact absurd (hv'.symm.trans hnew) (by simp)
    | new dir' k s'' hdir' hnew' hfind' =>
      cases hfind.symm.trans hfind'
      rfl

/-- `touch` completes exactly if the listing takes ten blocks at most. -/
theorem Inv.touch_iff (h : Inv s) {s' : Instance} (hdir : s.getDirEntry s.cwdNode = some dir)
    (hfind : s.findInode = some (i, s')) {k : ℕ} :
    s.touch s.cwdNode name = some (k, t) ↔
      k = i ∧ listingBlocks s s.cwdNode (dir ++ [(name, (s.inodes i).self)]) ≤ 10 ∧
      t = created s i 1 (s.inodes s.cwdNode).self s.cwdNode
        (encodeDir (dir ++ [(name, (s.inodes i).self)])) := by
  have hclaim := h.micro (.claimFile hfind h.cwd_lt)
  have hsame : SameBlocks s (claimed s i 1 (s.inodes s.cwdNode).self) := sameBlocks_claimed
  have hlist : (blocksOf (claimed s i 1 (s.inodes s.cwdNode).self) s.cwdNode
      (encodeDir (dir ++ [(name, (s.inodes i).self)]))).length =
      listingBlocks s s.cwdNode (dir ++ [(name, (s.inodes i).self)]) := by
    rw [blocksOf_length, room_claimed, listingBlocks, hsame.sb]
  rw [claimFile_eq hfind] at hclaim
  rw [touch, hfind]
  simp only [Option.bind_eq_bind, Option.bind_some]
  rw [claimFile_eq hfind, insertDirEntry, hsame.getDirEntry, hdir, hsame.self]
  simp only [Option.bind_eq_bind, Option.bind_some]
  rw [hclaim.writeFile_eq, hlist]
  split_ifs with hlen
  · rw [Option.bind_some, Option.some.injEq, Prod.mk.injEq, eq_comm, @eq_comm _ _ t]
    constructor
    · rintro ⟨hk, ht⟩
      exact ⟨hk, hlen, ht⟩
    · rintro ⟨hk, -, ht⟩
      exact ⟨hk, ht⟩
  · simp [hlen]

/-- A write to a name that is listed. -/
theorem writeFileNamed_listed {v : Entry} (hdir : s.getDirEntry s.cwdNode = some dir)
    (hv : lookup dir name = some v) (hlt : v.2 < s.sb.inodesSize) :
    s.writeFileNamed name data = if (s.inodes v.2).type ≠ 1 then some (false, s.report (.notAFile name))
      else (s.writeFile v.2 data).map fun t => (true, t) := by
  rw [writeFileNamed, hdir]
  simp only [Option.bind_eq_bind, Option.bind_some, hv, deref_of_lt hlt]
  split_ifs
  · rfl
  · cases s.writeFile v.2 data <;> rfl

/-- `write_file` after `touch`, for any name: the inode has the data exactly if there is room. -/
theorem Inv.stores_created_iff (h : Inv s) {s' : Instance} (hfind : s.findInode = some (i, s'))
    (hlen : listingBlocks s s.cwdNode dir ≤ 10) :
    (∃ t, (created s i 1 (s.inodes s.cwdNode).self s.cwdNode (encodeDir dir)).writeFile i data =
        some t ∧ Stored t i data) ↔
      blocksNeeded s.sb.blockSize data.length ≤ 10 ∧
        blocksNeeded s.sb.blockSize data.length +
          (if i = s.cwdNode then 0 else listingBlocks s s.cwdNode dir) ≤
            roomOfBoth s s.cwdNode i := by
  have hi : i < s.sb.totalInodes := h.queue.lt i (findInode_eq_some hfind).1
  have hparent := h.table.selfOk h.cwd_lt
  have hclaim := h.claim hi one_ne_zero one_le_two hparent
  have hsame : SameBlocks s (claimed s i 1 (s.inodes s.cwdNode).self) := sameBlocks_claimed
  have hten : (blocksOf (claimed s i 1 (s.inodes s.cwdNode).self) s.cwdNode
      (encodeDir dir)).length ≤ 10 := by
    rw [blocksOf_length, room_claimed, hsame.sb]
    exact hlen
  have howned := hclaim.owned_written h.cwd_lt hten
  have htable : TableOk (written (claimed s i 1 (s.inodes s.cwdNode).self) s.cwdNode
      (encodeDir dir)) := hclaim.table.of_dataBlocks h.cwd_lt rfl rfl
  have hroom := h.room_child hi one_ne_zero one_le_two hparent hten
  rw [stores_iff (s := created s i 1 (s.inodes s.cwdNode).self s.cwdNode (encodeDir dir))
    h.formatted (htable.selfOk hi) (howned.bit_zero htable) (howned.bounded i)]
  have hsb : (created s i 1 (s.inodes s.cwdNode).self s.cwdNode (encodeDir dir)).sb = s.sb := rfl
  rw [hsb]
  refine and_congr_right fun _ => ?_
  omega

theorem Inv.fits_of_allOrNothing (h : Inv s) (hall : AllOrNothing s name data) :
    Fits s name data := by
  obtain ⟨b, t, hwrite, i, htarget, hcase⟩ := hall
  obtain ⟨dir, hdir, hnamed⟩ := writeFileNamed_eq_some hwrite
  rcases hnamed with ⟨v, hv, hlt, hrefused | ⟨htype, rfl, hfile⟩⟩ |
    ⟨hnew, rfl, k, s₁, htouch, hfile⟩
  · exact .refused dir v hdir hv hlt hrefused.1
  · obtain rfl := htarget.unique (.listed dir v hdir hv)
    obtain ⟨-, hstored⟩ := hcase.resolve_right fun e => Bool.noConfusion e.1
    have hvlt := (h.lookup_lt h.cwd_lt hdir hv hlt).2
    obtain ⟨hten, hroom⟩ := (stores_iff h.formatted (h.table.selfOk hvlt)
      (h.owned.bit_zero h.table) (h.owned.bounded v.2)).1 ⟨t, hfile, hstored⟩
    exact .file dir v hdir hv hlt htype hten hroom
  · obtain ⟨s', hfind⟩ : ∃ s', s.findInode = some (k, s') := by
      obtain ⟨s', _, hfind, -⟩ := h.touch_eq h.cwd_lt htouch
      exact ⟨s', hfind⟩
    obtain ⟨-, hlen, rfl⟩ := (h.touch_iff hdir hfind).1 htouch
    obtain rfl := htarget.unique (.new dir k s' hdir hnew hfind)
    obtain ⟨-, hstored⟩ := hcase.resolve_right fun e => Bool.noConfusion e.1
    obtain ⟨hten, hroom⟩ := (h.stores_created_iff hfind hlen).1 ⟨t, hfile, hstored⟩
    exact .new dir i s' hdir hnew hfind hlen hten hroom

theorem Inv.allOrNothing_of_fits (h : Inv s) (hfits : Fits s name data) :
    AllOrNothing s name data := by
  cases hfits with
  | refused dir v hdir hv hlt htype =>
    refine ⟨false, s.report (.notAFile name), ?_, v.2, .listed dir v hdir hv,
      Or.inr ⟨rfl, Or.inr (Or.inr htype), rfl, rfl, rfl, fun _ _ _ _ => rfl⟩⟩
    rw [writeFileNamed_listed hdir hv hlt, if_pos htype]
  | file dir v hdir hv hlt htype hten hroom =>
    have hvlt := (h.lookup_lt h.cwd_lt hdir hv hlt).2
    obtain ⟨t, hfile, hstored⟩ := (stores_iff h.formatted (h.table.selfOk hvlt)
      (h.owned.bit_zero h.table) (h.owned.bounded v.2)).2 ⟨hten, hroom⟩
    refine ⟨true, t, ?_, v.2, .listed dir v hdir hv, Or.inl ⟨rfl, hstored⟩⟩
    rw [writeFileNamed_listed hdir hv hlt, if_neg (not_not.2 htype), hfile, Option.map_some]
  | new dir i s' hdir hnew hfind hlen hten hroom =>
    obtain ⟨t, hfile, hstored⟩ := (h.stores_created_iff hfind hlen).2 ⟨hten, hroom⟩
    have htouch := (h.touch_iff hdir hfind).2 ⟨rfl, hlen, rfl⟩
    refine ⟨true, t, ?_, i, .new dir i s' hdir hnew hfind, Or.inl ⟨rfl, hstored⟩⟩
    rw [writeFileNamed, hdir]
    simp only [Option.bind_eq_bind, Option.bind_some, hnew, htouch, hfile]

end Named

/-- **All or nothing**, in every reachable state, exactly when the write fits. -/
theorem allOrNothing_iff {s : Instance} (hs : Reachable s) (name data : List Byte) :
    AllOrNothing s name data ↔ Fits s name data :=
  ⟨hs.inv.fits_of_allOrNothing, hs.inv.allOrNothing_of_fits⟩

section Small

theorem smallVolume_listingBlocks :
    listingBlocks smallVolume smallVolume.cwdNode ([] ++ [(argA.1, (smallVolume.inodes 9).self)]) =
      1 := by
  rw [smallVolume_self, List.nil_append, listingBlocks, entryA_length, smallVolume_blockSize,
    smallVolume_cwdNode, smallVolume_room]
  decide

theorem allOrNothing_x : AllOrNothing smallVolume argA.1 argX.1 := by
  have hlist := smallVolume_listingBlocks
  have hneed : blocksNeeded smallVolume.sb.blockSize argX.1.length = 1 := by
    rw [smallVolume_blockSize]
    decide
  have hroom : 293 ≤ roomOfBoth smallVolume smallVolume.cwdNode 9 :=
    smallVolume_room.ge.trans (room_le_roomOfBoth smallVolume 0 9)
  refine (allOrNothing_iff smallVolume_session.reachable _ _).2
    (.new [] 9 _ smallVolume_getDirEntry rfl
      (smallVolume_inv.findInode_of_free smallVolume_largestFree) ?_ ?_ ?_)
  · rw [hlist]
    decide
  · rw [hneed]
    decide
  · have h09 : 9 ≠ smallVolume.cwdNode := by decide
    rw [hneed, if_neg h09, hlist]
    omega

/-- Eleven blocks of data. -/
def elevenBlocks : List Byte := List.replicate 2561 120

/-- On a new volume `write a` with eleven blocks of data stores past `data_blocks[9]`. -/
theorem elevenBlocks_not_stored : smallVolume.writeFileNamed argA.1 elevenBlocks = none ∧
    ¬AllOrNothing smallVolume argA.1 elevenBlocks := by
  have hnone : smallVolume.writeFileNamed argA.1 elevenBlocks = none := by
    have hbs : touchedVolume.sb.blockSize = 256 := smallVolume_blockSize
    have hblocks : (blocksOf touchedVolume 9 elevenBlocks).length = 11 := by
      have hroom := touchedVolume_room
      have hfor : blocksFor 256 2561 = 11 := by decide
      rw [blocksOf_length, hbs, elevenBlocks, List.length_replicate, hfor]
      omega
    have hwrite : touchedVolume.writeFile 9 elevenBlocks = none := by
      rw [touchedVolume_inv.writeFile_eq, hblocks]
      rfl
    rw [writeFileNamed, smallVolume_cwdNode, smallVolume_getDirEntry]
    have hnew : lookup [] argA.1 = none := rfl
    simp only [Option.bind_eq_bind, Option.bind_some, hnew, smallVolume_touch, hwrite,
      Option.bind_none]
  refine ⟨hnone, ?_⟩
  rintro ⟨b, t, hwrite, -⟩
  rw [hnone] at hwrite
  exact absurd hwrite (by simp)

end Small

end MufaFs
