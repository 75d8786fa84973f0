import SysProg.MufaFs.Survey

/-!
# Reading back what was written

Readers take a block for a C string, or a sequence of C strings, that ends inside of it.  A block
without a NUL is read past its end.

* `storedDir_listed_iff`: a directory is read back exactly when its encoding is shorter than a
  block;
* `write_read_iff`: so is a file.
-/

namespace MufaFs

open ByteFile FirstFit Instance

/-! ### Directories -/

/-- **Storing a listing and reading it back**: with nonempty names without NUL, and enough free
blocks, the listing is returned if and only if its encoding is shorter than one block. -/
theorem storedDir_listed_iff {s : Instance} {i : ℕ} {dir : List Entry} (hs : Reachable s)
    (hi : i < s.sb.totalInodes) (hdir : ∀ v ∈ dir, v.1 ≠ [] ∧ 0 ∉ v.1 ∧ v.2 < 2 ^ 64)
    (hlen : (encodeDir dir).length ≤ 10 * s.sb.blockSize)
    (hroom : blocksFor s.sb.blockSize (encodeDir dir).length ≤ room s i) :
    (∃ t, s.writeFile i (encodeDir dir) = some t ∧ t.getDirEntry i = some dir) ↔
      (encodeDir dir).length < s.sb.blockSize := by
  have h := hs.inv
  have hbs := h.formatted.blockSize_pos
  have hwrite := h.writeFile_of_length (i := i) hlen
  have hblocks : (blocksOf s i (encodeDir dir)).length =
      blocksFor s.sb.blockSize (encodeDir dir).length := by
    rw [blocksOf_length]
    exact min_eq_left hroom
  have hread := h.getDirEntry_written hi (blocksOf_length_le hbs hlen)
  rw [hblocks] at hread
  constructor
  · rintro ⟨t, ht, hlist⟩
    by_contra hge
    obtain rfl : written s i (encodeDir dir) = t := Option.some.inj (hwrite.symm.trans ht)
    have hnone : parseChunks s.sb.blockSize (blocksFor s.sb.blockSize (encodeDir dir).length)
        (encodeDir dir) = none := parseChunks_encodeDir_full hdir (by omega)
    rw [hread, hnone] at hlist
    exact absurd hlist (by simp)
  · intro hlt
    refine ⟨_, hwrite, ?_⟩
    rw [hread, blocksFor_of_le hbs hlt.le]
    exact parseChunks_encodeDir hdir hlt

/-- The entry of a name of 300 bytes. -/
def longEntry : Entry := (List.replicate 300 110, 9)

theorem encodeDir_longEntry_length : (encodeDir [longEntry]).length = 303 := by
  have h : (CString.decimal 9).length = 1 := by decide
  rw [encodeDir_singleton, encodeEntry, longEntry, List.length_append, List.length_replicate,
    List.length_cons, List.length_append, h]
  rfl

/-- Two entries, in the root of a new volume. -/
theorem storedDir_listed_two : ∃ t,
    smallVolume.writeFile 0 (encodeDir [(argA.1, 9), (argB.1, 8)]) = some t ∧
      t.getDirEntry 0 = some [(argA.1, 9), (argB.1, 8)] := by
  have hbs := smallVolume_blockSize
  have hlen : (encodeDir [(argA.1, 9), (argB.1, 8)]).length = 8 := by decide
  refine (storedDir_listed_iff smallVolume_session.reachable
    (by rw [smallVolume_totalInodes]; decide) ?_ ?_ ?_).2 ?_
  · intro v hv
    rcases List.mem_pair.1 hv with rfl | rfl <;> exact ⟨by decide, by decide, by norm_num⟩
  · rw [hlen, hbs]
    decide
  · rw [hlen, hbs, smallVolume_room]
    decide
  · rw [hlen, hbs]
    decide

/-- One entry with a name of 300 bytes, in the root of a new volume, is not read back. -/
theorem longEntry_not_listed : (∀ v ∈ [longEntry], v.1 ≠ [] ∧ 0 ∉ v.1 ∧ v.2 < 2 ^ 64) ∧
    (encodeDir [longEntry]).length ≤ 10 * smallVolume.sb.blockSize ∧
    blocksFor smallVolume.sb.blockSize (encodeDir [longEntry]).length ≤ room smallVolume 0 ∧
    ∃ t, smallVolume.writeFile 0 (encodeDir [longEntry]) = some t ∧ t.getDirEntry 0 = none := by
  have h := smallVolume_inv
  have hbs := smallVolume_blockSize
  have hentry : ∀ v ∈ [longEntry], v.1 ≠ [] ∧ 0 ∉ v.1 ∧ v.2 < 2 ^ 64 := by
    intro v hv
    rw [List.mem_singleton.1 hv]
    have hindex : longEntry.2 = 9 := rfl
    refine ⟨List.ne_nil_of_length_pos ?_, fun h0 => ?_, by rw [hindex]; norm_num⟩
    · rw [longEntry, List.length_replicate]
      decide
    · exact absurd (List.eq_of_mem_replicate h0) (by decide)
  have hlen : (encodeDir [longEntry]).length ≤ 10 * smallVolume.sb.blockSize := by
    rw [encodeDir_longEntry_length, hbs]
    decide
  have htwo : blocksFor 256 303 = 2 := by decide
  have hroom : blocksFor smallVolume.sb.blockSize (encodeDir [longEntry]).length ≤
      room smallVolume 0 := by
    rw [encodeDir_longEntry_length, hbs, smallVolume_room, htwo]
    decide
  have hblocks : (blocksOf smallVolume 0 (encodeDir [longEntry])).length = 2 := by
    rw [blocksOf_length, min_eq_left hroom, encodeDir_longEntry_length, hbs, htwo]
  refine ⟨hentry, hlen, hroom, _, h.writeFile_of_length hlen, ?_⟩
  rw [h.getDirEntry_written (by rw [smallVolume_totalInodes]; decide) (by omega), hblocks]
  exact parseChunks_encodeDir_full hentry (by rw [encodeDir_longEntry_length, hbs]; decide)

/-! ### Files -/

section ReadFile

variable {s : Instance} {i : ℕ} {data : List Byte}

/-- The C string at the beginning of a block of text. -/
theorem cString_pad {bs : ℕ} (h0 : 0 ∉ data) :
    cString (pad bs (data.take bs)) = if data.length < bs then some data else none := by
  rw [cString]
  split_ifs with hlt
  · obtain ⟨k, hk⟩ : ∃ k, bs - data.length = k + 1 := ⟨bs - data.length - 1, by omega⟩
    rw [List.take_of_length_le hlt.le, pad, hk, List.replicate_succ,
      CString.zstrings_append_nul h0]
    rfl
  · rw [pad_of_le (by simp; omega),
      CString.zstrings_of_not_mem fun h => h0 (List.mem_of_mem_take h)]
    rfl

/-- **`read_file` after `write_file`** returns text shorter than a block; a full first block is read
past its end. -/
theorem Inv.readFile_written (h : Inv s) (hi0 : i ≠ 0) (hi : i < s.sb.totalInodes)
    (h0 : 0 ∉ data) (hroom : blocksFor s.sb.blockSize data.length ≤ room s i) :
    (written s i data).readFile i = if data.length < s.sb.blockSize then some data else none := by
  have hbs := h.formatted.blockSize_pos
  have hlen : (blocksOf s i data).length = blocksFor s.sb.blockSize data.length := by
    rw [blocksOf_length]
    exact min_eq_left hroom
  have hpos : 0 < (blocksOf s i data).length := by
    rw [hlen, blocksFor]
    exact Nat.succ_pos _
  have hget : ∀ j : Fin 10, ((written s i data).inodes i).dataBlocks j =
      (blocksOf s i data).getD j.val 0 := fun j => by rw [written_inodes_self]; rfl
  have hfirst : ((written s i data).inodes i).dataBlocks 0 = (blocksOf s i data)[0] := by
    rw [hget]
    exact List.getD_eq_getElem _ _ hpos
  have hne : ((written s i data).inodes i).dataBlocks 0 ≠ 0 := by
    rw [hfirst]
    exact fun e => zero_not_mem_blocksOf data (h.table.self_ne_rootSelf h.formatted hi0)
      (h.owned.bit_zero h.table) (e ▸ List.getElem_mem hpos)
  have hbuffer : ((written s i data).drive.fseek (s.sb.blockAddr (blocksOf s i data)[0])).fread
      s.sb.blockSize = pad s.sb.blockSize (data.take s.sb.blockSize) := by
    have hcover := written_covers hbs (List.getElem_mem hpos)
    have hblock := written_block h.formatted (h.table.selfOk hi) hpos
    rw [Nat.zero_mul, List.drop_zero] at hblock
    rw [File.fread_of_le _ _ _ hcover, hblock]
  rw [readFile, if_neg hne]
  dsimp only
  rw [hfirst, written_sb, hbuffer, cString_pad h0]
  -- a buffer that is full of data holds no NUL and is no C string
  split_ifs with hlt
  · have hone : ((written s i data).inodes i).dataBlocks ⟨1, by norm_num⟩ = 0 := by
      rw [hget]
      refine List.getD_eq_default _ _ ?_
      rw [hlen, blocksFor_of_le hbs hlt.le]
    simp only [Option.bind_eq_bind, Option.bind_some]
    rw [readLoop, dif_pos (by norm_num), if_pos hone]
  · rfl

end ReadFile

/-- The name leads `write` to a file other than the current directory, and there are enough blocks:
it is listed as a file, or it is new and the directory with it stays shorter than a block. -/
inductive Writable (s : Instance) (name data : List Byte) : Prop
  | file (dir : List Entry) (v : Entry) : s.getDirEntry s.cwdNode = some dir →
      lookup dir name = some v → (s.inodes v.2).type = 1 → v.2 < s.sb.inodesSize →
      v.2 ≠ s.cwdNode → blocksFor s.sb.blockSize data.length ≤ room s v.2 → Writable s name data
  | new (dir : List Entry) (i : ℕ) : s.getDirEntry s.cwdNode = some dir →
      lookup dir name = none → name ≠ [] → 0 ∉ name → LargestFree s i → i ≠ s.cwdNode →
      (encodeDir (dir ++ [(name, i)])).length < s.sb.blockSize →
      blocksFor s.sb.blockSize data.length + 1 ≤ room s s.cwdNode → Writable s name data

section Named

variable {s t : Instance} {i : ℕ} {name data : List Byte} {dir : List Entry} {v : Entry}

theorem lookup_append_self (h : lookup dir name = none) :
    lookup (dir ++ [(name, i)]) name = some (name, i) := by
  rw [lookup, List.find?_append]
  rw [lookup] at h
  simp [h]

/-- `read_file` of a name that is listed as a file. -/
theorem readFileNamed_of_listed (hdir : t.getDirEntry t.cwdNode = some dir)
    (hv : lookup dir name = some v) (hlt : v.2 < t.sb.inodesSize) (htype : (t.inodes v.2).type = 1) :
    t.readFileNamed name = (t.readFile v.2).map fun text => (text, t) := by
  rw [readFileNamed, hdir]
  simp only [Option.bind_eq_bind, Option.bind_some, hv, deref_of_lt hlt, htype, ne_eq,
    not_true_eq_false, if_false]
  cases t.readFile v.2 <;> rfl

theorem reads_iff {bs : ℕ} (hread : t.readFile v.2 = if data.length < bs then some data else none)
    (hnamed : t.readFileNamed name = (t.readFile v.2).map fun text => (text, t)) :
    (∃ t', t.readFileNamed name = some (data, t')) ↔ data.length < bs := by
  rw [hnamed, hread]
  split_ifs with hlt
  · exact ⟨fun _ => hlt, fun _ => ⟨t, rfl⟩⟩
  · simpa using hlt

end Named

/-- `write` and then `read` of a name that leads to a file. -/
theorem Inv.write_read {s : Instance} {name data : List Byte} (h : Inv s) (h0 : 0 ∉ data)
    (hlen : data.length ≤ 10 * s.sb.blockSize) (hw : Writable s name data) :
    ∃ t, s.writeFileNamed name data = some (true, t) ∧
      ((∃ t', t.readFileNamed name = some (data, t')) ↔ data.length < s.sb.blockSize) := by
  have hf := h.formatted
  cases hw with
  | file dir v hdir hv htype hlt hcwd hroom =>
    obtain ⟨hv0, hvlt⟩ := h.lookup_lt h.cwd_lt hdir hv hlt
    refine ⟨written s v.2 data, ?_, reads_iff (v := v) (h.readFile_written hv0 hvlt h0 hroom) ?_⟩
    · rw [writeFileNamed, hdir]
      simp only [Option.bind_eq_bind, Option.bind_some, hv, deref_of_lt hlt, htype, ne_eq,
        not_true_eq_false, if_false, h.writeFile_of_length hlen]
    · exact readFileNamed_of_listed
        ((h.getDirEntry_written_of_ne hvlt (Ne.symm hcwd)).trans hdir) hv hlt
        ((written_type _).trans htype)
  | new dir i hdir hnew hne hname hfree hcwd hshort hroom =>
    have hi0 : i ≠ 0 := fun e => h.table.root_occupied (e ▸ hfree.free)
    have hself := h.table.self_eq i hi0 hfree.lt
    have harg : IsArg name := isArg_iff.2 (Or.inl hname)
    rw [← hself] at hshort
    have hten : (encodeDir (dir ++ [(name, (s.inodes i).self)])).length ≤ 10 * s.sb.blockSize := by
      omega
    have hwrite := h.writeFileNamed_of_free _ _ hfree harg hdir hnew hten hlen
    have hcreated : Inv (created s i 1 (s.inodes s.cwdNode).self s.cwdNode
        (encodeDir (dir ++ [(name, (s.inodes i).self)]))) :=
      h.star (h.touch_star h.cwd_lt harg (h.touch_of_free _ _ h.cwd_lt hfree hdir hten)).1
    have hlist := h.getDirEntry_created_of_short 1 _ _ _ hfree.lt (by norm_num) (by norm_num)
      (h.table.selfOk h.cwd_lt) h.cwd_lt hdir ⟨hne, hname⟩ (by omega) hshort
    have htype : ((created s i 1 (s.inodes s.cwdNode).self s.cwdNode
        (encodeDir (dir ++ [(name, (s.inodes i).self)]))).inodes i).type = 1 := created_type
    -- the listing takes one block, the data gets the ones left
    have hleft : blocksFor s.sb.blockSize data.length ≤
        room (created s i 1 (s.inodes s.cwdNode).self s.cwdNode
          (encodeDir (dir ++ [(name, (s.inodes i).self)]))) i := by
      have hrest := room_written (claimed s i 1 (s.inodes s.cwdNode).self) s.cwdNode
        (encodeDir (dir ++ [(name, (s.inodes i).self)])) i
      have hone : (blocksOf (claimed s i 1 (s.inodes s.cwdNode).self) s.cwdNode
          (encodeDir (dir ++ [(name, (s.inodes i).self)]))).length = 1 :=
        blocksOf_length_one hf.blockSize_pos hshort.le (by rw [room_claimed]; omega)
      rw [room_claimed, hone] at hrest
      exact Nat.le_of_succ_le_succ (hroom.trans hrest)
    refine ⟨_, hwrite, reads_iff (v := (name, i)) (hcreated.readFile_written hi0 hfree.lt h0 hleft) ?_⟩
    have hsize : i < s.sb.inodesSize := by
      have hlt := hfree.lt
      rw [hf.inodesSize]
      omega
    have hlookup := lookup_append_self (i := i) hnew
    rw [← hself] at hlookup
    exact readFileNamed_of_listed
      ((hcreated.getDirEntry_written_of_ne hfree.lt (Ne.symm hcwd)).trans hlist)
      (hlookup.trans (by rw [hself])) hsize ((written_type _).trans htype)

/-- **Writing a file and reading it back.** Where the name leads to a file, `write` returns true, and
`read` then returns the content if and only if it is shorter than one block. -/
theorem write_read_iff {s : Instance} {name data : List Byte} (hs : Reachable s)
    (h0 : 0 ∉ data) (hlen : data.length ≤ 10 * s.sb.blockSize) (hw : Writable s name data) :
    ∃ t, s.writeFileNamed name data = some (true, t) ∧
      ((∃ t', t.readFileNamed name = some (data, t')) ↔ data.length < s.sb.blockSize) :=
  hs.inv.write_read h0 hlen hw

section Small

variable {data : List Byte}

theorem writable_smallVolume (h : blocksFor 256 data.length + 1 ≤ 293) :
    Writable smallVolume argA.1 data := by
  have hbs := smallVolume_blockSize
  refine .new [] 9 smallVolume_getDirEntry rfl (by decide) (by decide) smallVolume_largestFree
    (by rw [smallVolume_cwdNode]; decide) ?_ ?_
  · rw [List.nil_append, entryA_length, hbs]
    decide
  · rw [smallVolume_cwdNode, smallVolume_room, hbs]
    exact h

theorem write_read_x : ∃ t, smallVolume.writeFileNamed argA.1 argX.1 = some (true, t) ∧
    ((∃ t', t.readFileNamed argA.1 = some (argX.1, t')) ↔
      argX.1.length < smallVolume.sb.blockSize) :=
  write_read_iff smallVolume_session.reachable (by decide)
    (by rw [smallVolume_blockSize]; decide) (writable_smallVolume (by decide))

/-- A content that fills a block. -/
def fullBlock : List Byte := List.replicate 256 120

theorem fullBlock_length : fullBlock.length = 256 := List.length_replicate

/-- On a new volume, a file of 256 bytes is written and not read back, though its content has no NUL
and there are blocks enough. -/
theorem fullBlock_not_read_back : 0 ∉ fullBlock ∧
    fullBlock.length ≤ 10 * smallVolume.sb.blockSize ∧
    blocksFor smallVolume.sb.blockSize fullBlock.length + 1 ≤ room smallVolume 0 ∧
    ∃ t, smallVolume.writeFileNamed argA.1 fullBlock = some (true, t) ∧
      ¬∃ t', t.readFileNamed argA.1 = some (fullBlock, t') := by
  have hbs := smallVolume_blockSize
  have h0 : 0 ∉ fullBlock := fun h => absurd (List.eq_of_mem_replicate h) (by decide)
  have hlen : fullBlock.length ≤ 10 * smallVolume.sb.blockSize := by
    rw [fullBlock_length, hbs]
    decide
  have hblocks : blocksFor 256 fullBlock.length + 1 ≤ 293 := by
    rw [fullBlock_length]
    decide
  obtain ⟨t, ht, hread⟩ := smallVolume_inv.write_read h0 hlen (writable_smallVolume hblocks)
  refine ⟨h0, hlen, by rwa [hbs, smallVolume_room], t, ht, fun h => ?_⟩
  have hlt := hread.1 h
  rw [fullBlock_length, hbs] at hlt
  exact absurd hlt (by decide)

end Small

end MufaFs
