import SysProg.MufaFs.Reachable

/-!
# Making files and directories

`touch` and `mkdir` take an inode from the queue, enter its name into the directory and commit it.

* `Inv.findInode_of_free`: as long as an inode is unoccupied, `find_inode` takes the largest such;
* `created`: the state after an inode was claimed, listed and committed;
* `Inv.touch_eq`, `Inv.mkdir_eq`: the two operations end in such a state;
* `Inv.getDirEntry_created`, `Inv.listing_created`: the directories afterwards.
-/

namespace MufaFs

open ByteFile FirstFit Instance

/-! ### `find_inode` -/

/-- An inode is unoccupied. -/
def HasFree (s : Instance) : Prop := ∃ i < s.sb.totalInodes, (s.inodes i).type = 0

/-- `i` is the unoccupied inode with the largest index. -/
structure LargestFree (s : Instance) (i : ℕ) : Prop where
  lt : i < s.sb.totalInodes
  free : (s.inodes i).type = 0
  le : ∀ k < s.sb.totalInodes, (s.inodes k).type = 0 → k ≤ i

section FindInode

variable {s s' : Instance} {i : ℕ}

theorem LargestFree.hasFree (h : LargestFree s i) : HasFree s := ⟨i, h.lt, h.free⟩

theorem LargestFree.unique {k : ℕ} (h : LargestFree s i) (h' : LargestFree s k) : i = k :=
  le_antisymm (h'.le i h.lt h.free) (h.le k h'.lt h'.free)

/-- The comparison of the queue is a strict weak order. -/
theorem comp_weakOrder (inodes : ℕ → Inode) (q : List ℕ) :
    PriorityQueue.WeakOrderOn (fun l r => comp (inodes l) (inodes r)) q where
  irrefl a _ := by
    simp only [comp]
    split_ifs <;> simp
  negTrans a _ b _ c _ := by
    simp only [comp]
    split_ifs <;> simp <;> omega
  asymm a _ b _ := by
    simp only [comp]
    split_ifs <;> simp <;> omega

theorem findInode_isSome (h : s.inodesSorted ≠ []) : ∃ i s', s.findInode = some (i, s') := by
  obtain ⟨i, hi⟩ : ∃ i, PriorityQueue.top (fun l r => comp (s.inodes l) (s.inodes r))
      s.inodesSorted = some i := PriorityQueue.top_isSome h
  exact ⟨i, _, by rw [findInode, hi]; rfl⟩

/-- **As long as an inode is unoccupied**, `find_inode` takes the largest such. -/
theorem Inv.largestFree_of_findInode (h : Inv s) (hfree : HasFree s)
    (hfind : s.findInode = some (i, s')) : LargestFree s i ∧ i ≠ 0 := by
  obtain ⟨j, htop, heq⟩ := Option.bind_eq_some_iff.1 hfind
  obtain rfl : j = i := congrArg Prod.fst (Option.some.inj heq)
  have hbest := PriorityQueue.not_lt_top (comp_weakOrder s.inodes s.inodesSorted) htop
  have hj := h.queue.lt j (PriorityQueue.top_mem htop)
  have hroot := h.table.root_occupied
  have hle : ∀ k < s.sb.totalInodes, (s.inodes k).type = 0 →
      (s.inodes j).type = 0 ∧ (s.inodes k).self ≤ (s.inodes j).self := by
    intro k hk hk0
    have := hbest k (h.queue.free_mem k hk hk0)
    simp only [comp] at this
    split_ifs at this with hj0
    · exact ⟨hj0, by simpa using this⟩
  obtain ⟨k, hk, hk0⟩ := hfree
  have hj0 := (hle k hk hk0).1
  have hne : j ≠ 0 := fun e => hroot (e ▸ hj0)
  refine ⟨⟨hj, hj0, fun m hm hm0 => ?_⟩, hne⟩
  have hmj := (hle m hm hm0).2
  rwa [h.table.self_eq j hne hj, h.table.self_eq m (fun e => hroot (e ▸ hm0)) hm] at hmj

theorem Inv.findInode_of_free (h : Inv s) (hfree : LargestFree s i) :
    s.findInode = some (i, { s with inodesSorted := s.inodesSorted.erase i }) := by
  obtain ⟨k, s', hfind⟩ := findInode_isSome
    (List.ne_nil_of_mem (h.queue.free_mem i hfree.lt hfree.free))
  have hk := (h.largestFree_of_findInode hfree.hasFree hfind).1.unique hfree
  rw [hfind, (findInode_eq_some hfind).2, hk]

theorem HasFree.exists_largest (h : HasFree s) : ∃ i, LargestFree s i := by
  have hbound : ∃ n, ∀ k < s.sb.totalInodes, (s.inodes k).type = 0 → k ≤ n :=
    ⟨s.sb.totalInodes, fun k hk _ => hk.le⟩
  obtain ⟨i, hi, hi0⟩ := h
  classical
  let P : ℕ → Prop := fun k => k < s.sb.totalInodes ∧ (s.inodes k).type = 0
  have hP : P (Nat.findGreatest P s.sb.totalInodes) :=
    Nat.findGreatest_spec (m := i) hi.le ⟨hi, hi0⟩
  exact ⟨_, hP.1, hP.2, fun k hk hk0 => Nat.le_findGreatest hk.le ⟨hk, hk0⟩⟩

end FindInode

/-- The name that a command is given. -/
def Cmd.name : Cmd → List Byte
  | .mkdir name => name.1
  | .touch name => name.1
  | .write name _ => name.1
  | .rm name => name.1
  | .cd name => name.1

/-- The command makes a new inode: `mkdir`, `touch`, and `write` of a name that is not listed. -/
def Creates (s : Instance) : Cmd → Prop
  | .mkdir _ => True
  | .touch _ => True
  | .write name _ => ∃ dir, s.getDirEntry s.cwdNode = some dir ∧ lookup dir name.1 = none
  | .rm _ => False
  | .cd _ => False

/-- A name that is listed already is written without a new inode. -/
theorem not_creates_of_listed {s : Instance} {name data : Arg} {dir : List Entry} {v : Entry}
    (hdir : s.getDirEntry s.cwdNode = some dir) (hv : lookup dir name.1 = some v) :
    ¬Creates s (.write name data) := by
  rintro ⟨dir', hdir', hnew⟩
  cases hdir.symm.trans hdir'
  exact Option.some_ne_none v (hv.symm.trans hnew)

/-! ### The state after a creation -/

/-- The state after inode `i` was claimed, `data` was written to its parent, and it was
committed. -/
def created (s : Instance) (i type parent p : ℕ) (data : List Byte) : Instance :=
  (written (claimed s i type parent) p data).writeInode i

section Created

variable {s t : Instance} {i type parent p : ℕ} {name data : List Byte}

theorem created_type : ((created s i type parent p data).inodes i).type = type := by
  show ((written (claimed s i type parent) p data).inodes i).type = type
  rw [written_type, claimed_inodes_self]

theorem created_type_of_ne {k : ℕ} (hk : k ≠ i) :
    ((created s i type parent p data).inodes k).type = (s.inodes k).type := by
  show ((written (claimed s i type parent) p data).inodes k).type = (s.inodes k).type
  rw [written_type, claimed_inodes_of_ne hk]

theorem created_parent : ((created s i type parent p data).inodes i).parent = parent := by
  show ((written (claimed s i type parent) p data).inodes i).parent = parent
  rw [written_parent, claimed_inodes_self]

theorem created_parent_of_ne {k : ℕ} (hk : k ≠ i) :
    ((created s i type parent p data).inodes k).parent = (s.inodes k).parent := by
  show ((written (claimed s i type parent) p data).inodes k).parent = (s.inodes k).parent
  rw [written_parent, claimed_inodes_of_ne hk]

theorem created_dataBlocks_of_ne {k : ℕ} (hk : k ≠ p) :
    ((created s i type parent p data).inodes k).dataBlocks = (s.inodes k).dataBlocks := by
  show ((written (claimed s i type parent) p data).inodes k).dataBlocks = (s.inodes k).dataBlocks
  rw [written_inodes_of_ne hk, sameBlocks_claimed.dataBlocks]

/-- `touch` that completes. -/
theorem Inv.touch_eq (h : Inv s) (hp : p < s.sb.totalInodes) (ht : s.touch p name = some (i, t)) :
    ∃ s' dir, s.findInode = some (i, s') ∧ s.getDirEntry p = some dir ∧
      (blocksOf (claimed s i 1 (s.inodes p).self) p
        (encodeDir (dir ++ [(name, (s.inodes i).self)]))).length ≤ 10 ∧
      t = created s i 1 (s.inodes p).self p (encodeDir (dir ++ [(name, (s.inodes i).self)])) := by
  obtain ⟨s₁, s₂, hfind, hins, rfl⟩ := touch_eq_some ht
  have hinv := h.micro (.claimFile hfind hp)
  rw [claimFile_eq hfind] at hins hinv
  obtain ⟨dir, hdir, hwrite⟩ := insertDirEntry_eq_some hins
  obtain ⟨hlen, rfl⟩ := hinv.writeFile_eq_some hwrite
  rw [sameBlocks_claimed.getDirEntry] at hdir
  rw [sameBlocks_claimed.self] at hlen ⊢
  exact ⟨s₁, dir, hfind, hdir, hlen, rfl⟩

theorem Inv.claimDir_eq {s' : Instance} (h : Inv s) (hp : p < s.sb.totalInodes)
    (hfind : s.findInode = some (i, s')) : s'.claimDir p i = claimed s i 2 p := by
  rw [MufaFs.claimDir_eq hfind]
  -- the index of the parent, with the root translated
  by_cases h0 : p = 0
  · rw [if_pos ((h.table.self_eq_rootSelf_iff h.formatted).2 h0), h0]
  · rw [if_neg (h.table.self_ne_rootSelf h.formatted h0), h.table.self_eq p h0 hp]

/-- `mkdir` that completes. -/
theorem Inv.mkdir_eq (h : Inv s) (hp : p < s.sb.totalInodes) (ht : s.mkdir p name = some t) :
    ∃ i s' dir, s.findInode = some (i, s') ∧ s.getDirEntry p = some dir ∧
      (blocksOf (claimed s i 2 p) p
        (encodeDir (dir ++ [(name, (s.inodes i).self)]))).length ≤ 10 ∧
      t = (created s i 2 p p
        (encodeDir (dir ++ [(name, (s.inodes i).self)]))).pushSorted i := by
  obtain ⟨i, s₁, s₂, hfind, hins, rfl⟩ := mkdir_eq_some ht
  have hinv := h.micro (.claimDir hfind hp)
  rw [h.claimDir_eq hp hfind] at hins hinv
  obtain ⟨dir, hdir, hwrite⟩ := insertDirEntry_eq_some hins
  obtain ⟨hlen, rfl⟩ := hinv.writeFile_eq_some hwrite
  rw [sameBlocks_claimed.getDirEntry] at hdir
  rw [sameBlocks_claimed.self] at hlen ⊢
  exact ⟨i, s₁, dir, hfind, hdir, hlen, rfl⟩

variable (p name) in
/-- `touch` completes when an inode is unoccupied and the directory, with the new name in it, has
at most ten blocks. -/
theorem Inv.touch_of_free (h : Inv s) (hp : p < s.sb.totalInodes) (hfree : LargestFree s i)
    {dir : List Entry} (hdir : s.getDirEntry p = some dir)
    (hlen : (encodeDir (dir ++ [(name, (s.inodes i).self)])).length ≤ 10 * s.sb.blockSize) :
    s.touch p name = some (i, created s i 1 (s.inodes p).self p
      (encodeDir (dir ++ [(name, (s.inodes i).self)]))) := by
  have hfind := h.findInode_of_free hfree
  have hinv := h.micro (.claimFile hfind hp)
  rw [claimFile_eq hfind] at hinv
  rw [touch, hfind]
  simp only [Option.bind_eq_bind, Option.bind_some]
  rw [claimFile_eq hfind, insertDirEntry, sameBlocks_claimed.getDirEntry, hdir,
    sameBlocks_claimed.self]
  simp only [Option.bind_eq_bind, Option.bind_some]
  rw [hinv.writeFile_of_length hlen]
  rfl

variable (p name) in
/-- So does `mkdir`. -/
theorem Inv.mkdir_of_free (h : Inv s) (hp : p < s.sb.totalInodes) (hfree : LargestFree s i)
    {dir : List Entry} (hdir : s.getDirEntry p = some dir)
    (hlen : (encodeDir (dir ++ [(name, (s.inodes i).self)])).length ≤ 10 * s.sb.blockSize) :
    s.mkdir p name = some ((created s i 2 p p
      (encodeDir (dir ++ [(name, (s.inodes i).self)]))).pushSorted i) := by
  have hfind := h.findInode_of_free hfree
  have hinv := h.micro (.claimDir hfind hp)
  rw [h.claimDir_eq hp hfind] at hinv
  rw [mkdir, hfind]
  simp only [Option.bind_eq_bind, Option.bind_some]
  rw [h.claimDir_eq hp hfind, insertDirEntry, sameBlocks_claimed.getDirEntry, hdir,
    sameBlocks_claimed.self]
  simp only [Option.bind_eq_bind, Option.bind_some]
  rw [hinv.writeFile_of_length hlen]
  rfl

theorem Inv.create (h : Inv s) (hi : i < s.sb.totalInodes) (h0 : type ≠ 0) (h2 : type ≤ 2)
    (hparent : SelfOk s.sb parent) (hp : p < s.sb.totalInodes)
    (hlen : (blocksOf (claimed s i type parent) p data).length ≤ 10)
    (hdata : Content s.sb data) : Inv (created s i type parent p data) :=
  ((h.claim hi h0 h2 hparent).write hp hlen hdata).commit hi

theorem Inv.getDirEntry_created (h : Inv s) (hi : i < s.sb.totalInodes) (h0 : type ≠ 0)
    (h2 : type ≤ 2) (hparent : SelfOk s.sb parent) (hp : p < s.sb.totalInodes)
    (hlen : (blocksOf (claimed s i type parent) p data).length ≤ 10)
    (hdata : Content s.sb data) : (created s i type parent p data).getDirEntry p =
      parseChunks s.sb.blockSize (blocksOf (claimed s i type parent) p data).length data := by
  have hclaim := h.claim hi h0 h2 hparent
  rw [created, (hclaim.write hp hlen hdata).getDirEntry_writeInode hi,
    hclaim.getDirEntry_written hp hlen]
  rfl

/-- The other listings are as they were. -/
theorem Inv.getDirEntry_created_of_ne (h : Inv s) (hi : i < s.sb.totalInodes) (h0 : type ≠ 0)
    (h2 : type ≤ 2) (hparent : SelfOk s.sb parent) (hp : p < s.sb.totalInodes)
    (hlen : (blocksOf (claimed s i type parent) p data).length ≤ 10) (hdata : Content s.sb data)
    {q : ℕ} (hq : q ≠ p) : (created s i type parent p data).getDirEntry q = s.getDirEntry q := by
  have hclaim := h.claim hi h0 h2 hparent
  rw [created, (hclaim.write hp hlen hdata).getDirEntry_writeInode hi,
    hclaim.getDirEntry_written_of_ne hp hq, sameBlocks_claimed.getDirEntry]

/-- What can be read after a creation: the directory with the new name behind the others, at most,
and the other listings as they were. -/
theorem Inv.listing_created (h : Inv s) (hi : i < s.sb.totalInodes) (h0 : type ≠ 0) (h2 : type ≤ 2)
    (hparent : SelfOk s.sb parent) (hp : p < s.sb.totalInodes) (hname : IsArg name)
    {dir : List Entry} (hdir : s.getDirEntry p = some dir)
    (hlen : (blocksOf (claimed s i type parent) p
      (encodeDir (dir ++ [(name, (s.inodes i).self)]))).length ≤ 10) {q : ℕ} {dir' : List Entry}
    (hdir' : (created s i type parent p
      (encodeDir (dir ++ [(name, (s.inodes i).self)]))).getDirEntry q = some dir') :
    q = p ∧ dir' <+: dir ++ [(name, (s.inodes i).self)] ∨ q ≠ p ∧ s.getDirEntry q = some dir' := by
  have hgood := h.listings p hp dir hdir
  have hindex := h.table.indexOk hi
  have hcontent : Content s.sb (encodeDir (dir ++ [(name, (s.inodes i).self)])) :=
    .insert hgood hname hindex
  by_cases hq : q = p
  · subst hq
    rw [h.getDirEntry_created hi h0 h2 hparent hp hlen hcontent] at hdir'
    exact Or.inl ⟨rfl,
      (parseChunks_insert hgood.entryOk hgood.short hname (hindex.lt h.formatted) hdir').1⟩
  · rw [h.getDirEntry_created_of_ne hi h0 h2 hparent hp hlen hcontent hq] at hdir'
    exact Or.inr ⟨hq, hdir'⟩

theorem room_claimed (s : Instance) (i type parent p : ℕ) :
    room (claimed s i type parent) p = room s p := by
  have hsame : SameBlocks s (claimed s i type parent) := sameBlocks_claimed
  rw [room, room, hsame.dataBitmap, hsame.sb]
  congr 2
  funext b
  rw [release, release, hsame.self, hsame.dataBlocks]

theorem room_created (k : ℕ) : room (created s i type parent p data) k =
    room (written (claimed s i type parent) p data) k := by
  rw [created]
  rfl

variable (type parent p name) in
/-- After a creation the directory lists the new name, if the listing takes less than a block. -/
theorem Inv.getDirEntry_created_of_short (h : Inv s) (hi : i < s.sb.totalInodes) (h0 : type ≠ 0)
    (h2 : type ≤ 2) (hparent : SelfOk s.sb parent) (hp : p < s.sb.totalInodes)
    {dir : List Entry} (hdir : s.getDirEntry p = some dir) (hname : name ≠ [] ∧ 0 ∉ name)
    (hroom : 0 < room s p)
    (hshort : (encodeDir (dir ++ [(name, (s.inodes i).self)])).length < s.sb.blockSize) :
    (created s i type parent p (encodeDir (dir ++ [(name, (s.inodes i).self)]))).getDirEntry p =
      some (dir ++ [(name, (s.inodes i).self)]) := by
  have hgood := h.listings p hp dir hdir
  have hone : (blocksOf (claimed s i type parent) p
      (encodeDir (dir ++ [(name, (s.inodes i).self)]))).length = 1 :=
    blocksOf_length_one h.formatted.blockSize_pos hshort.le (by rwa [room_claimed])
  have hindex := h.table.indexOk hi
  rw [h.getDirEntry_created hi h0 h2 hparent hp (by omega)
    (.insert hgood (isArg_iff.2 (Or.inl hname.2)) hindex), hone]
  refine parseChunks_encodeDir (fun v hv => ?_) hshort
  rcases List.mem_append.1 hv with hv | hv
  · exact hgood.entryOk v hv
  · rw [List.mem_singleton.1 hv]
    exact ⟨hname.1, hname.2, hindex.lt h.formatted⟩

variable (name data) in
/-- `write` of a new name completes when an inode is unoccupied, and directory and data have at most
ten blocks each. -/
theorem Inv.writeFileNamed_of_free (h : Inv s) (hfree : LargestFree s i) (hname : IsArg name)
    {dir : List Entry} (hdir : s.getDirEntry s.cwdNode = some dir) (hnew : lookup dir name = none)
    (hlen : (encodeDir (dir ++ [(name, (s.inodes i).self)])).length ≤ 10 * s.sb.blockSize)
    (hdata : data.length ≤ 10 * s.sb.blockSize) :
    s.writeFileNamed name data = some (true,
      written (created s i 1 (s.inodes s.cwdNode).self s.cwdNode
        (encodeDir (dir ++ [(name, (s.inodes i).self)]))) i data) := by
  have htouch := h.touch_of_free _ _ h.cwd_lt hfree hdir hlen
  have hinv := h.star (h.touch_star h.cwd_lt hname htouch).1
  rw [writeFileNamed, hdir]
  simp only [Option.bind_eq_bind, Option.bind_some, hnew, htouch]
  rw [hinv.writeFile_of_length hdata]
  rfl

end Created

/-! ### A new volume, and a volume with a file in it -/

/-- The name `a`. -/
def argA : Arg := ⟨ascii "a", by decide⟩

/-- The content `x`. -/
def argX : Arg := ⟨ascii "x", by decide⟩

/-- The smallest volume after `touch a`. -/
def touchedVolume : Instance := created smallVolume 9 1 rootSelf 0 (encodeDir [(argA.1, 9)])

section Small

theorem smallVolume_inv : Inv smallVolume := smallVolume_session.inv

theorem smallVolume_totalInodes : smallVolume.sb.totalInodes = 10 := smallSuperBlock_totalInodes

theorem smallVolume_blockSize : smallVolume.sb.blockSize = 256 :=
  smallVolume_inv.formatted.blockSize

theorem smallVolume_cwdNode : smallVolume.cwdNode = 0 := rfl

theorem smallVolume_getDirEntry : smallVolume.getDirEntry 0 = some [] :=
  getDirEntry_root_new smallVolume_inv.formatted (newSuperBlock_reservedBlocks _ _ _)
    (encode_newSuperBlock_length _ _ _) ((createDriveImage_covers smallVolume_created).2 (by decide))

theorem smallVolume_inodes {i : ℕ} (h0 : i ≠ 0) (hi : i < 10) :
    smallVolume.inodes i = { Inode.zero with self := i } :=
  newInstance_inodes h0 (hi.trans_eq smallSuperBlock_totalInodes.symm)

theorem smallVolume_largestFree : LargestFree smallVolume 9 where
  lt := by rw [smallVolume_totalInodes]; decide
  free := by rw [smallVolume_inodes (by decide) (by decide)]; rfl
  le k hk _ := by
    rw [smallVolume_totalInodes] at hk
    omega

/-- All 293 blocks of the smallest volume are free for the root. -/
theorem smallVolume_room : room smallVolume 0 = 293 := by
  have hfree : ∀ b, release (smallVolume.inodes 0) smallVolume.dataBitmap b = false := by
    intro b
    have hroot := smallVolume_inv.table.root_self
    show (emptyBitmap b && _) = false
    by_cases hb : b = 0
    · simp [hb, hroot]
    · have : emptyBitmap b = false := by simp [emptyBitmap, hb]
      rw [this, Bool.false_and]
  have hall : free (release (smallVolume.inodes 0) smallVolume.dataBitmap) 0 293 =
      List.range' 0 293 := List.filter_eq_self.2 fun b _ => by rw [hfree b]; rfl
  have htotal : smallVolume.sb.totalDataBlocks = 293 := smallSuperBlock_totalDataBlocks
  rw [room, htotal, hall, List.length_range']

theorem smallVolume_self : (smallVolume.inodes 9).self = 9 :=
  smallVolume_inv.table.self_eq 9 (by decide) smallVolume_largestFree.lt

theorem entryA_length : (encodeDir [(argA.1, 9)]).length = 4 := by decide

theorem smallVolume_touch : smallVolume.touch 0 argA.1 = some (9, touchedVolume) := by
  have hself := smallVolume_self
  have h := smallVolume_inv.touch_of_free 0 argA.1
    (by rw [smallVolume_totalInodes]; decide) smallVolume_largestFree smallVolume_getDirEntry
    (by rw [hself, smallVolume_blockSize, List.nil_append, entryA_length]; decide)
  rw [hself, smallVolume_inv.table.root_self, List.nil_append] at h
  exact h

theorem touchedVolume_exec : Exec smallVolume (.touch argA) touchedVolume :=
  ⟨0, by rw [builtInFunc, smallVolume_cwdNode, smallVolume_touch, Option.map_some]⟩

theorem touchedVolume_session : Session touchedVolume :=
  ⟨_, _, _, _, _, [.touch argA], smallVolume_created, smallVolume_mounted,
    .cons touchedVolume_exec (.nil _)⟩

theorem touchedVolume_inv : Inv touchedVolume := touchedVolume_session.inv

theorem touchedVolume_getDirEntry : touchedVolume.getDirEntry 0 = some [(argA.1, 9)] := by
  have hself := smallVolume_self
  have h := smallVolume_inv.getDirEntry_created_of_short 1 rootSelf 0 argA.1
    smallVolume_largestFree.lt (by decide) (by decide) (Or.inr rfl)
    (by rw [smallVolume_totalInodes]; decide) smallVolume_getDirEntry (by decide)
    (by rw [smallVolume_room]; decide)
    (by rw [hself, smallVolume_blockSize, List.nil_append, entryA_length]; decide)
  rw [hself, List.nil_append] at h
  exact h

theorem touchedVolume_inodes : touchedVolume.inodes 9 =
    { Inode.zero with type := 1, parent := rootSelf, self := 9 } := by
  show (written (claimed smallVolume 9 1 rootSelf) 0 (encodeDir [(argA.1, 9)])).inodes 9 = _
  rw [written_inodes_of_ne (by decide), claimed_inodes_self,
    smallVolume_inodes (by decide) (by decide)]

/-- The volume after `write a x`. -/
def wroteVolume : Instance := written touchedVolume 9 argX.1

theorem wroteVolume_writeFileNamed :
    smallVolume.writeFileNamed argA.1 argX.1 = some (true, wroteVolume) := by
  have hself := smallVolume_self
  have h := smallVolume_inv.writeFileNamed_of_free argA.1 argX.1
    smallVolume_largestFree argA.2 smallVolume_getDirEntry rfl
    (by rw [hself, smallVolume_blockSize, List.nil_append, entryA_length]; decide)
    (by rw [smallVolume_blockSize]; decide)
  rw [hself, smallVolume_cwdNode, smallVolume_inv.table.root_self, List.nil_append] at h
  exact h

theorem wroteVolume_exec : Exec smallVolume (.write argA argX) wroteVolume :=
  ⟨0, by rw [builtInFunc, wroteVolume_writeFileNamed, Option.map_some]⟩

theorem wroteVolume_session : Session wroteVolume :=
  ⟨_, _, _, _, _, [.write argA argX], smallVolume_created, smallVolume_mounted,
    .cons wroteVolume_exec (.nil _)⟩

theorem wroteVolume_inv : Inv wroteVolume := wroteVolume_session.inv

theorem wroteVolume_getDirEntry : wroteVolume.getDirEntry 0 = some [(argA.1, 9)] :=
  (touchedVolume_inv.getDirEntry_written_of_ne smallVolume_largestFree.lt (by decide)).trans
    touchedVolume_getDirEntry

/-- One block is taken by the root. -/
theorem room_small (type parent : ℕ) :
    292 ≤ room (created smallVolume 9 type parent 0 (encodeDir [(argA.1, 9)])) 9 := by
  have hroom := room_written (claimed smallVolume 9 type parent) 0 (encodeDir [(argA.1, 9)]) 9
  have hlen : (blocksOf (claimed smallVolume 9 type parent) 0
      (encodeDir [(argA.1, 9)])).length ≤ 1 := by
    have hbs : (claimed smallVolume 9 type parent).sb.blockSize = 256 := smallVolume_blockSize
    rw [blocksOf_length, entryA_length, hbs]
    exact min_le_left _ _
  rw [room_claimed, smallVolume_room] at hroom
  rw [room_created]
  omega

theorem touchedVolume_room : 292 ≤ room touchedVolume 9 := room_small 1 rootSelf

/-- The file holds a block. -/
theorem wroteVolume_block : (wroteVolume.inodes 9).dataBlocks 0 ≠ 0 := by
  have hinv := touchedVolume_inv
  have hlen : (blocksOf touchedVolume 9 argX.1).length = 1 :=
    blocksOf_length_one hinv.formatted.blockSize_pos
      (by rw [hinv.formatted.blockSize]; decide) (by have := touchedVolume_room; omega)
  have hlisted : Listed ((written touchedVolume 9 argX.1).inodes 9) 0 :=
    (listed_written hinv.formatted (hinv.owned.bit_zero hinv.table)).2 (by rw [hlen]; decide)
  rcases hlisted with h | ⟨hroot, -⟩
  · exact h
  · exact absurd hroot (wroteVolume_inv.table.self_ne_rootSelf wroteVolume_inv.formatted (by decide))

end Small

end MufaFs
