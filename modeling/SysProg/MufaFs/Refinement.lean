import SysProg.MufaFs.AllOrNothing
import SysProg.MufaFs.Items
import SysProg.MufaFs.OnDrive

/-!
# The volume is a file system

As long as listings and files stay shorter than a block and there is room for them, a volume on its
drive is what `FileSystem` says it is.

* `Ordinary`: what a command must meet for that;
* `FilesOk`: the invariant, every inode reads as an item;
* `Refines`: a volume shows a file system, path by path;
* `FilesOk.exec`, `Refines.exec`: what a command does to the two;
* `session_refines`: a session shows what the same commands do to the abstract file system.
-/

namespace MufaFs

open ByteFile FirstFit Instance Listings

/-! ### Ordinary commands -/

/-- The item that a command makes. -/
def Cmd.newItem : Cmd → Item
  | .mkdir _ => .dir []
  | .write _ data => .file data.1
  | _ => .file []

/-- A command is sane, makes only new names, keeps the listing and the data shorter than a block, and
there is room for them. -/
structure Ordinary (s : Instance) (c : Cmd) : Prop where
  sane : Sane s c
  newName : NewName s c
  name_ok : Creates s c → c.name ≠ [] ∧ 0 ∉ c.name
  short : Creates s c → ∀ dir i, s.getDirEntry s.cwdNode = some dir → LargestFree s i →
    (encodeDir (dir ++ [(c.name, i)])).length < s.sb.blockSize
  room : Creates s c → c.blocks ≤ room s s.cwdNode
  data_ok : ∀ name data, c = .write name data → 0 ∉ data.1 ∧ data.1.length < s.sb.blockSize
  rewrite_room : ∀ name data, c = .write name data → ∀ dir v, s.getDirEntry s.cwdNode = some dir →
    lookup dir name.1 = some v → (s.inodes v.2).type = 1 → 0 < MufaFs.room s v.2

/-- A command that completes, under the condition `Ordinary`. -/
def OrdinaryExec (s : Instance) (c : Cmd) (t : Instance) : Prop := Exec s c t ∧ Ordinary s c

/-- The invariant: the directories form a forest with unique names, directories know their parents,
every inode reads as an item, and unoccupied inodes hold no blocks. -/
structure FilesOk (s : Instance) : Prop where
  forest : ForestOk s
  names : NamesUnique s
  parent_eq : ∀ p, ∀ i ∈ childrenOf s p, (s.inodes i).type = 2 → (s.inodes i).parent = p
  items : ∀ i, ∃ item, Is s i item
  blank : ∀ i, (s.inodes i).type = 0 → ∀ j, (s.inodes i).dataBlocks j = 0

/-! ### What a creation does -/

/-- The command has made inode `i`: it is listed last in the current directory, it is a new item,
all other inodes were left alone, and what has changed is on the drive. -/
structure Grows (s : Instance) (c : Cmd) (i : ℕ) (item : Item) (t : Instance) : Prop where
  inv : Inv t
  adds : Adds s c i t
  listing : ∀ dir, s.getDirEntry s.cwdNode = some dir →
    t.getDirEntry s.cwdNode = some (dir ++ [(c.name, i)])
  item : Is t i item
  kept : ∀ g, g ≠ s.cwdNode → g ≠ i → Keeps s t g
  onDrive : ∀ stale : Set ℕ, 0 ∉ stale → OnDrive s stale → OnDrive t (stale \ {i})
  stderr : t.stderr = s.stderr

/-- The item that an inode of this type is without blocks. -/
def emptyItem (type : ℕ) : Item := if type = 2 then .dir [] else .file []

section Grows

variable {s t : Instance} {i g : ℕ} {c : Cmd} {dir : List Entry} {data : List Byte}

theorem Inv.keeps_writeInode (h : Inv s) (hi : i < s.sb.totalInodes) (g : ℕ) :
    Keeps s (s.writeInode i) g := by
  refine ⟨rfl, fun b hb k hk => writeInode_byte (Or.inr ?_)⟩
  have hblock := h.formatted.slot_lt_block (h.table.selfOk hi) (h.owned.lt_of_holds h.formatted hb)
  have hsize := h.formatted.sizeofInode_lt
  omega

theorem keeps_claimed {type parent : ℕ} (g : ℕ) : Keeps s (claimed s i type parent) g :=
  ⟨sameBlocks_claimed.dataBlocks g, fun _ _ _ _ => rfl⟩

/-- A creation leaves every inode alone but the directory. -/
theorem Inv.keeps_created (h : Inv s) {type parent p : ℕ} (hi : i < s.sb.totalInodes)
    (h0 : type ≠ 0) (h2 : type ≤ 2) (hparent : SelfOk s.sb parent) (hp : p < s.sb.totalInodes)
    (hlen : (blocksOf (claimed s i type parent) p data).length ≤ 10) (hdata : Content s.sb data)
    (hg : g ≠ p) : Keeps s (created s i type parent p data) g := by
  have hclaim := h.claim hi h0 h2 hparent
  have hwrite := hclaim.write hp hlen hdata
  exact ((keeps_claimed g).trans (hclaim.keeps_written hp hg data) h hclaim rfl).trans
    (hwrite.keeps_writeInode hi g) h hwrite rfl

/-- An inode without blocks is an empty item. -/
theorem Inv.is_empty (h : Inv s) (h0 : i ≠ 0) (hb : ∀ j, (s.inodes i).dataBlocks j = 0) :
    Is s i (emptyItem (s.inodes i).type) := by
  rw [emptyItem]
  split_ifs with htype
  · exact .dir htype (h.table.getDirEntry_of_no_blocks h.formatted h0 hb)
  · exact .file htype (.of_no_blocks hb)

theorem LargestFree.ne_zero (hfree : LargestFree s i) (h : Inv s) : i ≠ 0 := fun e =>
  h.table.root_occupied (e ▸ hfree.free)

/-- **What `mkdir` and `touch` leave**, before the inode is put back or written. -/
theorem FilesOk.grows_created (h : FilesOk s) (hfree : LargestFree s i)
    (hdir : s.getDirEntry s.cwdNode = some dir) (hname : c.name ≠ [] ∧ 0 ∉ c.name)
    (hshort : (encodeDir (dir ++ [(c.name, i)])).length < s.sb.blockSize)
    (hroom : 0 < room s s.cwdNode) (h0 : c.newType ≠ 0) (h2 : c.newType ≤ 2)
    (hparent : SelfOk s.sb (c.newParent s)) : Grows s c i (emptyItem c.newType)
      (created s i c.newType (c.newParent s) s.cwdNode (encodeDir (dir ++ [(c.name, i)]))) := by
  have hinv := h.forest.dirs.inv
  have hi0 := hfree.ne_zero hinv
  have hself := hinv.table.self_eq i hi0 hfree.lt
  have harg : IsArg c.name := isArg_iff.2 (Or.inl hname.2)
  have hlen : (blocksOf (claimed s i c.newType (c.newParent s)) s.cwdNode
      (encodeDir (dir ++ [(c.name, i)]))).length ≤ 10 :=
    blocksOf_length_le hinv.formatted.blockSize_pos (by show _ ≤ 10 * s.sb.blockSize; omega)
  have hcontent : Content s.sb (encodeDir (dir ++ [(c.name, i)])) := by
    have hindex := hinv.table.indexOk hfree.lt
    rw [hself] at hindex
    exact .insert (hinv.listings _ hinv.cwd_lt dir hdir) harg hindex
  have hlist := hinv.getDirEntry_created_of_short c.newType (c.newParent s) s.cwdNode c.name
    hfree.lt h0 h2 hparent hinv.cwd_lt hdir hname hroom (by rwa [hself])
  have hadds := hinv.adds_created hfree hi0 harg hdir h0 h2 hparent (by rwa [hself])
  have hcreated := hinv.create hfree.lt h0 h2 hparent hinv.cwd_lt hlen hcontent
  have hkept := fun g hg =>
    hinv.keeps_created (g := g) hfree.lt h0 h2 hparent hinv.cwd_lt hlen hcontent hg
  rw [hself] at hlist hadds
  refine ⟨hcreated, hadds, fun dir' hdir' => ?_, ?_, fun g hg _ => hkept g hg, fun stale h0s hd =>
    hd.created hinv h0s hfree.lt hi0 hinv.cwd_lt (hadds.ne_cwd h.forest.dirs.cwd) h0 h2 hparent
      hcontent hshort.le (h.blank i hfree.free), rfl⟩
  · cases hdir.symm.trans hdir'
    exact hlist
  · have hblank : ∀ j, ((created s i c.newType (c.newParent s) s.cwdNode
        (encodeDir (dir ++ [(c.name, i)]))).inodes i).dataBlocks j = 0 := fun j => by
      rw [(hkept i (hadds.ne_cwd h.forest.dirs.cwd)).dataBlocks]
      exact h.blank i hfree.free j
    have hempty := hcreated.is_empty hi0 hblank
    rwa [created_type] at hempty

/-- The inode is put back into the queue. -/
theorem Grows.pushSorted {item : Item} (hg : Grows s c i item t) (hinv : Inv (t.pushSorted i)) :
    Grows s c i item (t.pushSorted i) where
  inv := hinv
  adds := hg.adds.pushSorted
  listing dir hdir := by rw [getDirEntry_pushSorted]; exact hg.listing dir hdir
  item := by
    have hk : Keeps t (t.pushSorted i) i := ⟨rfl, fun _ _ _ _ => rfl⟩
    exact hk.is hg.item hg.inv hinv rfl rfl
  kept g hgp hgi := ⟨(hg.kept g hgp hgi).dataBlocks, (hg.kept g hgp hgi).bytes⟩
  onDrive stale h0 hd := (hg.onDrive stale h0 hd).of_same rfl rfl rfl
  stderr := hg.stderr

/-- The new file is written. -/
theorem Grows.written (hg : Grows s c i (.file []) t) (hs : Inv s) (hcwd : i ≠ s.cwdNode)
    (hdata : 0 ∉ data ∧ data.length < s.sb.blockSize) (hroom : 0 < room t i) :
    Grows s c i (.file data) (written t i data) := by
  have hlt : i < t.sb.totalInodes := hg.adds.sb ▸ hg.adds.free.lt
  have hi0 := hg.adds.free.ne_zero hs
  have harg : IsArg data := isArg_iff.2 (Or.inl hdata.1)
  have hdata' : 0 ∉ data ∧ data.length < t.sb.blockSize := by rwa [hg.adds.sb]
  have hlen : (blocksOf t i data).length ≤ 10 :=
    blocksOf_length_le hg.inv.formatted.blockSize_pos (by omega)
  have hfile : (t.inodes i).type ≠ 2 := by
    cases hg.item with
    | file htype _ => exact htype
  refine ⟨hg.inv.write hlt hlen (.raw harg), hg.adds.written hg.inv hcwd harg hlen,
    fun dir hdir => ?_, .file ?_ (hg.inv.stores_written hi0 hlt hdata' hroom),
    fun g hgp hgi => ?_, fun stale h0 hd => ?_, hg.stderr⟩
  · rw [hg.inv.getDirEntry_written_of_ne hlt hcwd.symm]
    exact hg.listing dir hdir
  · rwa [written_type]
  · exact (hg.kept g hgp hgi).trans (hg.inv.keeps_written hlt hgi data) hs hg.inv hg.adds.sb
  · exact ((hg.onDrive stale h0 hd).write hg.inv hlt (fun e => h0 e.1) hdata'.2.le).mono
      Set.sdiff_subset

/-- After the listing took its block, there is room for the data. -/
theorem room_created_pos {type parent p : ℕ} (hbs : 0 < s.sb.blockSize)
    (hshort : data.length ≤ s.sb.blockSize) (hroom : 2 ≤ room s p) :
    0 < room (created s i type parent p data) i := by
  have hrest := room_written (claimed s i type parent) p data i
  have hone : (blocksOf (claimed s i type parent) p data).length = 1 :=
    blocksOf_length_one hbs hshort (by rw [room_claimed]; omega)
  rw [room_claimed, hone] at hrest
  rw [room_created]
  omega

/-- **What an ordinary command that makes an inode does.** -/
theorem FilesOk.grows_exec (h : FilesOk s) (hc : OrdinaryExec s c t) (hcreates : Creates s c) :
    ∃ i, Grows s c i c.newItem t := by
  obtain ⟨hc, hord⟩ := hc
  have hinv := h.forest.dirs.inv
  have hcwd := h.forest.dirs.cwd
  have ht := hinv.exec hc
  have hroom := hord.room hcreates
  have hname := hord.name_ok hcreates
  cases hinv.outcome hc with
  | @mkdir name _ hmkdir =>
    obtain ⟨i, s', dir, hfind, hdir, -, rfl⟩ := hinv.mkdir_eq hinv.cwd_lt hmkdir
    obtain ⟨hfree, hi0⟩ := hinv.largestFree_of_findInode (hord.sane hcreates) hfind
    rw [hinv.table.self_eq i hi0 hfree.lt] at ht ⊢
    exact ⟨i, (h.grows_created (c := .mkdir name) hfree hdir hname (hord.short trivial dir i hdir hfree)
      hroom two_ne_zero le_rfl (Or.inl hinv.cwd_lt)).pushSorted ht⟩
  | @touch name i _ htouch =>
    obtain ⟨s', dir, hfind, hdir, -, rfl⟩ := hinv.touch_eq hinv.cwd_lt htouch
    obtain ⟨hfree, hi0⟩ := hinv.largestFree_of_findInode (hord.sane hcreates) hfind
    rw [hinv.table.self_eq i hi0 hfree.lt]
    exact ⟨i, h.grows_created (c := .touch name) hfree hdir hname (hord.short trivial dir i hdir hfree)
      hroom one_ne_zero one_le_two (hinv.table.selfOk hinv.cwd_lt)⟩
  | @create name data dir i s₁ _ hdir hnew htouch hwrite =>
    obtain ⟨s', dir', hfind, hdir', -, rfl⟩ := hinv.touch_eq hinv.cwd_lt htouch
    cases hdir.symm.trans hdir'
    obtain ⟨hfree, hi0⟩ := hinv.largestFree_of_findInode (hord.sane hcreates) hfind
    rw [hinv.table.self_eq i hi0 hfree.lt] at hwrite
    have hshort := hord.short hcreates dir i hdir hfree
    have hgrows := h.grows_created (c := .write name data) hfree hdir hname hshort
      (Nat.zero_lt_two.trans_le hroom) one_ne_zero one_le_two (hinv.table.selfOk hinv.cwd_lt)
    obtain ⟨-, rfl⟩ := hgrows.inv.writeFile_eq_some hwrite
    have hne := hgrows.adds.ne_cwd hcwd
    exact ⟨i, hgrows.written hinv hne (hord.data_ok name data rfl)
      (room_created_pos hinv.formatted.blockSize_pos hshort.le hroom)⟩
  | write hdir hv => exact absurd hcreates (not_creates_of_listed hdir hv)
  | refuse hdir hv => exact absurd hcreates (not_creates_of_listed hdir hv)
  | rm => exact hcreates.elim
  | rmNothing => exact hcreates.elim
  | cdParent => exact hcreates.elim
  | cd => exact hcreates.elim
  | cdNothing => exact hcreates.elim

end Grows

/-! ### The invariant -/

section Invariant

variable {s t : Instance} {i p : ℕ} {c : Cmd} {name : Arg} {dir : List Entry}

theorem FilesOk.readable (h : FilesOk s) (hp : (s.inodes p).type = 2) :
    ∃ dir, s.getDirEntry p = some dir := by
  obtain ⟨item, hitem⟩ := h.items p
  cases hitem with
  | file htype _ => exact absurd hp htype
  | dir _ hdir => exact ⟨_, hdir⟩

theorem FilesOk.of_grows (h : FilesOk s) (hforest : ForestOk t) (hnames : NamesUnique t)
    {item : Item} (hg : Grows s c i item t) : FilesOk t where
  forest := hforest
  names := hnames
  parent_eq p k hk h2 := by
    have hcwd := h.forest.dirs.cwd
    have hpop := h.forest.populated
    have hki : k ∈ childrenOf s p → k ≠ i := fun hk e => hpop.fresh hg.adds p (e ▸ hk)
    rcases mem_of_insert (childrenOf_cwd hg.adds hcwd)
      (fun q hq => hpop.childrenOf_other hg.adds hcwd hq) hk with ⟨rfl, rfl⟩ | hk
    · -- the new inode: only `mkdir` makes directories
      rw [hg.adds.type] at h2
      rw [hg.adds.parent]
      cases c with
      | mkdir name => rfl
      | _ => exact absurd h2 (by simp [Cmd.newType])
    · rw [hg.adds.parent_of_ne k (hki hk)]
      exact h.parent_eq p k hk (by rwa [hg.adds.type_of_ne k (hki hk)] at h2)
  items k := by
    by_cases hki : k = i
    · exact ⟨item, hki ▸ hg.item⟩
    · by_cases hkc : k = s.cwdNode
      · obtain ⟨dir, hdir⟩ := h.readable h.forest.dirs.cwd
        have hcwd : (t.inodes k).type = 2 := by
          rw [hg.adds.type_of_ne k hki, hkc]
          exact h.forest.dirs.cwd
        exact ⟨_, .dir hcwd (hkc ▸ hg.listing dir hdir)⟩
      · obtain ⟨old, hold⟩ := h.items k
        exact ⟨old, (hg.kept k hkc hki).is hold h.forest.dirs.inv hg.inv hg.adds.sb
          (hg.adds.type_of_ne k hki)⟩
  blank k h0 := by
    have hki : k ≠ i := by
      rintro rfl
      rw [hg.adds.type] at h0
      cases c <;> simp [Cmd.newType] at h0
    rw [hg.adds.type_of_ne k hki] at h0
    have hkc : k ≠ s.cwdNode := fun e => by
      rw [e, h.forest.dirs.cwd] at h0
      exact absurd h0 two_ne_zero
    rw [(hg.kept k hkc hki).dataBlocks]
    exact h.blank k h0

/-- Types and parents stay, nothing new is listed, and the inodes that change read as items. -/
theorem FilesOk.of_edits (h : FilesOk s) (hforest : ForestOk t) (hnames : NamesUnique t)
    (hsb : t.sb = s.sb) (htype : ∀ k, (t.inodes k).type = (s.inodes k).type)
    (hparent : ∀ k, (t.inodes k).parent = (s.inodes k).parent)
    (hsub : ∀ p, (childrenOf t p).Sublist (childrenOf s p))
    (hedit : ∀ k, Keeps s t k ∨ (s.inodes k).type ≠ 0 ∧ ∃ item, Is t k item) : FilesOk t where
  forest := hforest
  names := hnames
  parent_eq p k hk h2 := by
    rw [hparent]
    exact h.parent_eq p k ((hsub p).subset hk) (by rwa [htype] at h2)
  items k := by
    rcases hedit k with hk | ⟨-, hitem⟩
    · obtain ⟨old, hold⟩ := h.items k
      exact ⟨old, hk.is hold h.forest.dirs.inv hforest.dirs.inv hsb (htype k)⟩
    · exact hitem
  blank k h0 := by
    rw [htype] at h0
    rcases hedit k with hk | ⟨hne, -⟩
    · rw [hk.dataBlocks]
      exact h.blank k h0
    · exact absurd h0 hne

theorem Keeps.of_same (hinodes : t.inodes = s.inodes) (hdrive : t.drive = s.drive) (k : ℕ) :
    Keeps s t k := ⟨by rw [hinodes], fun _ _ _ _ => by rw [hdrive]⟩

theorem Inv.cd_drive (h : Inv s) (hc : Exec s (.cd name) t) : t.drive = s.drive := by
  rcases h.exec_cd hc with ⟨-, -, cwd, rfl⟩ | ⟨-, dir, -, ⟨-, rfl⟩ |
    ⟨v, cwd, -, -, ⟨-, rfl⟩ | ⟨-, rfl⟩⟩⟩
  all_goals rfl

/-- What is below a listed inode is in use. -/
theorem ForestOk.occupied_below (h : ForestOk s) (hi : i ∈ childrenOf s p) {g : ℕ}
    (hg : g ∈ Below (childrenOf s) i) : (s.inodes g).type ≠ 0 := by
  rcases Relation.ReflTransGen.cases_tail hg with rfl | ⟨q, -, hq⟩
  · exact h.populated.occupied p g hi
  · exact h.populated.occupied q g hq

/-- What `rm` of a listed name leaves. -/
theorem FilesOk.rm_edits (h : FilesOk s) (ht : Inv t)
    (htype : ∀ k, (t.inodes k).type = (s.inodes k).type) (hi : i ∈ childrenOf s s.cwdNode)
    (hi0 : i ≠ 0) (hr : Removed s name.1 dir i t) (k : ℕ) :
    Keeps s t k ∨ (s.inodes k).type ≠ 0 ∧ ∃ item, Is t k item := by
  by_cases hbelow : k ∈ Below (childrenOf s) i
  · have hk0 : k ≠ 0 := fun e => h.forest.dirs.inv.zero_not_below hi0 (e ▸ hbelow)
    exact Or.inr ⟨h.forest.occupied_below hi hbelow, _, ht.is_empty hk0 (hr.emptied k hbelow)⟩
  · by_cases hcwd : k = s.cwdNode
    · subst hcwd
      have h2 := h.forest.dirs.cwd
      exact Or.inr ⟨by rw [h2]; exact two_ne_zero, _, .dir ((htype _).trans h2) hr.listing⟩
    · exact Or.inl (hr.kept k hbelow hcwd)

/-- A listed name leads to an inode in the table. -/
theorem FilesOk.listed_lt (h : FilesOk s) (hdir : s.getDirEntry s.cwdNode = some dir) {v : Entry}
    (hv : lookup dir name.1 = some v) :
    v.2 ∈ childrenOf s s.cwdNode ∧ v.2 ≠ 0 ∧ v.2 < s.sb.totalInodes ∧ v.2 < s.sb.inodesSize := by
  have hinv := h.forest.dirs.inv
  have hmem := mem_childrenOf h.forest.dirs.cwd hdir (mem_of_lookup hv)
  have hlt := h.forest.lists _ _ hmem
  have hsize := hinv.formatted.inodesSize
  refine ⟨hmem, hinv.ne_zero_of_listed hinv.cwd_lt hdir ?_ hlt, hlt, by omega⟩
  exact List.mem_map_of_mem (mem_of_lookup hv)

/-- **The step lemma.** -/
theorem FilesOk.exec (h : FilesOk s) (hc : OrdinaryExec s c t) : FilesOk t := by
  have hinv := h.forest.dirs.inv
  have hforest := h.forest.exec ⟨hc.1, hc.2.sane⟩
  have hnames := h.names.exec hinv ⟨hc.1, hc.2.newName⟩
  have hsb : t.sb = s.sb := hinv.star_sb (hinv.exec_star hc.1)
  by_cases hcreates : Creates s c
  · obtain ⟨i, hg⟩ := h.grows_exec hc hcreates
    exact h.of_grows hforest hnames hg
  · by_cases hcd : ∃ name, c = .cd name
    · obtain ⟨name, rfl⟩ := hcd
      obtain ⟨hinodes, hsame⟩ := hinv.cd_same hc.1
      have hdrive := hinv.cd_drive hc.1
      refine h.of_edits hforest hnames hsb (fun k => by rw [hinodes]) (fun k => by rw [hinodes])
        (fun p => ?_) fun k => Or.inl (.of_same hinodes hdrive k)
      rw [childrenOf_congr (by rw [hinodes]) (hsame p)]
    · rw [not_exists] at hcd
      obtain htrim := ((hinv.exec_effect (by rw [h.forest.dirs.cwd]; exact two_ne_zero)
        (fun hcr => absurd hcr hcreates) hcd hc.1).resolve_left fun e => hcreates e.1).2
      refine h.of_edits hforest hnames hsb htrim.type htrim.parent htrim.childrenOf_sublist ?_
      intro k
      cases hinv.outcome hc.1 with
      | mkdir => exact absurd trivial hcreates
      | touch => exact absurd trivial hcreates
      | create hdir hnew => exact absurd ⟨_, hdir, hnew⟩ hcreates
      | @write name data dir v _ hdir hv h0 hlt htype hwrite =>
        obtain ⟨-, rfl⟩ := hinv.writeFile_eq_some hwrite
        by_cases hk : k = v.2
        · have hroom := hc.2.rewrite_room name data rfl dir v hdir hv htype
          have hstores := hinv.stores_written h0 hlt (hc.2.data_ok name data rfl) hroom
          have hone : ((written s v.2 data.1).inodes v.2).type ≠ 2 := by
            rw [written_type, htype]
            norm_num
          subst hk
          exact Or.inr ⟨by rw [htype]; exact one_ne_zero, _, .file hone hstores⟩
        · exact Or.inl (hinv.keeps_written hlt hk data.1)
      | refuse => exact Or.inl ⟨rfl, fun _ _ _ _ => rfl⟩
      | @rm name dir v _ _ _ hdir hv h0 hlt hrm =>
        exact h.rm_edits hforest.dirs.inv htrim.type (h.listed_lt hdir hv).1 h0
          (h.forest.removed hdir hv hc.1).1 k
      | rmNothing => exact Or.inl ⟨rfl, fun _ _ _ _ => rfl⟩
      | cdParent => exact absurd rfl (hcd _)
      | cd => exact absurd rfl (hcd _)
      | cdNothing => exact absurd rfl (hcd _)

end Invariant

/-! ### The refinement -/

/-- The volume shows the file system: the same item at every path, the same current directory, and the
same messages. -/
structure Refines (s : Instance) (fs : FileSystem) : Prop where
  item : Paths.view (entriesOf s) (itemOf s) 0 = fs.item
  cwd : Paths.walk (entriesOf s) 0 fs.cwd = some s.cwdNode
  stderr : s.stderr = fs.stderr

section Refines

variable {s t : Instance} {fs : FileSystem} {i : ℕ} {c : Cmd} {name : List Byte} {dir : List Entry}
  {v : Entry}

theorem FilesOk.tree (h : FilesOk s) : Paths.Tree (entriesOf s) 0 := fileTree h.forest h.names

/-- Inodes that are left alone show the same. -/
theorem FilesOk.shows (h : FilesOk s) (hk : Keeps s t i) (ht : Inv t) (hsb : t.sb = s.sb)
    (htype : (t.inodes i).type = (s.inodes i).type) :
    entriesOf t i = entriesOf s i ∧ itemOf t i = itemOf s i := by
  have hinv := h.forest.dirs.inv
  obtain ⟨item, hitem⟩ := h.items i
  refine ⟨hk.entriesOf hinv ht hsb htype, ?_⟩
  rw [(hk.is hitem hinv ht hsb htype).itemOf_eq ht, hitem.itemOf_eq hinv]

/-- What the current directory lists. -/
theorem Refines.ls (hr : Refines s fs) (h : FilesOk s) (hdir : s.getDirEntry s.cwdNode = some dir) :
    fs.ls = dir.map Prod.fst := by
  have hitem : fs.item fs.cwd = some (.dir (dir.map Prod.fst)) := by
    rw [← hr.item, Paths.view, hr.cwd]
    exact congrArg some ((Is.dir h.forest.dirs.cwd hdir).itemOf_eq h.forest.dirs.inv)
  rw [FileSystem.ls, hitem]

/-- What a name in the current directory leads to. -/
theorem Refines.item_path (hr : Refines s fs) (h : FilesOk s)
    (hdir : s.getDirEntry s.cwdNode = some dir) (name : List Byte) :
    fs.item (fs.path name) = (lookup dir name).map fun v => itemOf s v.2 := by
  rw [← hr.item, FileSystem.path, Paths.view, Paths.walk_snoc, hr.cwd, Option.bind_some,
    find_entriesOf h.forest.dirs.cwd hdir, Option.map_map]
  rfl

theorem Refines.find_path (hr : Refines s fs) (h : FilesOk s)
    (hdir : s.getDirEntry s.cwdNode = some dir) (hv : lookup dir name = some v) :
    Paths.find (entriesOf s s.cwdNode) name = some v.2 ∧
      Paths.walk (entriesOf s) 0 (fs.path name) = some v.2 := by
  have hfind : Paths.find (entriesOf s s.cwdNode) name = some v.2 := by
    rw [find_entriesOf h.forest.dirs.cwd hdir, hv]
    rfl
  exact ⟨hfind, Paths.walk_snoc_eq_some.2 ⟨_, hr.cwd, hfind⟩⟩

/-- **A new item.** -/
theorem Refines.create (hr : Refines s fs) (h : FilesOk s) {item : Item} (hg : Grows s c i item t)
    (hdir : s.getDirEntry s.cwdNode = some dir) (hnew : lookup dir c.name = none) :
    Refines t (fs.create c.name item) := by
  have hinv := h.forest.dirs.inv
  have hcwd := h.forest.dirs.cwd
  have hic := hg.adds.ne_cwd hcwd
  have hcwd' : (t.inodes s.cwdNode).type = 2 := by rw [hg.adds.type_of_ne _ hic.symm, hcwd]
  have hfind : Paths.find (entriesOf s s.cwdNode) c.name = none := by
    rw [find_entriesOf hcwd hdir, hnew]
    rfl
  have hfresh : ∀ q, i ∉ Paths.targets (entriesOf s) q := fun q => by
    rw [targets_entriesOf]
    exact h.forest.populated.fresh hg.adds q
  have hi0 := hg.adds.free.ne_zero hinv
  have hinsert : entriesOf t s.cwdNode = entriesOf s s.cwdNode ++ [(c.name, i)] := by
    rw [entriesOf_eq hcwd' (hg.listing dir hdir), entriesOf_eq hcwd hdir]
  have hempty : entriesOf t i = [] := by
    have hchildren := h.forest.populated.childrenOf_new hg.adds hic
    rw [← targets_entriesOf] at hchildren
    exact List.map_eq_nil_iff.1 hchildren
  have hother := fun q hqc hqi => h.shows (hg.kept q hqc hqi) hg.inv hg.adds.sb
    (hg.adds.type_of_ne q hqi)
  have hview := h.tree.view_insert hr.cwd hfind hfresh hi0 hinsert hempty
    (fun q hqc hqi => (hother q hqc hqi).1) fun q hqc hqi => (hother q hqc hqi).2
  have hlabel : itemOf t s.cwdNode = .dir (fs.ls ++ [c.name]) := by
    rw [(Is.dir hcwd' (hg.listing dir hdir)).itemOf_eq hg.inv, hr.ls h hdir, List.map_append]
    rfl
  refine ⟨?_, ?_, hg.stderr.trans hr.stderr⟩
  · rw [hview, hlabel, hg.item.itemOf_eq hg.inv, hr.item]
    rfl
  · have hne : fs.cwd ≠ fs.cwd ++ [c.name] := by simp
    show Paths.walk (entriesOf t) 0 fs.cwd = some t.cwdNode
    rw [h.tree.walk_insert hr.cwd hfind hfresh hi0 hinsert hempty
      (fun q hqc hqi => (hother q hqc hqi).1), if_neg hne, hr.cwd, hg.adds.cwdNode]

/-- **A file with a new content.** -/
theorem Refines.put (hr : Refines s fs) (h : FilesOk s) (hdir : s.getDirEntry s.cwdNode = some dir)
    (hv : lookup dir name = some v) (hfile : (s.inodes v.2).type ≠ 2) {item : Item} (ht : Inv t)
    (hsb : t.sb = s.sb) (htype : ∀ k, (t.inodes k).type = (s.inodes k).type)
    (hcwd : t.cwdNode = s.cwdNode) (hstderr : t.stderr = s.stderr)
    (hkept : ∀ k, k ≠ v.2 → Keeps s t k) (hitem : Is t v.2 item) :
    Refines t (fs.put (fs.path name) item) := by
  have hentries : entriesOf t = entriesOf s := by
    funext k
    by_cases hk : k = v.2
    · rw [hk, entriesOf_eq_nil hfile, entriesOf_eq_nil (by rwa [htype])]
    · exact (h.shows (hkept k hk) ht hsb (htype k)).1
  have hview := h.tree.view_update (hr.find_path h hdir hv).2 fun k hk =>
    (h.shows (hkept k hk) ht hsb (htype k)).2
  refine ⟨?_, ?_, hstderr.trans hr.stderr⟩
  · rw [hentries, hview, hitem.itemOf_eq ht, hr.item]
    rfl
  · rw [hentries, hcwd]
    exact hr.cwd

theorem map_eraseP (dir : List Entry) (name : List Byte) :
    (dir.eraseP fun e => decide (e.1 = name)).map Prod.fst = (dir.map Prod.fst).erase name := by
  rw [List.erase_eq_eraseP', List.eraseP_map]
  refine congrArg (List.map Prod.fst) (congrArg (fun p => dir.eraseP p) (funext fun e => ?_))
  exact (beq_eq_decide e.1 name).symm

/-- **A name that is removed.** -/
theorem Refines.remove (hr : Refines s fs) (h : FilesOk s)
    (hdir : s.getDirEntry s.cwdNode = some dir) (hv : lookup dir name = some v) (ht : Inv t)
    (htrim : Trims s t) (hstderr : t.stderr = s.stderr) (hrem : Removed s name dir v.2 t) :
    Refines t (fs.remove name) := by
  have hcwd := h.forest.dirs.cwd
  have hcwd' : (t.inodes s.cwdNode).type = 2 := (htrim.type _).trans hcwd
  have hfind := (hr.find_path h hdir hv).1
  have herase : entriesOf t s.cwdNode =
      (entriesOf s s.cwdNode).eraseP fun v => decide (v.1 = name) := by
    rw [entriesOf_eq hcwd' hrem.listing, entriesOf_eq hcwd hdir]
  have hother : ∀ q, q ∉ Below (Paths.targets (entriesOf s)) v.2 → q ≠ s.cwdNode →
      entriesOf t q = entriesOf s q ∧ itemOf t q = itemOf s q := fun q hq hqc => by
    rw [targets_entriesOf] at hq
    exact h.shows (hrem.kept q hq hqc) ht htrim.sb (htrim.type q)
  have hlabel : itemOf t s.cwdNode = .dir (fs.ls.erase name) := by
    rw [(Is.dir hcwd' hrem.listing).itemOf_eq ht, hr.ls h hdir, map_eraseP]
  refine ⟨?_, ?_, hstderr.trans hr.stderr⟩
  · funext path
    rw [h.tree.view_erase hr.cwd hfind herase (fun q hq hqc => (hother q hq hqc).1)
      fun q hq hqc => (hother q hq hqc).2, hlabel, hr.item]
    rfl
  · have hne : ¬fs.cwd ++ [name] <+: fs.cwd := fun e => by simpa using e.length_le
    show Paths.walk (entriesOf t) 0 fs.cwd = some t.cwdNode
    rw [h.tree.walk_erase hr.cwd hfind herase (fun q hq hqc => (hother q hq hqc).1), if_neg hne,
      hr.cwd, htrim.cwdNode]

/-- The volume itself is not changed. -/
theorem FilesOk.shows_same (h : FilesOk s) (ht : Inv t) (hsb : t.sb = s.sb)
    (hinodes : t.inodes = s.inodes) (hdrive : t.drive = s.drive) :
    entriesOf t = entriesOf s ∧ itemOf t = itemOf s :=
  ⟨funext fun k => (h.shows (.of_same hinodes hdrive k) ht hsb (by rw [hinodes])).1,
    funext fun k => (h.shows (.of_same hinodes hdrive k) ht hsb (by rw [hinodes])).2⟩

/-- Another current directory, and more messages. -/
theorem Refines.same (hr : Refines s fs) (h : FilesOk s) (ht : Inv t) (hsb : t.sb = s.sb)
    (hinodes : t.inodes = s.inodes) (hdrive : t.drive = s.drive) {fs' : FileSystem}
    (hitem : fs'.item = fs.item) (hcwd : Paths.walk (entriesOf s) 0 fs'.cwd = some t.cwdNode)
    (hstderr : t.stderr = fs'.stderr) : Refines t fs' := by
  obtain ⟨hentries, hitems⟩ := h.shows_same ht hsb hinodes hdrive
  exact ⟨by rw [hentries, hitems, hr.item, hitem], by rw [hentries, hcwd], hstderr⟩

theorem Refines.report (hr : Refines s fs) (h : FilesOk s) (d : Diagnostic)
    (ht : Inv (s.report d)) : Refines (s.report d) (fs.report d) := by
  refine hr.same h ht rfl rfl rfl rfl hr.cwd ?_
  show s.stderr ++ [d] = fs.stderr ++ [d]
  rw [hr.stderr]

theorem itemOf_dir (htype : (s.inodes i).type = 2) : ∃ names, itemOf s i = .dir names :=
  ⟨_, if_pos htype⟩

theorem itemOf_file (htype : (s.inodes i).type ≠ 2) : ∃ content, itemOf s i = .file content :=
  ⟨_, if_neg htype⟩

/-- The parent of the current directory is one name up. -/
theorem Refines.walk_parent (hr : Refines s fs) (h : FilesOk s) (h0 : s.cwdNode ≠ 0) :
    Paths.walk (entriesOf s) 0 fs.cwd.dropLast = some (s.inodes s.cwdNode).parent := by
  have hwalk := hr.cwd
  rcases List.eq_nil_or_concat fs.cwd with hnil | ⟨P, name, hcwd⟩
  · rw [hnil] at hwalk
    exact absurd (Option.some.inj hwalk).symm h0
  · rw [hcwd, List.concat_eq_append] at hwalk ⊢
    obtain ⟨p, hp, hfind⟩ := Paths.walk_snoc_eq_some.1 hwalk
    have hmem := Paths.mem_targets_of_find hfind
    rw [targets_entriesOf] at hmem
    rw [List.dropLast_concat, hp, h.parent_eq p _ hmem h.forest.dirs.cwd]

theorem Rewrite.stderr (h : Inv s) (hr : Rewrite s t) : t.stderr = s.stderr := by
  cases hr with
  | write _ _ ht =>
    obtain ⟨-, rfl⟩ := h.writeFile_eq_some ht
    rfl
  | purge _ _ ht =>
    rw [h.purgeFileContents_eq] at ht
    cases ht
    rfl

/-- `rm` says nothing when it removes. -/
theorem Inv.rmInode_stderr {fuel : ℕ} {b : Bool} {p : ℕ} (h : Inv s) (hp : p < s.sb.totalInodes)
    (h0 : i ≠ 0) (hi : i < s.sb.totalInodes) (ht : rmInode fuel s p i = some (b, t)) :
    t.stderr = s.stderr :=
  (Runs.invariant_of_star (P := fun u => Inv u ∧ u.stderr = s.stderr)
    (fun _ _ hu hr => ⟨hu.1.rewrite hr, (hr.stderr hu.1).trans hu.2⟩) ⟨h, rfl⟩
    (h.rmInode_rewrites hp h0 hi ht)).2

/-- **The step of the refinement.** -/
theorem Refines.exec (hr : Refines s fs) (h : FilesOk s) (hc : OrdinaryExec s c t) :
    Refines t (fs.exec c) := by
  have hinv := h.forest.dirs.inv
  have hcwd := h.forest.dirs.cwd
  have ht := hinv.exec hc.1
  have hsb : t.sb = s.sb := hinv.star_sb (hinv.exec_star hc.1)
  have hord := hc.2
  cases hinv.outcome hc.1 with
  | @mkdir name =>
    obtain ⟨dir, hdir⟩ := h.readable hcwd
    obtain ⟨i, hg⟩ := h.grows_exec hc trivial
    exact hr.create h hg hdir (hord.newName dir hdir)
  | @touch name =>
    obtain ⟨dir, hdir⟩ := h.readable hcwd
    obtain ⟨i, hg⟩ := h.grows_exec hc trivial
    exact hr.create h hg hdir (hord.newName dir hdir)
  | @create name data dir _ _ _ hdir hnew =>
    obtain ⟨i, hg⟩ := h.grows_exec hc ⟨dir, hdir, hnew⟩
    have hitem : fs.item (fs.path name.1) = none := by rw [hr.item_path h hdir, hnew]; rfl
    have hexec : fs.exec (.write name data) = fs.create name.1 (.file data.1) := by
      simp only [FileSystem.exec, hitem]
    rw [hexec]
    exact hr.create h hg hdir hnew
  | @write name data dir v _ hdir hv h0 hlt htype hwrite =>
    obtain ⟨-, rfl⟩ := hinv.writeFile_eq_some hwrite
    have h2 : (s.inodes v.2).type ≠ 2 := by rw [htype]; norm_num
    obtain ⟨content, hcontent⟩ := itemOf_file h2
    have hitem : fs.item (fs.path name.1) = some (.file content) := by
      rw [hr.item_path h hdir, hv, ← hcontent]
      rfl
    have hexec : fs.exec (.write name data) = fs.put (fs.path name.1) (.file data.1) := by
      simp only [FileSystem.exec, hitem]
    have hstores := hinv.stores_written h0 hlt (hord.data_ok name data rfl)
      (hord.rewrite_room name data rfl dir v hdir hv htype)
    rw [hexec]
    exact hr.put h hdir hv h2 ht rfl written_type rfl rfl
      (fun k hk => hinv.keeps_written hlt hk data.1) (.file (by rwa [written_type]) hstores)
  | @refuse name data dir v hdir hv htype =>
    -- a listed inode that is no file is a directory
    have hmem := (h.listed_lt hdir hv).1
    have h2 : (s.inodes v.2).type = 2 := by
      have hle := hinv.table.type_le v.2 (h.listed_lt hdir hv).2.2.1
      have hne := h.forest.populated.occupied _ _ hmem
      omega
    obtain ⟨names, hnames⟩ := itemOf_dir h2
    have hitem : fs.item (fs.path name.1) = some (.dir names) := by
      rw [hr.item_path h hdir, hv, ← hnames]
      rfl
    have hexec : fs.exec (.write name data) = fs.report (.notAFile name.1) := by
      simp only [FileSystem.exec, hitem]
    rw [hexec]
    exact hr.report h _ ht
  | @rm name dir v _ _ _ hdir hv h0 hlt hrm =>
    have hitem : fs.item (fs.path name.1) = some (itemOf s v.2) := by
      rw [hr.item_path h hdir, hv]
      rfl
    have hexec : fs.exec (.rm name) = fs.remove name.1 := by
      simp only [FileSystem.exec, hitem]
    rw [hexec]
    exact hr.remove h hdir hv ht (hinv.trims_rmInode hinv.cwd_lt h0 hlt hrm)
      (hinv.rmInode_stderr hinv.cwd_lt h0 hlt hrm) (h.forest.removed hdir hv hc.1).1
  | @rmNothing name dir hdir hnone =>
    have hitem : fs.item (fs.path name.1) = none := by rw [hr.item_path h hdir, hnone]; rfl
    have hexec : fs.exec (.rm name) = fs.report (.fileDoesNotExist name.1) := by
      simp only [FileSystem.exec, hitem]
    rw [hexec]
    exact hr.report h _ ht
  | @cdParent name _ hdots hlt henter =>
    obtain ⟨cwd, -, rfl⟩ := cdNode_eq_some henter
    have h0 : s.cwdNode ≠ 0 := by simpa [Sane, hdots] using hord.sane
    have hexec : fs.exec (.cd name) = { fs with cwd := fs.cwd.dropLast } := by
      simp only [FileSystem.exec, if_pos hdots]
    rw [hexec]
    refine hr.same h ht rfl rfl rfl rfl ?_ hr.stderr
    exact hr.walk_parent h h0
  | @cd name dir v s₁ _ hdots hdir hv hlt hkind henter =>
    have h2 : (s.inodes v.2).type = 2 := by
      have hsane := hord.sane
      simp only [Sane, if_neg hdots] at hsane
      exact hsane dir v hdir hv
    obtain ⟨-, rfl⟩ := hkind.resolve_right fun e => e.1 h2
    obtain ⟨cwd, -, rfl⟩ := cdNode_eq_some henter
    obtain ⟨names, hnames⟩ := itemOf_dir h2
    have hitem : fs.item (fs.path name.1) = some (.dir names) := by
      rw [hr.item_path h hdir, hv, ← hnames]
      rfl
    have hexec : fs.exec (.cd name) = { fs with cwd := fs.path name.1 } := by
      simp only [FileSystem.exec, if_neg hdots, hitem]
    rw [hexec]
    exact hr.same h ht rfl rfl rfl rfl (hr.find_path h hdir hv).2 hr.stderr
  | @cdNothing name dir hdots hdir hnone =>
    have hitem : fs.item (fs.path name.1) = none := by rw [hr.item_path h hdir, hnone]; rfl
    have hexec : fs.exec (.cd name) = fs.report (.directoryDoesNotExist name.1) := by
      simp only [FileSystem.exec, if_neg hdots, hitem]
    rw [hexec]
    exact hr.report h _ ht

end Refines

/-! ### Sessions -/

section Session

variable {s t : Instance} {c : Cmd}

/-- **Runs.** -/
theorem FilesOk.run {cs : List Cmd} {fs : FileSystem} (hrun : Runs.Run OrdinaryExec s cs t)
    (h : FilesOk s) (hr : Refines s fs) : FilesOk t ∧ Refines t (cs.foldl FileSystem.exec fs) := by
  induction hrun generalizing fs with
  | nil s => exact ⟨h, hr⟩
  | cons hc _ ih => exact ih (h.exec hc) (hr.exec h hc)

/-- **Ordinary commands complete.** -/
theorem FilesOk.completes (h : FilesOk s) (hord : Ordinary s c) : ∃ t, Exec s c t := by
  have hinv := h.forest.dirs.inv
  have hcwd := h.forest.dirs.cwd
  obtain ⟨dir, hdir⟩ := h.readable hcwd
  -- what a new name needs
  have hnew : Creates s c → ∃ i, LargestFree s i ∧
      (encodeDir (dir ++ [(c.name, (s.inodes i).self)])).length ≤ 10 * s.sb.blockSize := by
    intro hcreates
    have hfree : HasFree s := by
      have hsane := hord.sane
      cases c with
      | rm => exact hcreates.elim
      | cd => exact hcreates.elim
      | _ => exact hsane hcreates
    obtain ⟨i, hi⟩ := hfree.exists_largest
    have hshort := hord.short hcreates dir i hdir hi
    exact ⟨i, hi, by rw [hinv.table.self_eq i (hi.ne_zero hinv) hi.lt]; omega⟩
  cases c with
  | mkdir name =>
    obtain ⟨i, hi, hlen⟩ := hnew trivial
    exact ⟨_, 0, hinv.mkdir_of_free _ _ hinv.cwd_lt hi hdir hlen⟩
  | touch name =>
    obtain ⟨i, hi, hlen⟩ := hnew trivial
    have htouch := hinv.touch_of_free _ _ hinv.cwd_lt hi hdir hlen
    exact ⟨_, 0, congrArg (Option.map Prod.snd) htouch⟩
  | write name data =>
    have hdata := (hord.data_ok name data rfl).2
    cases hv : lookup dir name.1 with
    | none =>
      obtain ⟨i, hi, hlen⟩ := hnew ⟨dir, hdir, hv⟩
      have hwrite := hinv.writeFileNamed_of_free _ data.1 hi name.2 hdir hv hlen (by omega)
      exact ⟨_, 0, congrArg (Option.map Prod.snd) hwrite⟩
    | some v =>
      have hwrite : s.writeFileNamed name.1 data.1 = _ :=
        writeFileNamed_listed hdir hv (h.listed_lt hdir hv).2.2.2
      rw [hinv.writeFile_of_length (by omega)] at hwrite
      split_ifs at hwrite
      · exact ⟨_, 0, congrArg (Option.map Prod.snd) hwrite⟩
      · exact ⟨_, 0, congrArg (Option.map Prod.snd) hwrite⟩
  | rm name =>
    cases hv : lookup dir name.1 with
    | none => exact ⟨s.report (.fileDoesNotExist name.1), 0, by simp [builtInFunc, rm, hdir, hv]⟩
    | some v => exact ((h.forest.removesBelow_iff hdir hv).2 fun g _ hg => h.readable hg).1
  | cd name =>
    have hsane := hord.sane
    by_cases hdots : name.1 = ascii ".."
    · have h0 : s.cwdNode ≠ 0 := by simpa [Sane, hdots] using hsane
      obtain ⟨hlt, htype⟩ := h.forest.dirs.parent _ hinv.cwd_lt h0 hcwd
      obtain ⟨cwd, hparent⟩ := h.readable htype
      have hsize := hinv.formatted.inodesSize
      exact ⟨_, exec_cd_parent hdots (by omega) hparent⟩
    · cases hv : lookup dir name.1 with
      | none =>
        exact ⟨s.report (.directoryDoesNotExist name.1), 0, by simp [builtInFunc, hdots, cd, hdir, hv]⟩
      | some v =>
        simp only [Sane, if_neg hdots] at hsane
        have htype := hsane dir v hdir hv
        obtain ⟨cwd, hentry⟩ := h.readable htype
        exact ⟨_, exec_cd hdots hdir hv (h.listed_lt hdir hv).2.2.2 htype hentry⟩

variable {name : List Byte} {size : ℕ} {next : UInt16} {img : File} {s₀ : Instance}

/-- A new volume holds no blocks. -/
theorem dataBlocks_of_image (himg : createDriveImage name size next = some img)
    (hmount : mount img = some s₀) (i : ℕ) (j : Fin 10) : (s₀.inodes i).dataBlocks j = 0 := by
  obtain ⟨-, rfl⟩ := mount_image_eq_some himg hmount
  have hnone : ∀ i < (newSuperBlock name size next).totalInodes, ∀ j,
      (newInodes i).dataBlocks j = 0 := fun i _ j => newInodes_dataBlocks i j
  rw [newInstance]
  exact fresh_dataBlocks hnone emptyBitmap i j

theorem FilesOk.of_image (himg : createDriveImage name size next = some img)
    (hmount : mount img = some s₀) : FilesOk s₀ where
  forest := .of_image himg hmount
  names := .of_nodup fun p _ dir hdir => by
    rw [getDirEntry_of_image himg hmount] at hdir
    cases hdir
    exact List.nodup_nil
  parent_eq p i hi := absurd (childrenOf_of_image himg hmount p ▸ hi) List.not_mem_nil
  items i := by
    by_cases htype : (s₀.inodes i).type = 2
    · exact ⟨_, .dir htype (getDirEntry_of_image himg hmount i)⟩
    · exact ⟨_, .file htype (.of_no_blocks (dataBlocks_of_image himg hmount i))⟩
  blank i _ := dataBlocks_of_image himg hmount i

theorem Refines.of_image (himg : createDriveImage name size next = some img)
    (hmount : mount img = some s₀) : Refines s₀ .empty := by
  have h := FilesOk.of_image himg hmount
  have hcwd : s₀.cwdNode = 0 := by
    obtain ⟨-, rfl⟩ := mount_image_eq_some himg hmount
    rfl
  have htype : (s₀.inodes 0).type = 2 := hcwd ▸ h.forest.dirs.cwd
  have hentries : ∀ p, entriesOf s₀ p = [] := fun p => by
    rw [entriesOf, getDirEntry_of_image himg hmount]
    split_ifs <;> rfl
  refine ⟨funext fun path => ?_, by rw [hcwd]; rfl, ?_⟩
  · cases path with
    | nil =>
      have hroot := (Is.dir htype (getDirEntry_of_image himg hmount 0)).itemOf_eq h.forest.dirs.inv
      exact congrArg some hroot
    | cons name path =>
      rw [Paths.view, Paths.walk, hentries]
      rfl
  · obtain ⟨-, rfl⟩ := mount_image_eq_some himg hmount
    rfl

/-- What a survey allows is ordinary. -/
theorem SurveyedExec.ordinary (h : SurveyedExec s c t) : OrdinaryExec s c t := by
  have hsane := h.sane.2
  have hnewName := h.newName.2
  obtain ⟨hexec, k, hk, hc⟩ := h
  refine ⟨hexec, hsane, hnewName, fun hcreates => (hk.creates hc hcreates).2.1,
    fun hcreates dir i hdir hi => ((hk.creates hc hcreates).2.2.2 dir hdir).2 i hi,
    fun hcreates => (hk.creates hc hcreates).2.2.1.trans (freeBlocks_le_room s _), ?_, ?_⟩
  · rintro name data rfl
    have hdata := of_decide_eq_true (Bool.and_eq_true_iff.1 hc).2
    exact ⟨hdata.2.1, hk.inv.formatted.blockSize ▸ hdata.2.2⟩
  · -- only new names are written
    rintro name data rfl dir v hdir hv -
    cases hk.getDirEntry_cwd.symm.trans hdir
    obtain ⟨-, -, -, hnew, -⟩ := of_decide_eq_true (Bool.and_eq_true_iff.1 hc).1
    exact absurd (hnew.symm.trans hv) (Option.some_ne_none v).symm

theorem sampleSession_ordinary : ∃ s, Runs.Run OrdinaryExec smallVolume sampleSession s := by
  obtain ⟨s, hrun, -⟩ := sampleSession_run
  exact ⟨s, hrun.mono fun _ _ _ h => h.ordinary⟩

/-- **A session is a session of the abstract file system.** On a new image, after every sequence of
ordinary commands, the volume shows what the same commands make of the empty file system, and every
ordinary command completes. -/
theorem session_refines {cs : List Cmd} (himg : createDriveImage name size next = some img)
    (hmount : mount img = some s₀) (hrun : Runs.Run OrdinaryExec s₀ cs s) :
    Refines s (cs.foldl FileSystem.exec .empty) ∧ ∀ c, Ordinary s c → ∃ t, OrdinaryExec s c t := by
  obtain ⟨h, hr⟩ := FilesOk.run hrun (.of_image himg hmount) (.of_image himg hmount)
  exact ⟨hr, fun c hord => (h.completes hord).imp fun t ht => ⟨ht, hord⟩⟩

end Session

/-- The session leaves a file `b` with the content `x` in the directory `a`. -/
theorem session_refines_sample : ∃ s, Runs.Run OrdinaryExec smallVolume sampleSession s ∧
    (sampleSession.foldl FileSystem.exec .empty).item [argA.1, argB.1] = some (.file argX.1) ∧
    Refines s (sampleSession.foldl FileSystem.exec .empty) ∧
      ∀ c, Ordinary s c → ∃ t, OrdinaryExec s c t := by
  obtain ⟨s, hrun⟩ := sampleSession_ordinary
  exact ⟨s, hrun, by decide, session_refines smallVolume_created smallVolume_mounted hrun⟩

theorem smallVolume_ordinary : Ordinary smallVolume (.touch argA) where
  sane := fun _ => smallVolume_largestFree.hasFree
  newName dir hdir := by
    cases smallVolume_getDirEntry.symm.trans hdir
    rfl
  name_ok _ := by decide
  short _ dir i hdir hi := by
    cases smallVolume_getDirEntry.symm.trans hdir
    rw [hi.unique smallVolume_largestFree, smallVolume_blockSize]
    decide
  room _ := by rw [smallVolume_cwdNode, smallVolume_room]; decide
  data_ok _ _ h := nomatch h
  rewrite_room _ _ h := nomatch h

end MufaFs
