import SysProg.Lib.Paths
import SysProg.MufaFs.FileSystem
import SysProg.MufaFs.Names
import SysProg.MufaFs.Removal
import SysProg.MufaFs.RoundTrip

/-!
# Inodes as items

An inode is read as a file of one block at most, or as a directory.  What `read_file` and
`get_dir_entry` do with more blocks is not what was written, so nothing is said about it here.

* `Stores`: the inode holds a content, in one block;
* `Is`: the inode reads as an item;
* `Keeps.is`: an inode that is left alone reads as before;
* `fileTree`: the directories of a volume as a tree of listings.
-/

namespace MufaFs

open ByteFile FirstFit Instance Listings

/-! ### Contents -/

/-- Inode `i` holds the content in its first block, or is empty and holds none. -/
structure Stores (s : Instance) (i : ℕ) (content : List Byte) : Prop where
  single : ∀ j, j ≠ 0 → (s.inodes i).dataBlocks j = 0
  first : (s.inodes i).dataBlocks 0 = 0 ∧ content = [] ∨
    (s.inodes i).dataBlocks 0 ≠ 0 ∧ 0 ∉ content ∧ content.length < s.sb.blockSize ∧
      s.drive.slice (s.sb.blockAddr ((s.inodes i).dataBlocks 0)) s.sb.blockSize =
        pad s.sb.blockSize content

section Stores

variable {s t : Instance} {i : ℕ} {content data : List Byte}

theorem Stores.of_no_blocks (h : ∀ j, (s.inodes i).dataBlocks j = 0) : Stores s i [] :=
  ⟨fun j _ => h j, Or.inl ⟨h 0, rfl⟩⟩

/-- **What is stored is read.** -/
theorem Stores.readFile (hs : Stores s i content) (h : Inv s) : s.readFile i = some content := by
  rw [Instance.readFile]
  rcases hs.first with ⟨hzero, rfl⟩ | ⟨hne, h0, hlt, hslice⟩
  · rw [if_pos hzero]
  · have hheld : (s.inodes i).Holds ((s.inodes i).dataBlocks 0) := Or.inr ⟨hne, 0, rfl⟩
    rw [if_neg hne]
    dsimp only
    rw [File.fread_of_le _ _ _ (h.owned.covered i _ hheld), hslice]
    have htext : cString (pad s.sb.blockSize content) = some content := by
      have hread : cString (pad s.sb.blockSize (content.take s.sb.blockSize)) = _ := cString_pad h0
      rwa [List.take_of_length_le hlt.le, if_pos hlt] at hread
    -- the second block is not listed, so the loop does not start
    rw [htext, Option.bind_eq_bind, Option.bind_some, readLoop, dif_pos (by norm_num),
      if_pos (hs.single _ (by decide))]

/-- An inode that is left alone keeps its content. -/
theorem Keeps.stores (hk : Keeps s t i) (hs : Stores s i content) (hsb : t.sb = s.sb) :
    Stores t i content := by
  refine ⟨fun j hj => by rw [hk.dataBlocks]; exact hs.single j hj, ?_⟩
  rw [hk.dataBlocks, hsb]
  refine hs.first.imp id fun ⟨hne, h0, hlt, hslice⟩ => ⟨hne, h0, hlt, ?_⟩
  rw [← hslice]
  exact File.slice_congr fun k hlt => hk.bytes _ (Or.inr ⟨hne, 0, rfl⟩) k hlt

/-- **What is written is stored**, if it is shorter than a block. -/
theorem Inv.stores_written (h : Inv s) (h0 : i ≠ 0) (hi : i < s.sb.totalInodes)
    (hdata : 0 ∉ data ∧ data.length < s.sb.blockSize) (hroom : 0 < room s i) :
    Stores (written s i data) i data := by
  have hbs := h.formatted.blockSize_pos
  have hone : (blocksOf s i data).length = 1 := blocksOf_length_one hbs hdata.2.le hroom
  obtain ⟨b, hb⟩ := List.length_eq_one_iff.1 hone
  have hget : ∀ j : Fin 10, ((written s i data).inodes i).dataBlocks j = [b].getD j.val 0 :=
    fun j => by rw [written_inodes_self, hb]; rfl
  have hfirst : ((written s i data).inodes i).dataBlocks 0 = b := hget 0
  have hne : b ≠ 0 := fun e => h.zero_not_mem_blocks h0 (by rw [hb, e]; exact List.mem_singleton_self 0)
  refine ⟨fun j hj => ?_, Or.inr ⟨by rwa [hfirst], hdata.1, hdata.2, ?_⟩⟩
  · rw [hget]
    exact List.getD_eq_default _ _ (Nat.one_le_iff_ne_zero.2 fun e => hj (Fin.ext e))
  · have hpos : 0 < (blocksOf s i data).length := by rw [hone]; exact Nat.one_pos
    have hblock := written_block h.formatted (h.table.selfOk hi) hpos
    rw [Nat.zero_mul, List.drop_zero, List.take_of_length_le hdata.2.le] at hblock
    rw [hfirst, written_sb, ← hblock]
    simp only [hb, List.getElem_cons_zero]

end Stores

/-! ### Items -/

/-- The entries of a directory. A file lists nothing. -/
def entriesOf (s : Instance) (p : ℕ) : List Entry :=
  if (s.inodes p).type = 2 then (s.getDirEntry p).getD [] else []

/-- The item that an inode is to the user. -/
def itemOf (s : Instance) (i : ℕ) : Item :=
  if (s.inodes i).type = 2 then .dir ((entriesOf s i).map Prod.fst)
  else .file ((s.readFile i).getD [])

/-- Inode `i` reads as the item. -/
inductive Is (s : Instance) (i : ℕ) : Item → Prop
  | file {content : List Byte} : (s.inodes i).type ≠ 2 → Stores s i content → Is s i (.file content)
  | dir {dir : List Entry} : (s.inodes i).type = 2 → s.getDirEntry i = some dir →
      Is s i (.dir (dir.map Prod.fst))

section Items

variable {s t : Instance} {i p : ℕ} {item : Item} {dir : List Entry}

theorem entriesOf_eq (htype : (s.inodes p).type = 2) (hdir : s.getDirEntry p = some dir) :
    entriesOf s p = dir := by rw [entriesOf, if_pos htype, hdir, Option.getD_some]

theorem entriesOf_eq_nil (htype : (s.inodes p).type ≠ 2) : entriesOf s p = [] := if_neg htype

theorem targets_entriesOf (s : Instance) : Paths.targets (entriesOf s) = childrenOf s := by
  funext p
  rw [Paths.targets, entriesOf, childrenOf]
  split_ifs <;> rfl

theorem Is.itemOf_eq (hi : Is s i item) (h : Inv s) : itemOf s i = item := by
  cases hi with
  | file htype hstores => rw [itemOf, if_neg htype, hstores.readFile h, Option.getD_some]
  | dir htype hdir => rw [itemOf, if_pos htype, entriesOf_eq htype hdir]

/-- **An inode that is left alone reads as before.** -/
theorem Keeps.is (hk : Keeps s t i) (hi : Is s i item) (hs : Inv s) (ht : Inv t)
    (hsb : t.sb = s.sb) (htype : (t.inodes i).type = (s.inodes i).type) : Is t i item := by
  cases hi with
  | file hne hstores => exact .file (htype ▸ hne) (hk.stores hstores hsb)
  | dir h2 hdir => exact .dir (htype.trans h2) ((hk.getDirEntry hs ht hsb).trans hdir)

theorem Keeps.entriesOf (hk : Keeps s t i) (hs : Inv s) (ht : Inv t) (hsb : t.sb = s.sb)
    (htype : (t.inodes i).type = (s.inodes i).type) : MufaFs.entriesOf t i = MufaFs.entriesOf s i := by
  rw [MufaFs.entriesOf, MufaFs.entriesOf, htype, hk.getDirEntry hs ht hsb]

/-- `lookup` searches the entries of the directory. -/
theorem find_entriesOf (htype : (s.inodes p).type = 2) (hdir : s.getDirEntry p = some dir)
    (name : List Byte) : Paths.find (entriesOf s p) name = (lookup dir name).map Prod.snd := by
  rw [entriesOf_eq htype hdir, Paths.find, lookup]

/-- **The directories of a volume are a tree of listings.** -/
theorem fileTree (h : ForestOk s) (hnames : NamesUnique s) : Paths.Tree (entriesOf s) 0 where
  names p := by
    by_cases hp : p < s.sb.totalInodes
    · rw [entriesOf]
      split_ifs
      · cases hdir : s.getDirEntry p with
        | none => exact List.nodup_nil
        | some dir => exact (hnames p hp dir hdir).1
      · exact List.nodup_nil
    · rw [entriesOf_eq_nil (by rw [h.dirs.inv.table.spare p (by omega)]; decide)]
      exact List.nodup_nil
  nodup p := by
    rw [targets_entriesOf]
    exact h.forest.nodup p
  unique p q i := by
    rw [targets_entriesOf]
    exact h.forest.unique p q i
  root p hmem := by
    rw [targets_entriesOf] at hmem
    have hbelow := Below.entry hmem (mem_below_self (childrenOf s) 0)
    by_cases hp : p = 0
    · -- the root does not list itself
      subst hp
      exact h.forest.not_below hmem (mem_below_self _ _)
    · exact h.dirs.inv.zero_not_below hp hbelow

end Items

end MufaFs
