import SysProg.MufaFs.Ownership
import SysProg.MufaFs.Tree

/-!
# Removing a directory with all that is in it

`rm` goes through the listing of a directory as it was at the start, and each recursive call reads
that directory again, and writes it again without an entry.

* `Keeps`: an inode keeps its blocks and the bytes in them;
* `Removal`: what is below an inode has lost its blocks, the directory has lost the entry, and nothing
  else has changed;
* `rmInode_removes`, `rmInode_completes`: so it is whenever `rm` completes, and `rm` completes
  if the listings below the inode can be read;
* `rm_removes_iff`: the two together, for a name in the current directory.
-/

namespace MufaFs

open ByteFile FirstFit Instance Relation Listings

/-! ### Inodes that are left alone -/

/-- Inode `g` keeps its blocks, and the blocks keep their bytes. -/
structure Keeps (s t : Instance) (g : ℕ) : Prop where
  dataBlocks : (t.inodes g).dataBlocks = (s.inodes g).dataBlocks
  bytes : ∀ b, (s.inodes g).Holds b → ∀ k < s.sb.blockSize,
    t.drive.byte (s.sb.blockAddr b + k) = s.drive.byte (s.sb.blockAddr b + k)

section Keeps

variable {s t u : Instance} {g i p : ℕ}

theorem Inv.self_eq_self (hs : Inv s) (ht : Inv t) (hsb : t.sb = s.sb) (g : ℕ) :
    (t.inodes g).self = (s.inodes g).self := by
  by_cases hg : g < s.sb.totalInodes
  · rw [hs.table.self_ite hg, ht.table.self_ite (hsb ▸ hg)]
  · rw [hs.table.spare g (by omega), ht.table.spare g (by rw [hsb]; omega)]

theorem Keeps.holds (h : Keeps s t g) (hs : Inv s) (ht : Inv t) (hsb : t.sb = s.sb) (b : ℕ) :
    (t.inodes g).Holds b ↔ (s.inodes g).Holds b := by
  rw [Inode.Holds, Inode.Holds, hs.self_eq_self ht hsb, h.dataBlocks]

theorem Keeps.refl (s : Instance) (g : ℕ) : Keeps s s g := ⟨rfl, fun _ _ _ _ => rfl⟩

theorem Keeps.trans (h : Keeps s t g) (h' : Keeps t u g) (hs : Inv s) (ht : Inv t)
    (hsb : t.sb = s.sb) : Keeps s u g where
  dataBlocks := h'.dataBlocks.trans h.dataBlocks
  bytes b hb k hk := by
    have hlater := h'.bytes b ((h.holds hs ht hsb b).2 hb) k (hsb ▸ hk)
    rw [hsb] at hlater
    exact hlater.trans (h.bytes b hb k hk)

/-- The listing is kept. -/
theorem Keeps.getDirEntry (h : Keeps s t g) (hs : Inv s) (ht : Inv t) (hsb : t.sb = s.sb) :
    t.getDirEntry g = s.getDirEntry g := by
  refine getDirEntry_congr hsb (hs.self_eq_self ht hsb g) h.dataBlocks fun j hj => ?_
  have hheld := hs.owned.holds_of_listed hs.table hs.formatted hj
  have hcover := hs.owned.covered g _ hheld
  have hcover' := ht.owned.covered g _ ((h.holds hs ht hsb _).2 hheld)
  rw [hsb] at hcover'
  rw [File.fread_of_le _ _ _ hcover, File.fread_of_le _ _ _ hcover']
  exact File.slice_congr fun k hk => h.bytes _ hheld k hk

theorem Inv.keeps_written (h : Inv s) (hi : i < s.sb.totalInodes) (hg : g ≠ i) (data : List Byte) :
    Keeps s (written s i data) g :=
  ⟨by rw [written_inodes_of_ne hg], fun _ hb _ hk => h.written_byte_of_holds hi hg hb hk⟩

theorem keeps_purged (hg : g ≠ i) : Keeps s (purged s i) g :=
  ⟨by rw [purged_inodes_of_ne hg], fun _ _ _ _ => rfl⟩

/-- An inode of the same type with the same listing has the same children. -/
theorem childrenOf_congr (htype : (t.inodes p).type = (s.inodes p).type)
    (hlisting : t.getDirEntry p = s.getDirEntry p) : childrenOf t p = childrenOf s p := by
  rw [childrenOf, childrenOf, htype, hlisting]

theorem childrenOf_eq (htype : (s.inodes p).type = 2) {dir : List Entry}
    (hdir : s.getDirEntry p = some dir) : childrenOf s p = dir.map Prod.snd := by
  rw [childrenOf, if_pos htype, hdir, Option.getD_some]

theorem mem_childrenOf (htype : (s.inodes p).type = 2) {dir : List Entry} {v : Entry}
    (hdir : s.getDirEntry p = some dir) (hv : v ∈ dir) : v.2 ∈ childrenOf s p := by
  rw [childrenOf_eq htype hdir]
  exact List.mem_map_of_mem hv

theorem childrenOf_eq_nil (htype : (s.inodes p).type ≠ 2) : childrenOf s p = [] := if_neg htype

/-- What is listed less has fewer children. -/
theorem Trims.childrenOf_sublist (h : Trims s t) (p : ℕ) :
    (childrenOf t p).Sublist (childrenOf s p) :=
  MufaFs.childrenOf_sublist (h.type p) (h.listing p)

/-- An inode that holds a block has room for one. -/
theorem OwnedOk.room_pos (h : OwnedOk s) (hf : Formatted s.sb) {b : ℕ}
    (hb : (s.inodes p).Holds b) : 0 < room s p := by
  have hfree : release (s.inodes p) s.dataBitmap b = false := by
    rw [← Bool.not_eq_true, release_eq_true]
    exact fun h => h.2 hb
  have hlt := h.lt_of_holds hf hb
  exact List.length_pos_of_mem (mem_free.2 ⟨⟨Nat.zero_le b, by omega⟩, hfree⟩)

/-- A directory that lists something holds a block. -/
theorem Inv.holds_of_getDirEntry (h : Inv s) {dir : List Entry} (hdir : s.getDirEntry p = some dir)
    (hne : dir ≠ []) : ∃ b, (s.inodes p).Holds b := by
  by_cases hlisted : ∃ j, Listed (s.inodes p) j
  · obtain ⟨j, hj⟩ := hlisted
    exact ⟨_, h.owned.holds_of_listed h.table h.formatted hj⟩
  · refine absurd ?_ hne
    have hall : ∀ js, s.gatherEntries (s.inodes p) js = some [] := by
      intro js
      induction js with
      | nil => rfl
      | cons j js ih =>
        rw [gatherEntries, ih, blockEntries_of_not_listed fun hj => hlisted ⟨j, hj⟩]
        rfl
    exact (Option.some.inj ((hall _).symm.trans hdir)).symm

end Keeps

/-! ### One call -/

/-- The directories below an inode can be read. -/
def Readable (s : Instance) (i : ℕ) : Prop :=
  ∀ g ∈ Below (childrenOf s) i, (s.inodes g).type = 2 → ∃ dir, s.getDirEntry g = some dir

/-- The inodes in `S` have lost their blocks, directory `p` lists `dir`, and nobody else has changed. -/
structure Removal (s : Instance) (p : ℕ) (S : Set ℕ) (dir : List Entry) (t : Instance) : Prop where
  inv : Inv t
  trims : Trims s t
  listing : t.getDirEntry p = some dir
  emptied : ∀ g ∈ S, ∀ j, (t.inodes g).dataBlocks j = 0
  kept : ∀ g, g ∉ S → g ≠ p → Keeps s t g

section Spec

variable {s t : Instance} {p i : ℕ} {dir : List Entry}

/-- What is below an inode that was left alone is the same as before. -/
theorem below_of_kept (hs : Inv s) (ht : Inv t) (htrim : Trims s t)
    (hkept : ∀ g ∈ Below (childrenOf s) i, Keeps s t g) :
    Below (childrenOf t) i = Below (childrenOf s) i :=
  below_congr fun g hg => childrenOf_congr (htrim.type g) ((hkept g hg).getDirEntry hs ht htrim.sb)

theorem Readable.of_kept (hs : Inv s) (ht : Inv t) (htrim : Trims s t)
    (hkept : ∀ g ∈ Below (childrenOf s) i, Keeps s t g) : Readable t i ↔ Readable s i := by
  rw [Readable, Readable, below_of_kept hs ht htrim hkept]
  refine forall₂_congr fun g hg => ?_
  rw [htrim.type, (hkept g hg).getDirEntry hs ht htrim.sb]

/-- The last part of a call: the inode loses its blocks, and its directory the entry. -/
theorem Inv.removal_unlink {S : Set ℕ} {v w : Instance} (h : Inv s) (hp : p < s.sb.totalInodes)
    (h0 : i ≠ 0) (hi : i < s.sb.totalInodes) (hpi : p ≠ i) (hpS : p ∉ S) (hiS : i ∈ S)
    (hdir : s.getDirEntry p = some dir) (hmem : i ∈ dir.map Prod.snd) (hv : Inv v)
    (htrim : Trims s v) (hemptied : ∀ g ∈ S, g ≠ i → ∀ j, (v.inodes g).dataBlocks j = 0)
    (hkept : ∀ g, g ∉ S → Keeps s v g) {k : ℕ}
    (hk : dir.findIdx? (fun e => decide (e.2 = i)) = some k)
    (hw : (purged v i).writeFile p (encodeDir (dir.eraseIdx k)) = some w) :
    Removal s p S (dir.eraseP fun e => decide (e.2 = i)) w := by
  have hpurged := hv.purge h0 (htrim.sb ▸ hi)
  have htrim' := h.trims_unlink hp h0 hi hdir hv htrim ⟨k, _, hv.purgeFileContents_eq i, hw⟩
  obtain ⟨hlen, rfl⟩ := hpurged.writeFile_eq_some hw
  have hp' : p < (purged v i).sb.totalInodes := htrim.sb ▸ hp
  have hgood := (h.listings p hp dir hdir).of_sublist (List.eraseIdx_sublist dir k)
  have hgood' : GoodDir (purged v i).sb (dir.eraseIdx k) := by
    have hsb : (purged v i).sb = s.sb := htrim.sb
    rwa [hsb]
  have herase : dir.eraseIdx k = dir.eraseP fun e => decide (e.2 = i) := by
    rw [List.eraseP_eq_eraseIdx, hk]
  have hw := hpurged.write hp' hlen (.dir hgood')
  refine ⟨hw, htrim', ?_, fun g hg j => ?_, fun g hg hgp => ?_⟩
  · -- the directory has lost nothing but the entry, and one block holds it
    have hkeep : Keeps s (purged v i) p :=
      (hkept p hpS).trans (keeps_purged hpi) h hv htrim.sb
    have hne : dir ≠ [] := fun e => by simp [e] at hmem
    obtain ⟨b, hb⟩ := h.holds_of_getDirEntry hdir hne
    have hroom := hpurged.owned.room_pos hpurged.formatted
      ((hkeep.holds h hpurged htrim.sb b).2 hb)
    rw [hpurged.getDirEntry_written hp' hlen, blocksOf_length_one hpurged.formatted.blockSize_pos
      hgood'.short.le hroom, parseChunks_encodeDir hgood'.entryOk hgood'.short, herase]
  · have hgp : g ≠ p := fun e => hpS (e ▸ hg)
    rw [written_inodes_of_ne hgp]
    by_cases hgi : g = i
    · rw [hgi, purged_inodes_self]
    · rw [purged_inodes_of_ne hgi]
      exact hemptied g hg hgi j
  · have hgi : g ≠ i := fun e => hg (e ▸ hiS)
    exact ((hkept g hg).trans (keeps_purged hgi) h hv htrim.sb).trans
      (hpurged.keeps_written hp' hgp _) h hpurged htrim.sb

/-- What the loop of `rm` does with one entry. -/
def rmEntry (fuel : ℕ) (i : ℕ) (s : Instance) (v : Entry) : Option Instance := do
  let c ← s.deref v.2
  let (_, s) ← rmInode fuel s i c
  some s

theorem rmListed_eq (fuel : ℕ) (htype : (s.inodes i).type = 2) {sub : List Entry}
    (hsub : s.getDirEntry i = some sub) : rmListed fuel s i = sub.foldlM (rmEntry fuel i) s := by
  rw [rmListed, if_pos htype, hsub]
  rfl

theorem rmEntry_eq_some {fuel : ℕ} {v : Entry} (ht : rmEntry fuel i s v = some t) :
    v.2 < s.sb.inodesSize ∧ ∃ b, rmInode fuel s i v.2 = some (b, t) := by
  obtain ⟨c, hc, ht⟩ := Option.bind_eq_some_iff.1 ht
  obtain ⟨rfl, hlt⟩ := deref_eq_some hc
  obtain ⟨⟨b, u⟩, hrm, ht⟩ := Option.bind_eq_some_iff.1 ht
  cases Option.some.inj ht
  exact ⟨hlt, b, hrm⟩

/-- What a call with some fuel does, when it completes. -/
def Removes (fuel : ℕ) : Prop :=
  ∀ {s t : Instance} {p i : ℕ} {dir : List Entry} {b : Bool}, Inv s → Forest (childrenOf s) →
    p < s.sb.totalInodes → (s.inodes p).type = 2 → s.getDirEntry p = some dir →
    i ∈ dir.map Prod.snd → i ≠ 0 → i < s.sb.totalInodes → rmInode fuel s p i = some (b, t) →
    Removal s p (Below (childrenOf s) i) (dir.eraseP fun e => decide (e.2 = i)) t ∧ Readable s i

/-- What is below some entries. -/
def BelowAny (s : Instance) (entries : List Entry) : Set ℕ :=
  {g | ∃ v ∈ entries, g ∈ Below (childrenOf s) v.2}

/-- The other entries of a directory have other inodes. -/
theorem ne_of_entries (hforest : Forest (childrenOf s)) (htype : (s.inodes i).type = 2)
    {entries : List Entry} {v w : Entry} (hdir : s.getDirEntry i = some (v :: entries))
    (hw : w ∈ entries) : w.2 ≠ v.2 := fun e => by
  have hnodup := hforest.nodup i
  rw [childrenOf_eq htype hdir, List.map_cons, List.nodup_cons] at hnodup
  exact hnodup.1 (e ▸ List.mem_map_of_mem hw)

/-- Once the first entry is removed, what is below the other entries is as before. -/
theorem Removal.kept_entries {entries dir' : List Entry} {v w : Entry} {g : ℕ}
    (hr : Removal s i (Below (childrenOf s) v.2) dir' t) (hforest : Forest (childrenOf s))
    (htype : (s.inodes i).type = 2) (hdir : s.getDirEntry i = some (v :: entries))
    (hw : w ∈ entries) (hg : g ∈ Below (childrenOf s) w.2) : Keeps s t g := by
  have hwi := mem_childrenOf htype hdir (List.mem_cons_of_mem _ hw)
  refine hr.kept g (fun hgv => ne_of_entries hforest htype hdir hw ?_)
    fun e => hforest.not_below hwi (e ▸ hg)
  exact hforest.disjoint hwi (mem_childrenOf htype hdir List.mem_cons_self) hg hgv

/-- **The loop of `rm`**: the entries are removed one after another, each of them the first one that
is left in the directory. -/
theorem Removes.loop {fuel : ℕ} (hspec : Removes fuel) {entries : List Entry} (h : Inv s)
    (hforest : Forest (childrenOf s)) (hi : i < s.sb.totalInodes) (htype : (s.inodes i).type = 2)
    (hdir : s.getDirEntry i = some entries) (ht : entries.foldlM (rmEntry fuel i) s = some t) :
    Removal s i (BelowAny s entries) [] t ∧ ∀ v ∈ entries, Readable s v.2 := by
  induction entries generalizing s with
  | nil =>
    cases Option.some.inj ht
    exact ⟨⟨h, .refl _, hdir, fun g hg => absurd hg (by simp [BelowAny]), fun g _ _ => .refl _ g⟩,
      by simp⟩
  | cons v entries ih =>
    obtain ⟨u, hv, ht⟩ := Option.bind_eq_some_iff.1 ht
    obtain ⟨hlt, b, hrm⟩ := rmEntry_eq_some hv
    have hgood := h.listings i hi _ hdir
    obtain ⟨hv0, hvlt⟩ := (hgood.indexOk v List.mem_cons_self).of_lt h.formatted hlt
    have hlisted := fun w hw => mem_childrenOf (v := w) htype hdir hw
    obtain ⟨hr, hread⟩ := hspec h hforest hi htype hdir (by simp) hv0 hvlt hrm
    have hrest : u.getDirEntry i = some entries := by
      rw [hr.listing, List.eraseP_cons_of_pos (by simp)]
    have hu := hr.inv
    have hsb := hr.trims.sb
    have hne := fun w hw => ne_of_entries (w := w) hforest htype hdir hw
    have hkept := fun w hw g hg => hr.kept_entries (w := w) (g := g) hforest htype hdir hw hg
    obtain ⟨hr', hread'⟩ := ih hu (hforest.trim hr.trims.childrenOf_sublist) (hsb ▸ hi)
      ((hr.trims.type i).trans htype) hrest ht
    have hbelow : BelowAny u entries = BelowAny s entries := by
      ext g
      refine exists_congr fun w => and_congr_right fun hw => ?_
      rw [below_of_kept h hu hr.trims (hkept w hw)]
    rw [hbelow] at hr'
    refine ⟨⟨hr'.inv, hr.trims.trans hr'.trims, hr'.listing, ?_, fun g hg hgi => ?_⟩, ?_⟩
    · rintro g ⟨w, hw, hg⟩ j
      rcases List.mem_cons.1 hw with rfl | hw
      · -- emptied by the first call, and left alone by the others
        have hnot : g ∉ BelowAny s entries := fun ⟨w', hw', hg'⟩ =>
          hne w' hw' (hforest.disjoint (hlisted w' (List.mem_cons_of_mem _ hw'))
            (hlisted w List.mem_cons_self) hg' hg)
        have hgi : g ≠ i := fun e => hforest.not_below (hlisted w List.mem_cons_self) (e ▸ hg)
        rw [(hr'.kept g hnot hgi).dataBlocks]
        exact hr.emptied g hg j
      · exact hr'.emptied g ⟨w, hw, hg⟩ j
    · have hgv : g ∉ Below (childrenOf s) v.2 := fun hgv => hg ⟨v, List.mem_cons_self, hgv⟩
      have hgrest : g ∉ BelowAny s entries := fun ⟨w, hw, hg'⟩ =>
        hg ⟨w, List.mem_cons_of_mem _ hw, hg'⟩
      exact (hr.kept g hgv hgi).trans (hr'.kept g hgrest hgi) h hu hsb
    · intro w hw
      rcases List.mem_cons.1 hw with rfl | hw
      · exact hread
      · exact (Readable.of_kept h hu hr.trims (hkept w hw)).1 (hread' w hw)

/-- What is below an inode, apart from itself, is what is below its entries. -/
theorem below_of_entries (htype : (s.inodes i).type = 2) (hdir : s.getDirEntry i = some dir) (g : ℕ) :
    g ∈ Below (childrenOf s) i ↔ g = i ∨ g ∈ BelowAny s dir := by
  rw [mem_below_iff, childrenOf_eq htype hdir]
  refine or_congr_right ⟨?_, ?_⟩
  · rintro ⟨c, hc, hg⟩
    obtain ⟨v, hv, rfl⟩ := List.mem_map.1 hc
    exact ⟨v, hv, hg⟩
  · rintro ⟨v, hv, hg⟩
    exact ⟨v.2, List.mem_map_of_mem hv, hg⟩

/-- What `rm` does before it comes to the inode itself. -/
theorem Removes.listed {fuel : ℕ} (hspec : Removes fuel) (h : Inv s)
    (hforest : Forest (childrenOf s)) (hi : i < s.sb.totalInodes)
    (ht : rmListed fuel s i = some t) :
    Inv t ∧ Trims s t ∧ (∀ g ∈ Below (childrenOf s) i, g ≠ i → ∀ j, (t.inodes g).dataBlocks j = 0) ∧
      (∀ g, g ∉ Below (childrenOf s) i → Keeps s t g) ∧ Readable s i := by
  by_cases htype : (s.inodes i).type = 2
  · obtain ⟨sub, hsub⟩ : ∃ sub, s.getDirEntry i = some sub := by
      rw [rmListed, if_pos htype] at ht
      obtain ⟨sub, hsub, -⟩ := Option.bind_eq_some_iff.1 ht
      exact ⟨sub, hsub⟩
    rw [rmListed_eq fuel htype hsub] at ht
    have hbelow := below_of_entries htype hsub
    obtain ⟨hr, hread⟩ := hspec.loop h hforest hi htype hsub ht
    refine ⟨hr.inv, hr.trims, fun g hg hgi => hr.emptied g (((hbelow g).1 hg).resolve_left hgi),
      fun g hg => ?_, fun g hg hg2 => ?_⟩
    · rw [hbelow, not_or] at hg
      exact hr.kept g hg.2 hg.1
    · rcases (hbelow g).1 hg with rfl | ⟨v, hv, hg⟩
      · exact ⟨sub, hsub⟩
      · exact hread v hv g hg hg2
  · rw [rmListed, if_neg htype] at ht
    cases Option.some.inj ht
    have hbelow : ∀ g ∈ Below (childrenOf s) i, g = i := fun g hg => by
      rw [mem_below_iff, childrenOf_eq_nil htype] at hg
      simpa using hg
    exact ⟨h, .refl s, fun g hg hgi => absurd (hbelow g hg) hgi, fun g _ => .refl s g,
      fun g hg hg2 => absurd (hbelow g hg ▸ hg2) htype⟩

/-- **What `rm` does**, whenever it completes: all inodes below lose their blocks, the directory loses
the entry, and nothing else changes. -/
theorem rmInode_removes (fuel : ℕ) : Removes fuel := by
  induction fuel with
  | zero =>
    intro s t p i dir b _ _ _ _ _ _ _ _ ht
    exact absurd ht (by simp [rmInode])
  | succ fuel ih =>
    intro s t p i dir b h hforest hp htype hdir hmem h0 hi ht
    have hself := h.table.self_eq i h0 hi
    have hlisted : i ∈ childrenOf s p := by rwa [childrenOf_eq htype hdir]
    obtain ⟨dir', hdir', hcase⟩ := rmInode_eq_some ht
    cases hdir.symm.trans hdir'
    rw [hself] at hcase
    rcases hcase with ⟨hnone, -⟩ | ⟨k, s₁, s₂, hk, hsub, hpurge, hwrite⟩
    · obtain ⟨v, hv, rfl⟩ := List.mem_map.1 hmem
      rw [List.findIdx?_eq_none_iff] at hnone
      exact absurd (hnone v hv) (by simp)
    · obtain ⟨hs₁, htrim, hemptied, hkept, hread⟩ := ih.listed h hforest hi hsub
      rw [hs₁.purgeFileContents_eq] at hpurge
      cases hpurge
      have hpS := hforest.not_below hlisted
      have hpi : p ≠ i := fun e => hpS (e ▸ mem_below_self _ _)
      exact ⟨h.removal_unlink hp h0 hi hpi hpS (mem_below_self _ i) hdir hmem hs₁ htrim hemptied
        hkept hk hwrite, hread⟩

end Spec

/-! ### Completion -/

section Completes

variable {s s₁ s₂ t : Instance} {p i : ℕ} {dir : List Entry}

/-- A call from its parts. -/
theorem rmInode_of_parts {fuel k : ℕ} (hdir : s.getDirEntry p = some dir)
    (hk : dir.findIdx? (·.2 = (s.inodes i).self) = some k) (hsub : rmListed fuel s i = some s₁)
    (hpurge : s₁.purgeFileContents i = some s₂)
    (hwrite : s₂.writeFile p (encodeDir (dir.eraseIdx k)) = some t) :
    rmInode (fuel + 1) s p i = some (true, t) := by
  have hbody : rmInode (fuel + 1) s p i = (rmListed fuel s i).bind fun s₁ =>
      (s₁.purgeFileContents i).bind fun s₂ =>
        (s₂.writeFile p (encodeDir (dir.eraseIdx k))).bind fun t => some (true, t) := by
    rw [rmInode, hdir]
    simp only [Option.bind_eq_bind, Option.bind_some, hk]
    rfl
  rw [hbody, hsub, Option.bind_some, hpurge, Option.bind_some, hwrite, Option.bind_some]

/-- Whatever is listed is an inode. -/
def ListsInodes (s : Instance) : Prop := ∀ p, ∀ i ∈ childrenOf s p, i < s.sb.totalInodes

theorem ListsInodes.trim (h : ListsInodes s) (htrim : Trims s t) : ListsInodes t :=
  fun p i hi => by
    rw [htrim.sb]
    exact h p i ((htrim.childrenOf_sublist p).subset hi)

/-- A call completes if its fuel is above the rank of the inode. -/
def Completes (fuel : ℕ) : Prop :=
  ∀ {s : Instance} {p i : ℕ} {dir : List Entry} {rank : ℕ → ℕ}, Inv s → Forest (childrenOf s) →
    Descends (childrenOf s) rank → ListsInodes s → p < s.sb.totalInodes → (s.inodes p).type = 2 →
    s.getDirEntry p = some dir → i ∈ dir.map Prod.snd → rank i < fuel → Readable s i →
    ∃ b t, rmInode fuel s p i = some (b, t)

/-- An entry that is an inode is not the root. -/
theorem Inv.ne_zero_of_listed (h : Inv s) (hp : p < s.sb.totalInodes)
    (hdir : s.getDirEntry p = some dir) (hmem : i ∈ dir.map Prod.snd) (hi : i < s.sb.totalInodes) :
    i ≠ 0 := by
  obtain ⟨v, hv, rfl⟩ := List.mem_map.1 hmem
  have hsize := h.formatted.inodesSize
  exact (((h.listings p hp dir hdir).indexOk v hv).of_lt h.formatted (by omega)).1

/-- The root is below nothing but itself. -/
theorem Inv.zero_not_below (h : Inv s) (h0 : i ≠ 0) : 0 ∉ Below (childrenOf s) i := by
  intro hmem
  rcases ReflTransGen.cases_tail hmem with hi | ⟨q, -, hq⟩
  · exact h0 hi.symm
  · have hq2 : (s.inodes q).type = 2 := by
      by_contra hne
      exact absurd (childrenOf_eq_nil hne ▸ hq) List.not_mem_nil
    by_cases hlt : q < s.sb.totalInodes
    · cases hdir : s.getDirEntry q with
      | none => simp [childrenOf, hdir] at hq
      | some dir =>
        rw [childrenOf_eq hq2 hdir] at hq
        exact h.ne_zero_of_listed hlt hdir hq (by have := h.formatted.totalInodes; omega) rfl
    · rw [h.table.spare q (by omega)] at hq2
      exact absurd hq2 (by decide)

theorem Completes.loop {fuel : ℕ} (hspec : Completes fuel) {entries : List Entry} {rank : ℕ → ℕ}
    (h : Inv s) (hforest : Forest (childrenOf s)) (hrank : Descends (childrenOf s) rank)
    (hlists : ListsInodes s) (hi : i < s.sb.totalInodes) (htype : (s.inodes i).type = 2)
    (hdir : s.getDirEntry i = some entries) (hfuel : ∀ v ∈ entries, rank v.2 < fuel)
    (hread : ∀ v ∈ entries, Readable s v.2) : ∃ t, entries.foldlM (rmEntry fuel i) s = some t := by
  induction entries generalizing s with
  | nil => exact ⟨s, rfl⟩
  | cons v entries ih =>
    have hmem : v.2 ∈ (v :: entries).map Prod.snd := by simp
    have hvlt := hlists i v.2 (mem_childrenOf htype hdir List.mem_cons_self)
    have hv0 := h.ne_zero_of_listed hi hdir hmem hvlt
    obtain ⟨b, u, hrm⟩ := hspec h hforest hrank hlists hi htype hdir hmem
      (hfuel v List.mem_cons_self) (hread v List.mem_cons_self)
    obtain ⟨hr, -⟩ := rmInode_removes fuel h hforest hi htype hdir hmem hv0 hvlt hrm
    have hstep : rmEntry fuel i s v = some u := by
      rw [rmEntry, deref_of_lt (by have := h.formatted.inodesSize; omega)]
      simp only [Option.bind_eq_bind, Option.bind_some, hrm]
    have hrest : u.getDirEntry i = some entries := by
      rw [hr.listing, List.eraseP_cons_of_pos (by simp)]
    obtain ⟨t, ht⟩ := ih hr.inv (hforest.trim hr.trims.childrenOf_sublist)
      (hrank.of_sublist hr.trims.childrenOf_sublist) (hlists.trim hr.trims) (hr.trims.sb ▸ hi)
      ((hr.trims.type i).trans htype) hrest (fun w hw => hfuel w (List.mem_cons_of_mem _ hw))
      -- the other entries can still be read
      fun w hw => (Readable.of_kept h hr.inv hr.trims fun g hg =>
        hr.kept_entries hforest htype hdir hw hg).2 (hread w (List.mem_cons_of_mem _ hw))
    exact ⟨t, by rw [List.foldlM_cons, hstep, Option.bind_eq_bind, Option.bind_some, ht]⟩

/-- **`rm` completes** if the directories below the inode can be read. -/
theorem rmInode_completes (fuel : ℕ) : Completes fuel := by
  induction fuel with
  | zero =>
    intro s p i dir rank _ _ _ _ _ _ _ _ hfuel
    exact absurd hfuel (Nat.not_lt_zero _)
  | succ fuel ih =>
    intro s p i dir rank h hforest hrank hlists hp htype hdir hmem hfuel hread
    have hi : i < s.sb.totalInodes := hlists p i (by rwa [childrenOf_eq htype hdir])
    have h0 := h.ne_zero_of_listed hp hdir hmem hi
    -- the recursive calls
    obtain ⟨s₁, hsub⟩ : ∃ s₁, rmListed fuel s i = some s₁ := by
      by_cases h2 : (s.inodes i).type = 2
      · obtain ⟨sub, hsub⟩ := hread i (mem_below_self _ _) h2
        have hentry := fun v hv => mem_childrenOf (v := v) h2 hsub hv
        rw [rmListed_eq fuel h2 hsub]
        refine ih.loop h hforest hrank hlists hi h2 hsub (fun v hv => ?_) fun v hv g hg hg2 =>
          hread g (Below.entry (hentry v hv) hg) hg2
        exact (hrank i v.2 (hentry v hv)).trans_le (Nat.lt_succ_iff.1 hfuel)
      · exact ⟨s, by rw [rmListed, if_neg h2]⟩
    obtain ⟨hs₁, htrim, -⟩ := Removes.listed (rmInode_removes fuel) h hforest hi hsub
    have hpurged := hs₁.purge h0 (htrim.sb ▸ hi)
    obtain ⟨k, hk⟩ : ∃ k, dir.findIdx? (·.2 = (s.inodes i).self) = some k := by
      obtain ⟨v, hv, rfl⟩ := List.mem_map.1 hmem
      rw [h.table.self_eq _ h0 hi, ← Option.isSome_iff_exists, List.findIdx?_isSome, List.any_eq_true]
      exact ⟨v, hv, by simp⟩
    have hshort := ((h.listings p hp dir hdir).of_sublist (List.eraseIdx_sublist dir k)).short
    have hsb : (purged s₁ i).sb = s.sb := htrim.sb
    exact ⟨true, _, rmInode_of_parts hdir hk hsub (hs₁.purgeFileContents_eq i)
      (hpurged.writeFile_of_length (by rw [hsb]; omega))⟩

end Completes

/-! ### Sessions -/

/-- The invariant: what directories list is a forest of inodes in use. -/
structure ForestOk (s : Instance) : Prop where
  dirs : DirsOk s
  forest : Forest (childrenOf s)
  lists : ListsInodes s
  populated : Populated s

section Session

variable {s t : Instance} {c : Cmd} {i : ℕ} {name : List Byte} {size : ℕ} {next : UInt16} {img : File}

theorem ForestOk.of_listings (h : ForestOk s) (ht : DirsOk t) (hsb : t.sb = s.sb)
    (htype : ∀ k, (t.inodes k).type = (s.inodes k).type)
    (hlisting : ∀ p dir', t.getDirEntry p = some dir' →
      dir' = [] ∨ ∃ dir, s.getDirEntry p = some dir ∧ dir'.Sublist dir) : ForestOk t where
  dirs := ht
  forest := h.forest.trim fun p => childrenOf_sublist (htype p) (hlisting p)
  lists p i hi := by
    rw [hsb]
    exact h.lists p i ((childrenOf_sublist (htype p) (hlisting p)).subset hi)
  populated := h.populated.of_listings htype hlisting

theorem ForestOk.of_adds (h : ForestOk s) (ht : DirsOk t) (ha : Adds s c i t) : ForestOk t where
  dirs := ht
  forest := h.forest.add (h.populated.fresh ha)
    (h.populated.childrenOf_new ha (ha.ne_cwd h.dirs.cwd)) (childrenOf_cwd ha h.dirs.cwd)
    fun q hq => h.populated.childrenOf_other ha h.dirs.cwd hq
  lists p k hk := by
    rw [ha.sb]
    rcases mem_of_insert (childrenOf_cwd ha h.dirs.cwd)
      (fun q hq => h.populated.childrenOf_other ha h.dirs.cwd hq) hk with ⟨rfl, -⟩ | hk
    · exact ha.free.lt
    · exact h.lists p k hk
  populated := h.populated.of_adds ha h.dirs.cwd

/-- **The step lemma.** -/
theorem ForestOk.exec (h : ForestOk s) (hc : SaneExec s c t) : ForestOk t := by
  have ht := h.dirs.exec hc
  obtain ⟨hc, hsane⟩ := hc
  have hinv := h.dirs.inv
  have hsb : t.sb = s.sb := hinv.star_sb (hinv.exec_star hc)
  by_cases hcd : ∃ name, c = .cd name
  · obtain ⟨name, rfl⟩ := hcd
    obtain ⟨hinodes, hsame⟩ := hinv.cd_same hc
    refine h.of_listings ht hsb (fun k => by rw [hinodes]) fun p dir' hdir' => ?_
    rw [hsame] at hdir'
    exact Or.inr ⟨dir', hdir', List.Sublist.refl _⟩
  · rw [not_exists] at hcd
    have hfree : Creates s c → HasFree s := by
      cases c with
      | cd name => exact absurd rfl (hcd name)
      | _ => exact hsane
    rcases hinv.exec_effect (by rw [h.dirs.cwd]; norm_num) hfree hcd hc with
      ⟨-, i, ha⟩ | ⟨-, htrim⟩
    · exact h.of_adds ht ha
    · exact h.of_listings ht hsb htrim.type htrim.listing

theorem ForestOk.of_image (himg : createDriveImage name size next = some img)
    (hmount : mount img = some s) : ForestOk s where
  dirs := DirsOk.of_image himg hmount
  forest := .of_empty (childrenOf_of_image himg hmount)
  lists p _ hi := absurd (childrenOf_of_image himg hmount p ▸ hi) List.not_mem_nil
  populated := .of_image himg hmount

end Session

/-! ### `rm` of a name -/

/-- What `rm` of a name that lists `i` leaves: the listing without the first entry of the name, no
blocks below `i`, and everything else as it was. -/
structure Removed (s : Instance) (name : List Byte) (dir : List Entry) (i : ℕ) (t : Instance) :
    Prop where
  listing : t.getDirEntry s.cwdNode = some (dir.eraseP fun e => decide (e.1 = name))
  emptied : ∀ g ∈ Below (childrenOf s) i, ∀ j, (t.inodes g).dataBlocks j = 0
  freed : ∀ g ∈ Below (childrenOf s) i, ∀ b, (s.inodes g).Holds b →
    t.dataBitmap b = false ∨ (t.inodes s.cwdNode).Holds b
  kept : ∀ g, g ∉ Below (childrenOf s) i → g ≠ s.cwdNode → Keeps s t g

/-- `rm` of the name completes, and removes what is below `i`. -/
def RemovesBelow (s : Instance) (name : Arg) (dir : List Entry) (i : ℕ) : Prop :=
  (∃ t, Exec s (.rm name) t) ∧ ∀ t, Exec s (.rm name) t → Removed s name.1 dir i t

section Names

variable {s t : Instance} {name : Arg} {dir : List Entry} {v : Entry}

/-- The first entry with the inode of a name is the first entry of the name. -/
theorem eraseP_of_lookup {name : List Byte} (hnodup : (dir.map Prod.snd).Nodup)
    (hv : lookup dir name = some v) : (dir.eraseP fun e => decide (e.2 = v.2)) =
      dir.eraseP fun e => decide (e.1 = name) := by
  induction dir with
  | nil => rfl
  | cons w dir ih =>
    obtain ⟨hw, hnodup⟩ := List.nodup_cons.1 hnodup
    by_cases hname : w.1 = name
    · obtain rfl : w = v := by simpa [lookup, hname] using hv
      rw [List.eraseP_cons_of_pos (by simp), List.eraseP_cons_of_pos (by simpa using hname)]
    · have hv : lookup dir name = some v := by simpa [lookup, hname] using hv
      have hne : w.2 ≠ v.2 := fun e => hw (e ▸ List.mem_map_of_mem (mem_of_lookup hv))
      rw [List.eraseP_cons_of_neg (by simpa using hne), List.eraseP_cons_of_neg (by simpa using hname),
        ih hnodup hv]

theorem exec_rm_of_rmInode {fuel : ℕ} {b : Bool} (hdir : s.getDirEntry s.cwdNode = some dir)
    (hv : lookup dir name.1 = some v) (hlt : v.2 < s.sb.inodesSize)
    (ht : rmInode fuel s s.cwdNode v.2 = some (b, t)) : Exec s (.rm name) t := by
  refine ⟨fuel, ?_⟩
  rw [builtInFunc, rm, hdir]
  simp only [Option.bind_eq_bind, Option.bind_some, hv, deref_of_lt hlt, ht]

/-- `rm` of a listed name is `rmInode`. -/
theorem Inv.rm_listed (h : Inv s) (hdir : s.getDirEntry s.cwdNode = some dir)
    (hv : lookup dir name.1 = some v) (hc : Exec s (.rm name) t) :
    v.2 ≠ 0 ∧ v.2 < s.sb.totalInodes ∧ ∃ fuel b, rmInode fuel s s.cwdNode v.2 = some (b, t) := by
  cases h.outcome hc with
  | rmNothing hdir' hnone =>
    cases hdir.symm.trans hdir'
    exact absurd (hv.symm.trans hnone) (by simp)
  | rm hdir' hv' h0 hlt hrm =>
    cases hdir.symm.trans hdir'
    cases hv.symm.trans hv'
    exact ⟨h0, hlt, _, _, hrm⟩

variable (h : ForestOk s) (hdir : s.getDirEntry s.cwdNode = some dir)
  (hv : lookup dir name.1 = some v)
include h hdir hv

/-- What `rm` of a listed name does, whenever it completes. -/
theorem ForestOk.removed (hc : Exec s (.rm name) t) :
    Removed s name.1 dir v.2 t ∧ Readable s v.2 := by
  have hinv := h.dirs.inv
  have hmem := List.mem_map_of_mem (f := Prod.snd) (mem_of_lookup hv)
  obtain ⟨h0, hlt, fuel, b, hrm⟩ := hinv.rm_listed hdir hv hc
  obtain ⟨hr, hread⟩ := rmInode_removes _ hinv h.forest hinv.cwd_lt h.dirs.cwd hdir hmem h0 hlt hrm
  have hnodup : (dir.map Prod.snd).Nodup := by
    rw [← childrenOf_eq h.dirs.cwd hdir]
    exact h.forest.nodup _
  refine ⟨⟨?_, hr.emptied, fun g hg b hb => ?_, hr.kept⟩, hread⟩
  · rw [hr.listing, eraseP_of_lookup hnodup hv]
  · -- whoever holds the block now has not held it before, unless it was left alone
    by_contra hnot
    rw [not_or, Bool.not_eq_false] at hnot
    obtain ⟨k, hk⟩ := (hr.inv.owned.partitioned.used_iff b).1 hnot.1
    have hkcwd : k ≠ s.cwdNode := fun e => hnot.2 (e ▸ hk)
    by_cases hkS : k ∈ Below (childrenOf s) v.2
    · obtain ⟨hroot, -⟩ | ⟨hb0, j, hj⟩ := hk
      · obtain rfl := (hr.inv.table.self_eq_rootSelf_iff hr.inv.formatted).1 hroot
        exact hinv.zero_not_below h0 hkS
      · exact hb0 (hj.symm.trans (hr.emptied k hkS j))
    · have hks := ((hr.kept k hkS hkcwd).holds hinv hr.inv hr.trims.sb b).1 hk
      exact hkS (hinv.owned.partitioned.holder_unique k g b hks hb ▸ hg)

theorem ForestOk.removesBelow_iff : RemovesBelow s name dir v.2 ↔ Readable s v.2 := by
  have hinv := h.dirs.inv
  constructor
  · rintro ⟨⟨t, hc⟩, -⟩
    exact (h.removed hdir hv hc).2
  · intro hread
    refine ⟨?_, fun t hc => (h.removed hdir hv hc).1⟩
    obtain ⟨rank, hrank⟩ := h.forest.descends
    have hmem := List.mem_map_of_mem (f := Prod.snd) (mem_of_lookup hv)
    have hlt := h.lists _ _ (mem_childrenOf h.dirs.cwd hdir (mem_of_lookup hv))
    have hsize := hinv.formatted.inodesSize
    obtain ⟨b, t, ht⟩ := rmInode_completes (rank v.2 + 1) hinv h.forest hrank h.lists hinv.cwd_lt
      h.dirs.cwd hdir hmem (Nat.lt_succ_self _) hread
    exact ⟨t, exec_rm_of_rmInode hdir hv (by omega) ht⟩

end Names

/-- Where a survey is right, every directory can be read. -/
theorem Surveyed.readable {s : Instance} {k : Survey} (h : Surveyed s k) (i : ℕ) : Readable s i :=
  fun g _ hg => ⟨_, h.dir g ((h.type g).symm.trans hg)⟩

/-- **Recursive removal**, for every state of a session on a new image whose commands are all sane, and
for every listed name: `rm` completes, the listing loses the first entry of the name, the inodes below
lose their blocks, and nothing else changes, exactly if the directories below can be read. -/
theorem rm_removes_iff {volume : List Byte} {size : ℕ} {next : UInt16} {img : File}
    {s₀ s : Instance} {cs : List Cmd} (himg : createDriveImage volume size next = some img)
    (hmount : mount img = some s₀) (hrun : Runs.Run SaneExec s₀ cs s) {name : Arg}
    {dir : List Entry} {v : Entry} (hdir : s.getDirEntry s.cwdNode = some dir)
    (hv : lookup dir name.1 = some v) : RemovesBelow s name dir v.2 ↔ Readable s v.2 := by
  have hforest : ForestOk s :=
    hrun.invariant (fun _ _ _ hs hc => hs.exec hc) (ForestOk.of_image himg hmount)
  exact hforest.removesBelow_iff hdir hv

section Small

/-- The directory `a` is removed, with the files in it. -/
theorem rm_removes_sample : ∃ s, Runs.Run SaneExec smallVolume sampleSession s ∧
    s.getDirEntry 9 = some [(argB.1, 8), (argC.1, 7)] ∧ RemovesBelow s argA [(argA.1, 9)] 9 := by
  obtain ⟨s, hrun, hs⟩ := sampleSession_sane
  have hdir : s.getDirEntry s.cwdNode = some [(argA.1, 9)] := hs.getDirEntry_cwd
  exact ⟨s, hrun, hs.dir 9 rfl, (rm_removes_iff smallVolume_created smallVolume_mounted hrun hdir
    (v := (argA.1, 9)) rfl).2 (hs.readable 9)⟩

theorem touchedVolume_forestOk : ForestOk touchedVolume :=
  touchedVolume_run.invariant (fun _ _ _ hs hc => hs.exec hc)
    (ForestOk.of_image smallVolume_created smallVolume_mounted)

/-- A file has nothing below it. -/
theorem Readable.of_file {s : Instance} {i : ℕ} (htype : (s.inodes i).type ≠ 2) : Readable s i := by
  intro g hg hg2
  rw [mem_below_iff, childrenOf_eq_nil htype] at hg
  obtain rfl : g = i := by simpa using hg
  exact absurd hg2 htype

theorem touchedVolume_readable : Readable touchedVolume 9 :=
  .of_file (by rw [touchedVolume_inodes]; decide)

/-- A name of 253 characters: with it the entry of inode `8` fills a block. -/
def argLong : Arg := ⟨List.replicate 253 98, by decide⟩

theorem madeVolume_getDirEntry : madeVolume.getDirEntry 0 = some [(argA.1, 9)] := by
  have hself := smallVolume_self
  have h := smallVolume_inv.getDirEntry_created_of_short 2 0 0 argA.1
    smallVolume_largestFree.lt (by decide) (by decide)
    (Or.inl (by rw [smallVolume_totalInodes]; decide)) (by rw [smallVolume_totalInodes]; decide)
    smallVolume_getDirEntry (by decide) (by rw [smallVolume_room]; decide)
    (by rw [hself, smallVolume_blockSize, List.nil_append, entryA_length]; decide)
  rw [hself, List.nil_append] at h
  rw [madeVolume, getDirEntry_pushSorted, h]

theorem madeVolume_inodes : madeVolume.inodes 9 =
    { Inode.zero with type := 2, parent := 0, self := 9 } := by
  show (written (claimed smallVolume 9 2 0) 0 (encodeDir [(argA.1, 9)])).inodes 9 = _
  rw [written_inodes_of_ne (by decide), claimed_inodes_self,
    smallVolume_inodes (by decide) (by decide)]

theorem madeVolume_inv : Inv madeVolume := smallVolume_inv.exec madeVolume_exec

/-- The smallest volume after `mkdir a` and `cd a`. -/
def insideVolume : Instance := { madeVolume with cwdNode := 9, cwd := [] }

theorem madeVolume_inodesSize : madeVolume.sb.inodesSize = 2560 := by
  have htotal : madeVolume.sb.totalInodes = 10 := smallVolume_totalInodes
  rw [madeVolume_inv.formatted.inodesSize, htotal]

/-- The new directory is empty. -/
theorem madeVolume_getDirEntry_of_dir : madeVolume.getDirEntry 9 = some [] :=
  madeVolume_inv.table.getDirEntry_of_no_blocks madeVolume_inv.formatted (by decide)
    fun j => by rw [madeVolume_inodes]; rfl

theorem insideVolume_exec : Exec madeVolume (.cd argA) insideVolume :=
  exec_cd (v := (argA.1, 9)) (by decide) madeVolume_getDirEntry rfl
    (by rw [madeVolume_inodesSize]; decide) (by rw [madeVolume_inodes]) madeVolume_getDirEntry_of_dir

theorem insideVolume_inv : Inv insideVolume := madeVolume_inv.exec insideVolume_exec

theorem insideVolume_getDirEntry (p : ℕ) :
    insideVolume.getDirEntry p = madeVolume.getDirEntry p := getDirEntry_shell 9 [] _ p

theorem insideVolume_largestFree : LargestFree insideVolume 8 where
  lt := by
    have : insideVolume.sb.totalInodes = 10 := smallVolume_totalInodes
    omega
  free := by
    show (madeVolume.inodes 8).type = 0
    rw [madeVolume, pushSorted_inodes, created_type_of_ne (by decide),
      smallVolume_inodes (by decide) (by decide)]
    rfl
  le k hk hk0 := by
    have : insideVolume.sb.totalInodes = 10 := smallVolume_totalInodes
    have h9 : k ≠ 9 := by
      rintro rfl
      rw [show insideVolume.inodes 9 = madeVolume.inodes 9 from rfl, madeVolume_inodes] at hk0
      exact two_ne_zero hk0
    omega

/-- Then after `touch` with the long name. -/
def filledVolume : Instance := created insideVolume 8 1 9 9 (encodeDir [(argLong.1, 8)])

theorem argLong_length : (encodeDir [(argLong.1, 8)]).length = 256 := by
  have hdec : (CString.decimal 8).length = 1 := by decide
  have hname : argLong.1.length = 253 := List.length_replicate
  rw [encodeDir_singleton, encodeEntry, List.length_append, List.length_cons, List.length_append, hdec,
    hname]
  rfl

theorem filledVolume_exec : Exec insideVolume (.touch argLong) filledVolume := by
  have hself := insideVolume_inv.table.self_eq 8 (by decide) insideVolume_largestFree.lt
  have hself9 := insideVolume_inv.table.self_eq 9 (by decide) insideVolume_inv.cwd_lt
  have hdir := (insideVolume_getDirEntry 9).trans madeVolume_getDirEntry_of_dir
  have hbs := insideVolume_inv.formatted.blockSize
  have h := insideVolume_inv.touch_of_free 9 argLong.1 insideVolume_inv.cwd_lt
    insideVolume_largestFree hdir
    (by rw [hself, hbs, List.nil_append, argLong_length]; decide)
  rw [hself, hself9, List.nil_append] at h
  have hcwd : insideVolume.cwdNode = 9 := rfl
  exact ⟨0, by rw [builtInFunc, hcwd, h, Option.map_some]; rfl⟩

theorem filledVolume_inv : Inv filledVolume := insideVolume_inv.exec filledVolume_exec

theorem insideVolume_content : Content insideVolume.sb (encodeDir [(argLong.1, 8)]) := by
  have hself := insideVolume_inv.table.self_eq 8 (by decide) insideVolume_largestFree.lt
  have hindex := insideVolume_inv.table.indexOk insideVolume_largestFree.lt
  rw [hself] at hindex
  exact Content.insert (GoodDir.nil insideVolume_inv.formatted.blockSize_pos) argLong.2 hindex

theorem filledVolume_blocks :
    (blocksOf (claimed insideVolume 8 1 9) 9 (encodeDir [(argLong.1, 8)])).length = 1 := by
  have hbs : (claimed insideVolume 8 1 9).sb.blockSize = 256 := insideVolume_inv.formatted.blockSize
  refine blocksOf_length_one (by rw [hbs]; decide) (by rw [argLong_length, hbs]) ?_
  rw [room_claimed]
  exact Nat.lt_of_lt_of_le (by decide) (room_small 2 0)

/-- The listing fills its block, and the scan runs past the end. -/
theorem filledVolume_getDirEntry : filledVolume.getDirEntry 9 = none := by
  have hinv := insideVolume_inv
  have hcwd : (9 : ℕ) < insideVolume.sb.totalInodes := hinv.cwd_lt
  have hentry : ∀ v ∈ [(argLong.1, 8)], EntryOk v := by
    intro v hv
    rw [List.mem_singleton.1 hv]
    exact ⟨by decide, by decide, by decide⟩
  rw [filledVolume, hinv.getDirEntry_created insideVolume_largestFree.lt one_ne_zero one_le_two
    (Or.inl hcwd) hcwd (by rw [filledVolume_blocks]; decide) insideVolume_content,
    filledVolume_blocks]
  exact parseChunks_encodeDir_full hentry (by rw [argLong_length]; exact hinv.formatted.blockSize.le)

theorem filledVolume_getDirEntry_root : filledVolume.getDirEntry 0 = some [(argA.1, 9)] := by
  have hinv := insideVolume_inv
  have hcwd : (9 : ℕ) < insideVolume.sb.totalInodes := hinv.cwd_lt
  rw [filledVolume, hinv.getDirEntry_created_of_ne insideVolume_largestFree.lt one_ne_zero one_le_two
    (Or.inl hcwd) hcwd (by rw [filledVolume_blocks]; decide) insideVolume_content (by decide),
    insideVolume_getDirEntry, madeVolume_getDirEntry]

theorem filledVolume_type : (filledVolume.inodes 9).type = 2 := by
  rw [filledVolume, created_type_of_ne (by decide)]
  exact congrArg Inode.type madeVolume_inodes

theorem filledVolume_parent : (filledVolume.inodes 9).parent = 0 := by
  rw [filledVolume, created_parent_of_ne (by decide)]
  exact congrArg Inode.parent madeVolume_inodes

/-- Then after `cd ..`. -/
def hiddenVolume : Instance := { filledVolume with cwdNode := 0, cwd := [(argA.1, 9)] }

theorem hiddenVolume_exec : Exec filledVolume (.cd argDots) hiddenVolume := by
  have hparent : (filledVolume.inodes filledVolume.cwdNode).parent = 0 := filledVolume_parent
  have hdots : argDots.1 = ascii ".." := rfl
  have h := exec_cd_parent (s := filledVolume) hdots
    (by rw [hparent, filledVolume_inv.formatted.inodesSize]
        exact Nat.mul_pos (by decide) (Nat.zero_lt_of_lt filledVolume_inv.cwd_lt))
    (by rw [hparent]; exact filledVolume_getDirEntry_root)
  rw [hparent] at h
  exact h

theorem hiddenVolume_run : Runs.Run SaneExec smallVolume
    [.mkdir argA, .cd argA, .touch argLong, .cd argDots] hiddenVolume := by
  have hcd : Sane madeVolume (.cd argA) := by
    have hdots : argA.1 ≠ ascii ".." := by decide
    simp only [Sane, if_neg hdots]
    intro dir v hdir hv
    cases madeVolume_getDirEntry.symm.trans hdir
    obtain rfl : (argA.1, 9) = v := by simpa [lookup] using hv
    exact congrArg Inode.type madeVolume_inodes
  have hdots : Sane filledVolume (.cd argDots) := by
    have hne : filledVolume.cwdNode ≠ 0 := show 9 ≠ 0 by decide
    have heq : argDots.1 = ascii ".." := rfl
    simpa only [Sane, if_pos heq] using hne
  exact .cons ⟨madeVolume_exec, fun _ => smallVolume_largestFree.hasFree⟩
    (.cons ⟨insideVolume_exec, hcd⟩
    (.cons ⟨filledVolume_exec, fun _ => insideVolume_largestFree.hasFree⟩
    (.cons ⟨hiddenVolume_exec, hdots⟩ (.nil _))))

theorem hiddenVolume_getDirEntry (p : ℕ) : hiddenVolume.getDirEntry p = filledVolume.getDirEntry p :=
  getDirEntry_shell 0 [(argA.1, 9)] _ p

/-- After `mkdir a`, `cd a`, `touch` with the long name and `cd ..`, the name `a` is listed, and `rm a`
does not complete. -/
theorem rm_unreadable : ∃ s, Runs.Run SaneExec smallVolume
      [.mkdir argA, .cd argA, .touch argLong, .cd argDots] s ∧
    s.getDirEntry s.cwdNode = some [(argA.1, 9)] ∧ (¬∃ t, Exec s (.rm argA) t) ∧
    ¬RemovesBelow s argA [(argA.1, 9)] 9 := by
  have hforest : ForestOk hiddenVolume :=
    hiddenVolume_run.invariant (fun _ _ _ hs hc => hs.exec hc)
      (ForestOk.of_image smallVolume_created smallVolume_mounted)
  have hdir : hiddenVolume.getDirEntry hiddenVolume.cwdNode = some [(argA.1, 9)] :=
    (hiddenVolume_getDirEntry 0).trans filledVolume_getDirEntry_root
  have hnone : ¬∃ t, Exec hiddenVolume (.rm argA) t := by
    rintro ⟨t, ht⟩
    have hread := (hforest.removed hdir (v := (argA.1, 9)) rfl ht).2
    obtain ⟨dir, hdir9⟩ := hread 9 (mem_below_self _ _) filledVolume_type
    rw [hiddenVolume_getDirEntry, filledVolume_getDirEntry] at hdir9
    exact absurd hdir9 (by simp)
  exact ⟨hiddenVolume, hiddenVolume_run, hdir, hnone, fun h => hnone h.1⟩

end Small

end MufaFs
