import SysProg.MufaFs.Exhaustion

/-!
# What commands do to types, parents and listings

The view of a command that looks at nothing but the types and the parents of the inodes and at what
directories list.

* `Adds`: one new inode is listed in the current directory; `Trims`: nothing new is listed;
* `Inv.exec_effect`: a command other than `cd` adds an inode or trims listings;
* `Inv.exec_cd`: `cd` enters what it is given, also after it has reported that it is no directory.
-/

namespace MufaFs

open ByteFile FirstFit Instance Relation

/-- Types, parents and the current node are kept, and nothing new is listed. -/
structure Trims (s t : Instance) : Prop where
  sb : t.sb = s.sb
  cwdNode : t.cwdNode = s.cwdNode
  type : ∀ k, (t.inodes k).type = (s.inodes k).type
  parent : ∀ k, (t.inodes k).parent = (s.inodes k).parent
  listing : ∀ p dir', t.getDirEntry p = some dir' →
    dir' = [] ∨ ∃ dir, s.getDirEntry p = some dir ∧ dir'.Sublist dir

/-- The type that a command gives to the inode it makes. -/
def Cmd.newType : Cmd → ℕ
  | .mkdir _ => 2
  | _ => 1

/-- The parent that a command gives to the inode it makes: `touch` takes over the `self` field of the
directory as it is. -/
def Cmd.newParent (s : Instance) : Cmd → ℕ
  | .mkdir _ => s.cwdNode
  | _ => (s.inodes s.cwdNode).self

/-- The largest unoccupied inode `i` is given a type and a parent, and listed in the current
directory. -/
structure Adds (s : Instance) (c : Cmd) (i : ℕ) (t : Instance) : Prop where
  sb : t.sb = s.sb
  cwdNode : t.cwdNode = s.cwdNode
  free : LargestFree s i
  type : (t.inodes i).type = c.newType
  parent : (t.inodes i).parent = c.newParent s
  type_of_ne : ∀ k, k ≠ i → (t.inodes k).type = (s.inodes k).type
  parent_of_ne : ∀ k, k ≠ i → (t.inodes k).parent = (s.inodes k).parent
  listing : ∀ dir', t.getDirEntry s.cwdNode = some dir' →
    ∃ dir, s.getDirEntry s.cwdNode = some dir ∧ dir' <+: dir ++ [(c.name, i)]
  other : ∀ p, p ≠ s.cwdNode → ∀ dir', t.getDirEntry p = some dir' →
    dir' = [] ∨ s.getDirEntry p = some dir'

section Trims

variable {s t u : Instance} {i p : ℕ} {data : List Byte} {dir : List Entry}

theorem Trims.refl (s : Instance) : Trims s s :=
  ⟨rfl, rfl, fun _ => rfl, fun _ => rfl, fun _ dir' h => Or.inr ⟨dir', h, List.Sublist.refl _⟩⟩

theorem Trims.report (d : Diagnostic) : Trims s (s.report d) := by
  refine ⟨rfl, rfl, fun _ => rfl, fun _ => rfl, fun p dir' h => Or.inr ⟨dir', ?_, .refl _⟩⟩
  rwa [getDirEntry_report] at h

theorem Trims.trans (h : Trims s t) (h' : Trims t u) : Trims s u where
  sb := h'.sb.trans h.sb
  cwdNode := h'.cwdNode.trans h.cwdNode
  type k := (h'.type k).trans (h.type k)
  parent k := (h'.parent k).trans (h.parent k)
  listing p dir'' hdir'' := by
    rcases h'.listing p dir'' hdir'' with rfl | ⟨dir', hdir', hsub'⟩
    · exact Or.inl rfl
    · rcases h.listing p dir' hdir' with rfl | ⟨dir, hdir, hsub⟩
      · exact Or.inl (List.sublist_nil.1 hsub')
      · exact Or.inr ⟨dir, hdir, hsub'.trans hsub⟩

theorem purged_parent (k : ℕ) : ((purged s i).inodes k).parent = (s.inodes k).parent := by
  by_cases hk : k = i
  · subst hk; rw [purged_inodes_self]
  · rw [purged_inodes_of_ne hk]

/-- Writing the content of a file lists nothing. -/
theorem Inv.trims_raw (h : Inv s) (hi : i < s.sb.totalInodes) (hdata : IsArg data)
    (hlen : (blocksOf s i data).length ≤ 10) : Trims s (written s i data) where
  sb := rfl
  cwdNode := rfl
  type := written_type
  parent := written_parent
  listing p dir' hdir' := by
    by_cases hp : p = i
    · subst hp
      rw [h.getDirEntry_written hi hlen] at hdir'
      rcases parseChunks_raw s.sb.blockSize (blocksOf s p data).length hdata with hraw | hraw
      · exact absurd (hraw.symm.trans hdir') (by simp)
      · exact Or.inl (Option.some.inj (hdir'.symm.trans hraw))
    · rw [h.getDirEntry_written_of_ne hi hp] at hdir'
      exact Or.inr ⟨dir', hdir', List.Sublist.refl _⟩

/-- Unlinking an inode takes entries out of two listings. -/
theorem Inv.trims_unlink {v w : Instance} (h : Inv u) (hp : p < u.sb.totalInodes) (h0 : i ≠ 0)
    (hi : i < u.sb.totalInodes) (hdir : u.getDirEntry p = some dir) (hv : Inv v)
    (htrim : Trims u v) (hw : Unlinks v p i dir w) : Trims u w := by
  obtain ⟨k, s₂, hpurge, hwrite⟩ := hw
  rw [hv.purgeFileContents_eq] at hpurge
  cases hpurge
  have hpurged := hv.purge h0 (htrim.sb ▸ hi)
  obtain ⟨hlen, rfl⟩ := hpurged.writeFile_eq_some hwrite
  have hp' : p < (purged v i).sb.totalInodes := htrim.sb ▸ hp
  have hgood := h.listings p hp dir hdir
  have hsub := List.eraseIdx_sublist dir k
  refine ⟨htrim.sb, htrim.cwdNode, fun k => ?_, fun k => ?_, fun q dir' hdir' => ?_⟩
  · rw [written_type, purged_type, htrim.type]
  · rw [written_parent, purged_parent, htrim.parent]
  · by_cases hqp : q = p
    · -- the directory is written without an entry
      subst hqp
      rw [hpurged.getDirEntry_written hp' hlen] at hdir'
      have hbs : (purged v i).sb.blockSize = u.sb.blockSize := congrArg SuperBlock.blockSize htrim.sb
      rw [hbs] at hdir'
      rcases parseChunks_encodeDir_of_some (hgood.of_sublist hsub).entryOk
        (hgood.of_sublist hsub).short hdir' with rfl | rfl
      · exact Or.inl rfl
      · exact Or.inr ⟨dir, hdir, hsub⟩
    · rw [hpurged.getDirEntry_written_of_ne hp' hqp] at hdir'
      by_cases hqi : q = i
      · -- the inode has no blocks any more
        subst hqi
        rw [hpurged.table.getDirEntry_of_no_blocks hpurged.formatted h0
          fun j => by rw [purged_inodes_self]] at hdir'
        exact Or.inl (Option.some.inj hdir').symm
      · rw [getDirEntry_purged_of_ne hqi] at hdir'
        exact htrim.listing q dir' hdir'

theorem Inv.trims_rmInode {fuel : ℕ} {b : Bool} (h : Inv s) (hp : p < s.sb.totalInodes)
    (h0 : i ≠ 0) (hi : i < s.sb.totalInodes) (ht : rmInode fuel s p i = some (b, t)) :
    Trims s t :=
  (Inv.rmInode_rel (R := fun u v => ReflTransGen Rewrite u v ∧ Trims u v)
    (fun u => ⟨.refl, .refl u⟩) (fun h h' => ⟨h.1.trans h'.1, h.2.trans h'.2⟩)
    (fun hu h => hu.rewrites_keep h.1)
    (fun hu hp h0 hi hdir h hw => ⟨hu.unlinks_rewrites hp h0 hi hdir h.1 hw,
      hu.trims_unlink hp h0 hi hdir (hu.rewrites_keep h.1).1 h.2 hw⟩) h hp h0 hi ht).2

end Trims

section Adds

variable {s t : Instance} {i : ℕ} {c : Cmd} {data : List Byte} {dir : List Entry}

/-- The state after a creation in the current directory. -/
theorem Inv.adds_created (h : Inv s) (hfree : LargestFree s i) (hi0 : i ≠ 0)
    (hname : IsArg c.name) (hdir : s.getDirEntry s.cwdNode = some dir) (h0 : c.newType ≠ 0)
    (h2 : c.newType ≤ 2) (hparent : SelfOk s.sb (c.newParent s))
    (hlen : (blocksOf (claimed s i c.newType (c.newParent s)) s.cwdNode
      (encodeDir (dir ++ [(c.name, (s.inodes i).self)]))).length ≤ 10) :
    Adds s c i (created s i c.newType (c.newParent s) s.cwdNode
      (encodeDir (dir ++ [(c.name, (s.inodes i).self)]))) := by
  refine ⟨rfl, rfl, hfree, created_type, created_parent, fun k hk => created_type_of_ne hk,
    fun k hk => created_parent_of_ne hk, fun dir' hdir' => ⟨dir, hdir, ?_⟩,
    fun p hp dir' hdir' => Or.inr ?_⟩
  · rcases h.listing_created hfree.lt h0 h2 hparent h.cwd_lt hname hdir hlen hdir' with
      ⟨-, hpre⟩ | ⟨hne, -⟩
    · rwa [h.table.self_eq i hi0 hfree.lt] at hpre
    · exact absurd rfl hne
  · rcases h.listing_created hfree.lt h0 h2 hparent h.cwd_lt hname hdir hlen hdir' with
      ⟨rfl, -⟩ | ⟨-, hsame⟩
    · exact absurd rfl hp
    · exact hsame

/-- The inode is put back into the queue. -/
theorem Adds.pushSorted (h : Adds s c i t) : Adds s c i (t.pushSorted i) := by
  refine ⟨h.sb, h.cwdNode, h.free, h.type, h.parent, h.type_of_ne, h.parent_of_ne,
    fun dir' hdir' => ?_, fun p hp dir' hdir' => ?_⟩
  · rw [getDirEntry_pushSorted] at hdir'
    exact h.listing dir' hdir'
  · rw [getDirEntry_pushSorted] at hdir'
    exact h.other p hp dir' hdir'

/-- The new file is written. -/
theorem Adds.written (h : Adds s c i t) (ht : Inv t) (hi : i ≠ s.cwdNode) (hdata : IsArg data)
    (hlen : (blocksOf t i data).length ≤ 10) : Adds s c i (written t i data) := by
  have hi' : i < t.sb.totalInodes := h.sb ▸ h.free.lt
  refine ⟨h.sb, h.cwdNode, h.free, ?_, ?_, fun k hk => ?_, fun k hk => ?_, fun dir' hdir' => ?_,
    fun p hp dir' hdir' => ?_⟩
  · rw [written_type, h.type]
  · rw [written_parent, h.parent]
  · rw [written_type, h.type_of_ne k hk]
  · rw [written_parent, h.parent_of_ne k hk]
  · rw [ht.getDirEntry_written_of_ne hi' hi.symm] at hdir'
    exact h.listing dir' hdir'
  · by_cases hpi : p = i
    · subst hpi
      rw [ht.getDirEntry_written hi' hlen] at hdir'
      rcases parseChunks_raw t.sb.blockSize (blocksOf t p data).length hdata with hraw | hraw
      · exact absurd (hraw.symm.trans hdir') (by simp)
      · exact Or.inl (Option.some.inj (hdir'.symm.trans hraw))
    · rw [ht.getDirEntry_written_of_ne hi' hpi] at hdir'
      exact h.other p hp dir' hdir'

theorem Inv.adds_touch (h : Inv s) (hfree : HasFree s) {name : List Byte} (hname : IsArg name)
    (hc : c.name = name ∧ c.newType = 1 ∧ c.newParent s = (s.inodes s.cwdNode).self)
    (ht : s.touch s.cwdNode name = some (i, t)) : Adds s c i t := by
  obtain ⟨s', dir, hfind, hdir, hlen, rfl⟩ := h.touch_eq h.cwd_lt ht
  obtain ⟨hlargest, hi0⟩ := h.largestFree_of_findInode hfree hfind
  obtain ⟨rfl, htype, hparent⟩ := hc
  rw [← htype, ← hparent] at hlen ⊢
  exact h.adds_created hlargest hi0 hname hdir (by rw [htype]; norm_num) (by rw [htype]; norm_num)
    (by rw [hparent]; exact h.table.selfOk h.cwd_lt) hlen

/-- **What a command other than `cd` does** to types, parents and listings: it adds one new inode, or
it adds nothing. -/
theorem Inv.exec_effect (h : Inv s) (hcwd : (s.inodes s.cwdNode).type ≠ 0)
    (hfree : Creates s c → HasFree s) (hcd : ∀ name, c ≠ .cd name) (hc : Exec s c t) :
    (Creates s c ∧ ∃ i, Adds s c i t) ∨ (¬Creates s c ∧ Trims s t) := by
  cases h.outcome hc with
  | @mkdir name _ hmkdir =>
    obtain ⟨i, s', dir, hfind, hdir, hlen, rfl⟩ := h.mkdir_eq h.cwd_lt hmkdir
    obtain ⟨hlargest, hi0⟩ := h.largestFree_of_findInode (hfree trivial) hfind
    exact Or.inl ⟨trivial, i, (h.adds_created (c := .mkdir name) hlargest hi0 name.2 hdir two_ne_zero
      le_rfl (Or.inl h.cwd_lt) hlen).pushSorted⟩
  | @touch name i _ htouch =>
    exact Or.inl ⟨trivial, i, h.adds_touch (hfree trivial) name.2 ⟨rfl, rfl, rfl⟩ htouch⟩
  | @create name data dir i s₁ _ hdir hnew htouch hwrite =>
    have hcreates : Creates s (.write name data) := ⟨dir, hdir, hnew⟩
    have hadds := h.adds_touch (c := .write name data) (hfree hcreates) name.2 ⟨rfl, rfl, rfl⟩
      htouch
    have hinv := h.star (h.touch_star h.cwd_lt name.2 htouch).1
    obtain ⟨hlen, rfl⟩ := hinv.writeFile_eq_some hwrite
    -- the new inode was unoccupied, so it is not the current directory
    refine Or.inl ⟨hcreates, i, hadds.written hinv (fun hi => hcwd ?_) data.2 hlen⟩
    rw [← hi]
    exact hadds.free.free
  | @write name data _ _ _ hdir hv _ hlt _ hwrite =>
    obtain ⟨hlen, rfl⟩ := h.writeFile_eq_some hwrite
    exact Or.inr ⟨not_creates_of_listed hdir hv, h.trims_raw hlt data.2 hlen⟩
  | refuse hdir hv => exact Or.inr ⟨not_creates_of_listed hdir hv, .report _⟩
  | rm _ _ h0 hlt hrm => exact Or.inr ⟨id, h.trims_rmInode h.cwd_lt h0 hlt hrm⟩
  | rmNothing => exact Or.inr ⟨id, .report _⟩
  | cdParent => exact absurd rfl (hcd _)
  | cd => exact absurd rfl (hcd _)
  | cdNothing => exact absurd rfl (hcd _)

end Adds

section Enter

variable {s t : Instance} {name : Arg}

/-- What `cd` does. -/
theorem Inv.exec_cd (h : Inv s) (hc : Exec s (.cd name) t) :
    (name.1 = ascii ".." ∧ (s.inodes s.cwdNode).parent < s.sb.totalInodes ∧
      ∃ cwd, t = { s with cwdNode := (s.inodes s.cwdNode).parent, cwd }) ∨
    name.1 ≠ ascii ".." ∧ ∃ dir, s.getDirEntry s.cwdNode = some dir ∧
      (lookup dir name.1 = none ∧ t = s.report (.directoryDoesNotExist name.1) ∨
        ∃ v cwd, lookup dir name.1 = some v ∧ v.2 < s.sb.totalInodes ∧
          ((s.inodes v.2).type = 2 ∧ t = { s with cwdNode := v.2, cwd } ∨
            (s.inodes v.2).type ≠ 2 ∧
              t = { s.report (.notADirectory name.1) with cwdNode := v.2, cwd })) := by
  cases h.outcome hc with
  | cdParent hdots hlt henter =>
    obtain ⟨cwd, -, rfl⟩ := cdNode_eq_some henter
    exact Or.inl ⟨hdots, hlt, cwd, rfl⟩
  | @cd _ dir v _ _ hdots hdir hv hlt hs₁ henter =>
    obtain ⟨cwd, -, rfl⟩ := cdNode_eq_some henter
    refine Or.inr ⟨hdots, dir, hdir, Or.inr ⟨v, cwd, hv, hlt, ?_⟩⟩
    rcases hs₁ with ⟨htype, rfl⟩ | ⟨htype, rfl⟩
    · exact Or.inl ⟨htype, rfl⟩
    · exact Or.inr ⟨htype, rfl⟩
  | cdNothing hdots hdir hnone => exact Or.inr ⟨hdots, _, hdir, Or.inl ⟨hnone, rfl⟩⟩

/-- `cd` leaves the inodes and the listings alone. -/
theorem Inv.cd_same (h : Inv s) (hc : Exec s (.cd name) t) :
    t.inodes = s.inodes ∧ ∀ p, t.getDirEntry p = s.getDirEntry p := by
  rcases h.exec_cd hc with ⟨-, -, cwd, rfl⟩ | ⟨-, dir, -, ⟨-, rfl⟩ |
    ⟨v, cwd, -, -, ⟨-, rfl⟩ | ⟨-, rfl⟩⟩⟩
  all_goals exact ⟨rfl, getDirEntry_shell _ _ _⟩

end Enter

section Listing

variable {s t : Instance} {i q : ℕ} {c : Cmd} {dir' : List Entry}

/-- What can be read after `touch`. -/
theorem Inv.listing_touch (h : Inv s) {name : List Byte} (hname : IsArg name)
    (ht : s.touch s.cwdNode name = some (i, t)) (hdir' : t.getDirEntry q = some dir') :
    s.getDirEntry q = some dir' ∨ q = s.cwdNode ∧ ∃ s' dir, s.findInode = some (i, s') ∧
      s.getDirEntry q = some dir ∧ dir' <+: dir ++ [(name, (s.inodes i).self)] := by
  obtain ⟨s', dir, hfind, hdir, hlen, rfl⟩ := h.touch_eq h.cwd_lt ht
  have hi := h.queue.lt i (findInode_eq_some hfind).1
  rcases h.listing_created hi one_ne_zero one_le_two (h.table.selfOk h.cwd_lt) h.cwd_lt hname hdir
    hlen hdir' with ⟨rfl, hpre⟩ | ⟨-, hsame⟩
  · exact Or.inr ⟨rfl, s', dir, hfind, hdir, hpre⟩
  · exact Or.inl hsame

/-- **What can be read after a command** could be read before, or it is the current directory with the
name of a new inode behind the others. -/
theorem Inv.exec_listing (h : Inv s) (hc : Exec s c t) (hdir' : t.getDirEntry q = some dir') :
    (dir' = [] ∨ ∃ dir, s.getDirEntry q = some dir ∧ dir'.Sublist dir) ∨
      q = s.cwdNode ∧ Creates s c ∧ ∃ i s' dir, s.findInode = some (i, s') ∧
        s.getDirEntry q = some dir ∧ dir'.Sublist (dir ++ [(c.name, (s.inodes i).self)]) := by
  have hkept : s.getDirEntry q = some dir' →
      (dir' = [] ∨ ∃ dir, s.getDirEntry q = some dir ∧ dir'.Sublist dir) :=
    fun hsame => Or.inr ⟨dir', hsame, List.Sublist.refl _⟩
  cases h.outcome hc with
  | @mkdir name _ hmkdir =>
    obtain ⟨i, s', dir, hfind, hdir, hlen, rfl⟩ := h.mkdir_eq h.cwd_lt hmkdir
    have hi := h.queue.lt i (findInode_eq_some hfind).1
    rw [getDirEntry_pushSorted] at hdir'
    rcases h.listing_created hi two_ne_zero le_rfl (Or.inl h.cwd_lt) h.cwd_lt name.2 hdir hlen
      hdir' with ⟨rfl, hpre⟩ | ⟨-, hsame⟩
    · exact Or.inr ⟨rfl, trivial, i, s', dir, hfind, hdir, hpre.sublist⟩
    · exact Or.inl (hkept hsame)
  | @touch name i _ htouch =>
    rcases h.listing_touch name.2 htouch hdir' with hsame | ⟨hq, s', dir, hfind, hdir, hpre⟩
    · exact Or.inl (hkept hsame)
    · exact Or.inr ⟨hq, trivial, i, s', dir, hfind, hdir, hpre.sublist⟩
  | @create name data dir i s₁ _ hdir hnew htouch hwrite =>
    obtain ⟨hstar, hi, hsb⟩ := h.touch_star h.cwd_lt name.2 htouch
    have hinv := h.star hstar
    obtain ⟨hlen, rfl⟩ := hinv.writeFile_eq_some hwrite
    -- the content of the new file lists nothing
    rcases (hinv.trims_raw (hsb ▸ hi) data.2 hlen).listing q dir' hdir' with
      rfl | ⟨dir₁, hdir₁, hsub⟩
    · exact Or.inl (Or.inl rfl)
    · rcases h.listing_touch name.2 htouch hdir₁ with
        hsame | ⟨hq, s', dir₀, hfind, hdir₀, hpre⟩
      · exact Or.inl (Or.inr ⟨dir₁, hsame, hsub⟩)
      · exact Or.inr ⟨hq, ⟨dir, hdir, hnew⟩, i, s', dir₀, hfind, hdir₀, hsub.trans hpre.sublist⟩
  | write _ _ _ hlt _ hwrite =>
    obtain ⟨hlen, rfl⟩ := h.writeFile_eq_some hwrite
    exact Or.inl ((h.trims_raw hlt (Subtype.prop _) hlen).listing q dir' hdir')
  | refuse => exact Or.inl ((Trims.report _).listing q dir' hdir')
  | rm _ _ h0 hlt hrm => exact Or.inl ((h.trims_rmInode h.cwd_lt h0 hlt hrm).listing q dir' hdir')
  | rmNothing => exact Or.inl ((Trims.report _).listing q dir' hdir')
  | cdParent => exact Or.inl (hkept ((h.cd_same hc).2 q ▸ hdir'))
  | cd => exact Or.inl (hkept ((h.cd_same hc).2 q ▸ hdir'))
  | cdNothing => exact Or.inl (hkept ((h.cd_same hc).2 q ▸ hdir'))

end Listing

end MufaFs
