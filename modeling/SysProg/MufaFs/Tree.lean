import SysProg.Lib.Listings
import SysProg.MufaFs.CurrentDirectory

/-!
# The tree of directories

`mkdir` records the index of the directory as the parent of the new one, and `0` for the root.
`touch`, and `write` of a new name, copy the `self` field of the directory, which is `ROOT_SELF` in
the root.

* `TreeOk`: what directories list is a tree, whose edges agree with the `parent` fields;
* `session_tree`: so it is in every session that makes no file in the root;
* `touched_not_tree`: a file in the root.
-/

namespace MufaFs

open ByteFile FirstFit Instance Relation Listings

/-- The indices that a directory lists; a listing that cannot be read counts as empty. -/
def childrenOf (s : Instance) (p : ℕ) : List ℕ :=
  if (s.inodes p).type = 2 then ((s.getDirEntry p).getD []).map Prod.snd else []

/-- The inode is listed by one entry of one directory, and its `parent` field is the index of that
directory. -/
def ListedOnce (s : Instance) (i : ℕ) : Prop :=
  ∃ p, (childrenOf s p).count i = 1 ∧ (∀ q, i ∈ childrenOf s q → q = p) ∧ (s.inodes i).parent = p

/-- Whatever the listings lead to from the root, other than the root, is listed once, and there is no
cycle. -/
def TreeWellFormed (s : Instance) : Prop :=
  ∀ i, Reach (childrenOf s) 0 i →
    (i ≠ 0 → ListedOnce s i) ∧ ¬TransGen (fun p k => k ∈ childrenOf s p) i i

/-- What makes an inode finds an unoccupied one, and no file is made in the root. -/
def Placed (s : Instance) : Cmd → Prop
  | .mkdir _ => HasFree s
  | c => Creates s c → HasFree s ∧ s.cwdNode ≠ 0

/-- A command that completes, given in a directory, under the condition `Placed`. -/
def PlacedExec (s : Instance) (c : Cmd) (t : Instance) : Prop :=
  Exec s c t ∧ (s.inodes s.cwdNode).type = 2 ∧ Placed s c

/-- The invariant. -/
structure TreeOk (s : Instance) : Prop where
  inv : Inv s
  tree : Arborescence (childrenOf s) (fun i => (s.inodes i).parent) 0
  occupied : ∀ p, ∀ i ∈ childrenOf s p, (s.inodes i).type ≠ 0
  free_empty : ∀ p, (s.inodes p).type = 0 → ∀ dir, s.getDirEntry p = some dir → dir = []

section Tree

variable {s t : Instance} {c : Cmd} {i p : ℕ}

theorem TreeOk.wellFormed (h : TreeOk s) : TreeWellFormed s := by
  intro i hi
  refine ⟨fun hne => ?_, h.tree.acyclic hi⟩
  obtain ⟨hcount, hunique⟩ := h.tree.listed_once hi hne
  exact ⟨_, hcount, hunique, rfl⟩

/-- What is listed less than before, under the same type, has fewer children. -/
theorem childrenOf_sublist (htype : (t.inodes p).type = (s.inodes p).type)
    (hlisting : ∀ dir', t.getDirEntry p = some dir' →
      dir' = [] ∨ ∃ dir, s.getDirEntry p = some dir ∧ dir'.Sublist dir) :
    (childrenOf t p).Sublist (childrenOf s p) := by
  unfold childrenOf
  rw [htype]
  split_ifs
  · cases ht : t.getDirEntry p with
    | none => exact List.nil_sublist _
    | some dir' =>
      rcases hlisting dir' ht with rfl | ⟨dir, hdir, hsub⟩
      · exact List.nil_sublist _
      · rw [hdir]
        exact hsub.map _
  · exact List.Sublist.refl _

/-- Whatever is listed is in use, and what is not in use lists nothing. -/
structure Populated (s : Instance) : Prop where
  occupied : ∀ p, ∀ i ∈ childrenOf s p, (s.inodes i).type ≠ 0
  free_empty : ∀ p, (s.inodes p).type = 0 → ∀ dir, s.getDirEntry p = some dir → dir = []

theorem Populated.of_listings (h : Populated s) (htype : ∀ k, (t.inodes k).type = (s.inodes k).type)
    (hlisting : ∀ p dir', t.getDirEntry p = some dir' →
      dir' = [] ∨ ∃ dir, s.getDirEntry p = some dir ∧ dir'.Sublist dir) : Populated t where
  occupied p i hi := by
    rw [htype]
    exact h.occupied p i ((childrenOf_sublist (htype p) (hlisting p)).subset hi)
  free_empty p hp dir' hdir' := by
    rw [htype] at hp
    rcases hlisting p dir' hdir' with rfl | ⟨dir, hdir, hsub⟩
    · rfl
    · rw [h.free_empty p hp dir hdir] at hsub
      exact List.sublist_nil.1 hsub

/-- A new inode was listed nowhere. -/
theorem Populated.fresh (h : Populated s) (ha : Adds s c i t) (q : ℕ) : i ∉ childrenOf s q :=
  fun hq => h.occupied q i hq ha.free.free

/-- A new inode lists nothing. -/
theorem Populated.childrenOf_new (h : Populated s) (ha : Adds s c i t) (hi : i ≠ s.cwdNode) :
    childrenOf t i = [] := by
  unfold childrenOf
  split_ifs
  · cases ht : t.getDirEntry i with
    | none => rfl
    | some dir' =>
      rcases ha.other i hi dir' ht with rfl | hdir
      · rfl
      · rw [h.free_empty i ha.free.free dir' hdir]
        rfl
  · rfl

/-- The current directory lists the new inode behind the others, at most. -/
theorem childrenOf_cwd (ha : Adds s c i t) (hcwd : (s.inodes s.cwdNode).type = 2) :
    (childrenOf t s.cwdNode).Sublist (childrenOf s s.cwdNode ++ [i]) := by
  unfold childrenOf
  rw [if_pos hcwd]
  split_ifs
  · cases ht : t.getDirEntry s.cwdNode with
    | none => exact List.nil_sublist _
    | some dir' =>
      obtain ⟨dir, hdir, hpre⟩ := ha.listing dir' ht
      rw [hdir]
      simpa using hpre.sublist.map Prod.snd
  · exact List.nil_sublist _

theorem Adds.ne_cwd (ha : Adds s c i t) (hcwd : (s.inodes s.cwdNode).type = 2) : i ≠ s.cwdNode := by
  rintro rfl
  exact absurd hcwd (by rw [ha.free.free]; norm_num)

/-- The other directories list nothing new. -/
theorem Populated.childrenOf_other (h : Populated s) (ha : Adds s c i t)
    (hcwd : (s.inodes s.cwdNode).type = 2) {q : ℕ} (hq : q ≠ s.cwdNode) :
    (childrenOf t q).Sublist (childrenOf s q) := by
  by_cases hqi : q = i
  · rw [hqi, h.childrenOf_new ha (ha.ne_cwd hcwd)]
    exact List.nil_sublist _
  · refine childrenOf_sublist (ha.type_of_ne q hqi) fun dir' hdir' => ?_
    rcases ha.other q hq dir' hdir' with rfl | hdir
    · exact Or.inl rfl
    · exact Or.inr ⟨dir', hdir, List.Sublist.refl _⟩

theorem Populated.of_adds (h : Populated s) (ha : Adds s c i t)
    (hcwd : (s.inodes s.cwdNode).type = 2) : Populated t := by
  have hnew : (t.inodes i).type ≠ 0 := by
    rw [ha.type]
    cases c <;> simp [Cmd.newType]
  refine ⟨fun q k hk => ?_, fun q hq dir' hdir' => ?_⟩
  · by_cases hki : k = i
    · rwa [hki]
    · rw [ha.type_of_ne k hki]
      rcases mem_of_insert (childrenOf_cwd ha hcwd) (fun q hq => h.childrenOf_other ha hcwd hq) hk with
        ⟨hki', -⟩ | hk
      · exact absurd hki' hki
      · exact h.occupied q k hk
  · by_cases hqi : q = i
    · exact absurd (hqi ▸ hq) hnew
    · rw [ha.type_of_ne q hqi] at hq
      have hqcwd : q ≠ s.cwdNode := by
        rintro rfl
        exact absurd hq (by rw [hcwd]; norm_num)
      rcases ha.other q hqcwd dir' hdir' with rfl | hdir
      · rfl
      · exact h.free_empty q hq dir' hdir

theorem TreeOk.populated (h : TreeOk s) : Populated s := ⟨h.occupied, h.free_empty⟩

/-- Types and parents are kept, and nothing new is listed. -/
theorem TreeOk.of_listings (h : TreeOk s) (ht : Inv t)
    (htype : ∀ k, (t.inodes k).type = (s.inodes k).type)
    (hparent : ∀ k, (t.inodes k).parent = (s.inodes k).parent)
    (hlisting : ∀ p dir', t.getDirEntry p = some dir' →
      dir' = [] ∨ ∃ dir, s.getDirEntry p = some dir ∧ dir'.Sublist dir) : TreeOk t := by
  have hpop := h.populated.of_listings htype hlisting
  exact ⟨ht, h.tree.trim (fun p => childrenOf_sublist (htype p) (hlisting p)) hparent,
    hpop.occupied, hpop.free_empty⟩

theorem TreeOk.of_adds (h : TreeOk s) (ht : Inv t) (ha : Adds s c i t)
    (hcwd : (s.inodes s.cwdNode).type = 2) (hparent : c.newParent s = s.cwdNode) : TreeOk t := by
  have hpop := h.populated.of_adds ha hcwd
  have htree := h.tree.add (h.populated.fresh ha)
    (fun h0 => h.inv.table.root_occupied (h0 ▸ ha.free.free)) (ha.parent.trans hparent)
    ha.parent_of_ne (childrenOf_cwd ha hcwd) fun q hq => h.populated.childrenOf_other ha hcwd hq
  exact ⟨ht, htree, hpop.occupied, hpop.free_empty⟩

/-- **The step lemma.** -/
theorem TreeOk.exec (h : TreeOk s) (hc : PlacedExec s c t) : TreeOk t := by
  obtain ⟨hc, hcwd, hplaced⟩ := hc
  have ht := h.inv.exec hc
  by_cases hcd : ∃ name, c = .cd name
  · obtain ⟨name, rfl⟩ := hcd
    obtain ⟨hinodes, hsame⟩ := h.inv.cd_same hc
    refine h.of_listings ht (fun k => by rw [hinodes]) (fun k => by rw [hinodes]) fun p dir' hdir' => ?_
    rw [hsame] at hdir'
    exact Or.inr ⟨dir', hdir', List.Sublist.refl _⟩
  · rw [not_exists] at hcd
    have hfree : Creates s c → HasFree s := by
      intro hcreates
      cases c with
      | mkdir name => exact hplaced
      | _ => exact (hplaced hcreates).1
    rcases h.inv.exec_effect (by rw [hcwd]; norm_num) hfree hcd hc with
      ⟨hcreates, i, ha⟩ | ⟨-, htrim⟩
    · refine h.of_adds ht ha hcwd ?_
      cases c with
      | mkdir name => rfl
      | _ => exact h.inv.table.self_eq _ (hplaced hcreates).2 h.inv.cwd_lt
    · exact h.of_listings ht htrim.type htrim.parent htrim.listing

end Tree

section Image

variable {name : List Byte} {size : ℕ} {next : UInt16} {img : File} {s₀ s : Instance}

theorem childrenOf_of_image (himg : createDriveImage name size next = some img)
    (hmount : mount img = some s₀) (p : ℕ) : childrenOf s₀ p = [] := by
  unfold childrenOf
  rw [getDirEntry_of_image himg hmount]
  split_ifs <;> rfl

theorem Populated.of_image (himg : createDriveImage name size next = some img)
    (hmount : mount img = some s₀) : Populated s₀ where
  occupied p _ hi := absurd (childrenOf_of_image himg hmount p ▸ hi) List.not_mem_nil
  free_empty p _ _ hdir :=
    (Option.some.inj ((getDirEntry_of_image himg hmount p).symm.trans hdir)).symm

theorem TreeOk.of_image (himg : createDriveImage name size next = some img)
    (hmount : mount img = some s₀) : TreeOk s₀ := by
  have hpop := Populated.of_image himg hmount
  exact ⟨Inv.of_image himg hmount, .of_empty (childrenOf_of_image himg hmount), hpop.occupied,
    hpop.free_empty⟩

/-- What a survey allows is placed. -/
theorem SurveyedExec.placed {t : Instance} {c : Cmd} (h : SurveyedExec s c t) :
    PlacedExec s c t := by
  obtain ⟨hexec, k, hk, hc⟩ := h
  have hfree : Creates s c → HasFree s := fun hcreates => (hk.creates hc hcreates).1
  refine ⟨hexec, by rw [hk.cwd, hk.type, hk.cwd_type], ?_⟩
  cases c with
  | mkdir => exact hfree trivial
  | touch =>
    have hcwd := of_decide_eq_true (Bool.and_eq_true_iff.1 hc).2
    exact fun hcreates => ⟨hfree hcreates, hk.cwd ▸ hcwd⟩
  | write =>
    have hcwd := (of_decide_eq_true (Bool.and_eq_true_iff.1 hc).2).1
    exact fun hcreates => ⟨hfree hcreates, hk.cwd ▸ hcwd⟩
  | rm => exact False.elim
  | cd => exact False.elim

/-- **The directories form a tree**, in every session on a new image whose current node is always a
directory, and whose commands are all placed. -/
theorem session_tree {cs : List Cmd} (himg : createDriveImage name size next = some img)
    (hmount : mount img = some s₀) (hrun : Runs.Run PlacedExec s₀ cs s) : TreeWellFormed s := by
  have htree : TreeOk s :=
    hrun.invariant (fun _ _ _ hs hc => hs.exec hc) (TreeOk.of_image himg hmount)
  exact htree.wellFormed

end Image

section Small

theorem session_tree_sample :
    ∃ s, Runs.Run PlacedExec smallVolume sampleSession s ∧ TreeWellFormed s := by
  obtain ⟨s, hrun, -⟩ := sampleSession_run
  have hplaced := hrun.mono fun _ _ _ h => h.placed
  exact ⟨s, hplaced, session_tree smallVolume_created smallVolume_mounted hplaced⟩

/-- The smallest volume after `mkdir a`. -/
def madeVolume : Instance :=
  (created smallVolume 9 2 0 0 (encodeDir [(argA.1, 9)])).pushSorted 9

theorem madeVolume_exec : Exec smallVolume (.mkdir argA) madeVolume := by
  have hself := smallVolume_self
  have h := smallVolume_inv.mkdir_of_free 0 argA.1
    (by rw [smallVolume_totalInodes]; decide) smallVolume_largestFree smallVolume_getDirEntry
    (by rw [hself, smallVolume_blockSize, List.nil_append, entryA_length]; decide)
  rw [hself, List.nil_append] at h
  exact ⟨0, h⟩

theorem smallVolume_cwd_type : (smallVolume.inodes smallVolume.cwdNode).type = 2 :=
  (DirsOk.of_image smallVolume_created smallVolume_mounted).cwd

/-- After `touch a` in the root, the parent of `a` is `ROOT_SELF`. -/
theorem touched_not_tree : Exec smallVolume (.touch argA) touchedVolume ∧
    (smallVolume.inodes smallVolume.cwdNode).type = 2 ∧
    (touchedVolume.inodes touchedVolume.cwdNode).type = 2 ∧ childrenOf touchedVolume 0 = [9] ∧
    (touchedVolume.inodes 9).parent = rootSelf ∧ ¬TreeWellFormed touchedVolume := by
  have hcwd : (touchedVolume.inodes 0).type = 2 :=
    (touchedVolume_run.invariant (fun _ _ _ hs hc => hs.exec hc)
      (DirsOk.of_image smallVolume_created smallVolume_mounted)).cwd
  have hchildren : childrenOf touchedVolume 0 = [9] := by
    unfold childrenOf
    rw [if_pos hcwd, touchedVolume_getDirEntry]
    rfl
  have hparent : (touchedVolume.inodes 9).parent = rootSelf :=
    congrArg Inode.parent touchedVolume_inodes
  refine ⟨touchedVolume_exec, smallVolume_cwd_type, hcwd, hchildren, hparent, fun h => ?_⟩
  have hreach : Reach (childrenOf touchedVolume) 0 9 :=
    .entry .root (by rw [hchildren]; exact List.mem_singleton_self 9)
  obtain ⟨p, -, hunique, hp⟩ := (h 9 hreach).1 (by decide)
  have hp0 : 0 = p := hunique 0 (by rw [hchildren]; exact List.mem_singleton_self 9)
  rw [← hp0, hparent] at hp
  exact absurd hp (by decide)

end Small

end MufaFs
