import SysProg.MufaFs.Effects

/-!
# The current directory

`cd` enters whatever a name lists, also after it has reported that it is no directory, and `cd ..`
follows a field that `mkdir`, `touch` and `mkdir_root` fill in differently: in the root it leads out
of the vector of inodes.

* `DirsOk`: the invariant, the current node is a directory, and so are the parents of directories;
* `session_cwd`: the current node is a directory after every command, as long as `cd` is given none
  but directories;
* `cd_file_entered`: `cd` to a file.
-/

namespace MufaFs

open ByteFile FirstFit Instance Relation

/-- The current node is in the table, and a directory. -/
def CwdOk (s : Instance) : Prop :=
  s.cwdNode < s.sb.totalInodes ∧ (s.inodes s.cwdNode).type = 2

/-- `cd` is given `..` below the root, or a name that lists nothing or a directory; what makes an
inode finds an unoccupied one. -/
def Sane (s : Instance) : Cmd → Prop
  | .cd name =>
      if name.1 = ascii ".." then s.cwdNode ≠ 0
      else ∀ dir v, s.getDirEntry s.cwdNode = some dir → lookup dir name.1 = some v →
        (s.inodes v.2).type = 2
  | c => Creates s c → HasFree s

/-- A command that completes, under the condition `Sane`. -/
def SaneExec (s : Instance) (c : Cmd) (t : Instance) : Prop := Exec s c t ∧ Sane s c

/-- The invariant: the current node is a directory, and so are the parents of directories other than
the root. -/
structure DirsOk (s : Instance) : Prop where
  inv : Inv s
  root : (s.inodes 0).parent = rootSelf
  cwd : (s.inodes s.cwdNode).type = 2
  parent : ∀ k < s.sb.totalInodes, k ≠ 0 → (s.inodes k).type = 2 →
    (s.inodes k).parent < s.sb.totalInodes ∧ (s.inodes (s.inodes k).parent).type = 2

section CurrentDirectory

variable {s t : Instance} {c : Cmd} {name : Arg}

/-- `cd ..` in the root leaves the vector of inodes. -/
theorem Inv.not_exec_dots (h : Inv s) (hroot : (s.inodes 0).parent = rootSelf) (h0 : s.cwdNode = 0)
    (hname : name.1 = ascii "..") : ¬Exec s (.cd name) t := by
  intro hc
  rcases h.exec_cd hc with ⟨-, hlt, -⟩ | ⟨hne, -⟩
  · rw [h0, hroot] at hlt
    exact absurd h.formatted.totalInodes_lt_rootSelf (by omega)
  · exact hne hname

theorem DirsOk.cwdOk (h : DirsOk s) : CwdOk s := ⟨h.inv.cwd_lt, h.cwd⟩

theorem DirsOk.of_kinds (h : DirsOk s) (ht : Inv t) (hsb : t.sb = s.sb)
    (htype : ∀ k, (t.inodes k).type = (s.inodes k).type)
    (hparent : ∀ k, (t.inodes k).parent = (s.inodes k).parent)
    (hcwd : (s.inodes t.cwdNode).type = 2) : DirsOk t where
  inv := ht
  root := (hparent 0).trans h.root
  cwd := (htype _).trans hcwd
  parent k hk h0 h2 := by
    rw [hparent, htype, hsb]
    exact h.parent k (hsb ▸ hk) h0 ((htype k).symm.trans h2)

theorem DirsOk.of_adds {i : ℕ} (h : DirsOk s) (ht : Inv t) (hcreates : Creates s c)
    (ha : Adds s c i t) : DirsOk t where
  inv := ht
  root := by
    rw [ha.parent_of_ne]
    · exact h.root
    · rintro rfl
      exact h.inv.table.root_occupied ha.free.free
  cwd := by
    rw [ha.cwdNode, ha.type_of_ne]
    · exact h.cwd
    · rintro rfl
      exact absurd h.cwd (by rw [ha.free.free]; norm_num)
  parent k hk h0 h2 := by
    have hold : ∀ p, (s.inodes p).type = 2 → (t.inodes p).type = 2 := by
      intro p hp
      rw [ha.type_of_ne p, hp]
      rintro rfl
      exact absurd hp (by rw [ha.free.free]; norm_num)
    rw [ha.sb] at hk ⊢
    by_cases hki : k = i
    · -- the new inode: its parent is the current directory
      subst hki
      rw [ha.type] at h2
      rw [ha.parent]
      cases c with
      | mkdir name => exact ⟨h.inv.cwd_lt, hold _ h.cwd⟩
      | _ => exact absurd h2 (by simp [Cmd.newType])
    · rw [ha.type_of_ne k hki] at h2
      rw [ha.parent_of_ne k hki]
      obtain ⟨hlt, hp⟩ := h.parent k hk h0 h2
      exact ⟨hlt, hold _ hp⟩

/-- **The step lemma.** -/
theorem DirsOk.exec (h : DirsOk s) (hc : SaneExec s c t) : DirsOk t := by
  obtain ⟨hc, hsane⟩ := hc
  have ht := h.inv.exec hc
  by_cases hcd : ∃ name, c = .cd name
  · obtain ⟨name, rfl⟩ := hcd
    rcases h.inv.exec_cd hc with ⟨hdots, -, cwd, rfl⟩ | ⟨hdots, dir, hdir, ⟨-, rfl⟩ |
      ⟨v, cwd, hv, -, ⟨htype, rfl⟩ | ⟨htype, rfl⟩⟩⟩
    · have h0 : s.cwdNode ≠ 0 := by simpa [Sane, hdots] using hsane
      exact h.of_kinds ht rfl (fun _ => rfl) (fun _ => rfl) (h.parent _ h.inv.cwd_lt h0 h.cwd).2
    · exact h.of_kinds ht rfl (fun _ => rfl) (fun _ => rfl) h.cwd
    · exact h.of_kinds ht rfl (fun _ => rfl) (fun _ => rfl) htype
    · simp only [Sane, if_neg hdots] at hsane
      exact absurd (hsane dir v hdir hv) htype
  · rw [not_exists] at hcd
    have hfree : Creates s c → HasFree s := by
      cases c with
      | cd name => exact absurd rfl (hcd name)
      | _ => exact hsane
    rcases h.inv.exec_effect (by rw [h.cwd]; norm_num) hfree hcd hc with
      ⟨hcreates, i, ha⟩ | ⟨-, htrim⟩
    · exact h.of_adds ht hcreates ha
    · exact h.of_kinds ht htrim.sb htrim.type htrim.parent (by rw [htrim.cwdNode]; exact h.cwd)

/-- For `cd`, the condition is the exact one. -/
theorem DirsOk.cwdOk_cd_iff (h : DirsOk s) (hc : Exec s (.cd name) t) : CwdOk t ↔ Sane s (.cd name) := by
  refine ⟨fun hok => ?_, fun hsane => (h.exec ⟨hc, hsane⟩).cwdOk⟩
  by_cases hdots : name.1 = ascii ".."
  · simp only [Sane, if_pos hdots]
    exact fun h0 => h.inv.not_exec_dots h.root h0 hdots hc
  · simp only [Sane, if_neg hdots]
    intro dir v hdir hv
    rcases h.inv.exec_cd hc with ⟨hdots', -⟩ | ⟨-, dir', hdir', ⟨hnone, -⟩ |
      ⟨v', cwd, hv', -, ⟨htype, rfl⟩ | ⟨htype, rfl⟩⟩⟩
    · exact absurd hdots' hdots
    all_goals cases hdir.symm.trans hdir'
    · exact absurd (hv.symm.trans hnone) (by simp)
    all_goals cases hv.symm.trans hv'
    · exact htype
    · exact absurd hok.2 htype

/-- A `cd` that reports an error stays where it is. -/
theorem Inv.cd_refused (h : Inv s) (hc : Exec s (.cd name) t) (hsane : Sane s (.cd name))
    (hrefused : t.stderr ≠ s.stderr) : t.cwdNode = s.cwdNode ∧ t.cwd = s.cwd := by
  rcases h.exec_cd hc with ⟨-, -, cwd, rfl⟩ | ⟨hdots, dir, hdir, ⟨-, rfl⟩ |
    ⟨v, cwd, hv, -, ⟨htype, rfl⟩ | ⟨htype, rfl⟩⟩⟩
  · exact absurd rfl hrefused
  · exact ⟨rfl, rfl⟩
  · exact absurd rfl hrefused
  · simp only [Sane, if_neg hdots] at hsane
    exact absurd (hsane dir v hdir hv) htype

end CurrentDirectory

section Image

variable {name : List Byte} {size : ℕ} {next : UInt16} {img : File} {s₀ s : Instance}

theorem DirsOk.of_image (himg : createDriveImage name size next = some img)
    (hmount : mount img = some s₀) : DirsOk s₀ := by
  have hinv := Inv.of_image himg hmount
  obtain ⟨-, rfl⟩ := mount_image_eq_some himg hmount
  have h10 := hinv.formatted.totalInodes
  have hroot := newInstance_root img h10
  refine ⟨hinv, by rw [hroot]; rfl, ?_, fun k hk h0 h2 => ?_⟩
  · show ((newInstance img (newSuperBlock name size next)).inodes 0).type = 2
    rw [hroot]
    rfl
  · rw [newInstance_inodes h0 hk] at h2
    exact absurd h2 (by simp [Inode.zero])

end Image

/-- What a survey allows is sane. -/
theorem SurveyedExec.sane {s t : Instance} {c : Cmd} (h : SurveyedExec s c t) : SaneExec s c t := by
  obtain ⟨hexec, k, hk, hc⟩ := h
  refine ⟨hexec, ?_⟩
  have hfree : Creates s c → HasFree s := fun hcreates => (hk.creates hc hcreates).1
  cases c with
  | cd name =>
    by_cases hdots : name.1 = ascii ".."
    · rw [Survey.allows, if_pos hdots] at hc
      rw [Sane, if_pos hdots, hk.cwd]
      exact (of_decide_eq_true hc).1
    · rw [Survey.allows, if_neg hdots] at hc
      rw [Sane, if_neg hdots]
      intro dir v hdir hv
      cases hk.getDirEntry_cwd.symm.trans hdir
      rw [hv] at hc
      exact (hk.type _).trans (of_decide_eq_true hc)
  | _ => exact hfree

theorem sampleSession_sane : ∃ s, Runs.Run SaneExec smallVolume sampleSession s ∧
    Surveyed s (sampleSession.foldl Survey.exec smallSurvey) := by
  obtain ⟨s, hrun, hs⟩ := sampleSession_run
  exact ⟨s, hrun.mono fun _ _ _ h => h.sane, hs⟩

/-- **The current directory is a directory.** After every command of a session on a new image whose
commands are all sane, the current node is in the table and a directory; a `cd` that reports an error
stays where it is; and for `cd` the condition is the exact one. -/
theorem session_cwd {name : List Byte} {size : ℕ} {next : UInt16} {img : File} {s₀ s : Instance}
    {cs : List Cmd} (himg : createDriveImage name size next = some img)
    (hmount : mount img = some s₀) (hrun : Runs.Run SaneExec s₀ cs s) :
    CwdOk s ∧
      (∀ arg t, SaneExec s (.cd arg) t → t.stderr ≠ s.stderr →
        t.cwdNode = s.cwdNode ∧ t.cwd = s.cwd) ∧
      ∀ arg t, Exec s (.cd arg) t → (CwdOk t ↔ Sane s (.cd arg)) := by
  have hdirs : DirsOk s :=
    hrun.invariant (fun _ _ _ hs hc => hs.exec hc) (DirsOk.of_image himg hmount)
  exact ⟨hdirs.cwdOk, fun arg t hc hne => hdirs.inv.cd_refused hc.1 hc.2 hne,
    fun arg t hc => hdirs.cwdOk_cd_iff hc⟩

theorem session_cwd_sample : ∃ s, Runs.Run SaneExec smallVolume sampleSession s ∧ CwdOk s := by
  obtain ⟨s, hrun, -⟩ := sampleSession_sane
  exact ⟨s, hrun, (session_cwd smallVolume_created smallVolume_mounted hrun).1⟩

theorem touchedVolume_run : Runs.Run SaneExec smallVolume [.touch argA] touchedVolume :=
  .cons ⟨touchedVolume_exec, fun _ => smallVolume_largestFree.hasFree⟩ (.nil _)

/-- The smallest volume after `touch a` and `cd a`. -/
def enteredVolume : Instance :=
  { touchedVolume.report (.notADirectory argA.1) with cwdNode := 9, cwd := [] }

theorem enteredVolume_exec : Exec touchedVolume (.cd argA) enteredVolume := by
  have hsize : 9 < touchedVolume.sb.inodesSize := by
    have hlt : 9 < touchedVolume.sb.totalInodes := smallVolume_largestFree.lt
    rw [touchedVolume_inv.formatted.inodesSize]
    omega
  have hempty : touchedVolume.getDirEntry 9 = some [] :=
    touchedVolume_inv.table.getDirEntry_of_no_blocks touchedVolume_inv.formatted (by decide)
      fun j => by rw [touchedVolume_inodes]; rfl
  have hdir : touchedVolume.getDirEntry touchedVolume.cwdNode = some [(argA.1, 9)] :=
    touchedVolume_getDirEntry
  have hlookup : lookup [(argA.1, 9)] argA.1 = some (argA.1, 9) := rfl
  have htype : (touchedVolume.inodes 9).type ≠ 2 := by
    rw [touchedVolume_inodes]
    decide
  have hsame : SameBlocks touchedVolume (touchedVolume.report (.notADirectory argA.1)) :=
    ⟨rfl, rfl, rfl, fun _ => rfl, fun _ => rfl⟩
  refine ⟨0, ?_⟩
  rw [builtInFunc, if_neg (by decide), cd, hdir]
  simp only [Option.bind_eq_bind, Option.bind_some, hlookup, deref_of_lt hsize, ne_eq, htype,
    not_false_eq_true, if_true, cdNode, hsame.getDirEntry, hempty]
  rfl

/-- After `touch a`, `cd a` says that `a` is not a directory, and enters it; and in the root `cd ..`
does not complete. -/
theorem cd_file_entered : (∃ s, Runs.Run Exec smallVolume [.touch argA, .cd argA] s ∧
    s.stderr = [.notADirectory argA.1] ∧ s.cwdNode = 9 ∧ (s.inodes s.cwdNode).type = 1 ∧ ¬CwdOk s) ∧
    smallVolume.cwdNode = 0 ∧ ¬∃ t, Exec smallVolume (.cd argDots) t := by
  have htype : (enteredVolume.inodes enteredVolume.cwdNode).type = 1 :=
    congrArg Inode.type touchedVolume_inodes
  refine ⟨⟨enteredVolume, .cons touchedVolume_exec (.cons enteredVolume_exec (.nil _)), rfl, rfl,
    htype, fun hok => absurd (htype.symm.trans hok.2) (by norm_num)⟩, rfl, ?_⟩
  rintro ⟨t, ht⟩
  exact smallVolume_inv.not_exec_dots (DirsOk.of_image smallVolume_created smallVolume_mounted).root
    rfl rfl ht

end MufaFs
