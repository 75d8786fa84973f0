import SysProg.MufaFs.Effects

/-!
# Names in a directory

`write` looks a name up before it makes a file, `mkdir` and `touch` do not: they append a second entry
of the same name, and the first-match lookups never reach it.

* `NamesUnique`: no directory lists a name twice, and every entry is reached by its name;
* `session_names`: so it is in every session in which `mkdir` and `touch` are given new names;
* `touched_twice`: the same name twice.
-/

namespace MufaFs

open ByteFile FirstFit Instance

/-- No listing holds a name twice, and every entry is the first one of its name. -/
def NamesUnique (s : Instance) : Prop :=
  ∀ p < s.sb.totalInodes, ∀ dir, s.getDirEntry p = some dir →
    (dir.map Prod.fst).Nodup ∧ ∀ v ∈ dir, lookup dir v.1 = some v

/-- `mkdir` and `touch` are given a name that the current directory does not list. -/
def NewName (s : Instance) : Cmd → Prop
  | .mkdir name => ∀ dir, s.getDirEntry s.cwdNode = some dir → lookup dir name.1 = none
  | .touch name => ∀ dir, s.getDirEntry s.cwdNode = some dir → lookup dir name.1 = none
  | _ => True

/-- A command that completes, under the condition `NewName`. -/
def NewNameExec (s : Instance) (c : Cmd) (t : Instance) : Prop := Exec s c t ∧ NewName s c

section Names

variable {s t : Instance} {c : Cmd} {dir : List Entry} {name : List Byte}

theorem lookup_eq_none : lookup dir name = none ↔ name ∉ dir.map Prod.fst := by
  rw [lookup, List.find?_eq_none, List.mem_map]
  simp only [decide_eq_true_eq, not_exists, not_and]

/-- A listing without repeated names is searched by its names. -/
theorem lookup_of_nodup (h : (dir.map Prod.fst).Nodup) {v : Entry} (hv : v ∈ dir) :
    lookup dir v.1 = some v := by
  induction dir with
  | nil => exact absurd hv List.not_mem_nil
  | cons w dir ih =>
    obtain ⟨hw, hdir⟩ := List.nodup_cons.1 h
    rcases List.mem_cons.1 hv with rfl | hv
    · simp [lookup]
    · have hne : w.1 ≠ v.1 := fun e => hw (e ▸ List.mem_map_of_mem hv)
      have hskip : lookup (w :: dir) v.1 = lookup dir v.1 := by simp [lookup, hne]
      rw [hskip, ih hdir hv]

/-- A new name behind the others. -/
theorem nodup_insert (h : (dir.map Prod.fst).Nodup) (hnew : lookup dir name = none) (i : ℕ) :
    ((dir ++ [(name, i)]).map Prod.fst).Nodup := by
  rw [List.map_append, List.map_singleton, ← List.concat_eq_append]
  exact h.concat (lookup_eq_none.1 hnew)

theorem NamesUnique.of_nodup (h : ∀ p < s.sb.totalInodes, ∀ dir, s.getDirEntry p = some dir →
    (dir.map Prod.fst).Nodup) : NamesUnique s :=
  fun p hp dir hdir => ⟨h p hp dir hdir, fun _ hv => lookup_of_nodup (h p hp dir hdir) hv⟩

/-- Whatever makes an inode is given a new name: `write` has looked it up. -/
theorem lookup_of_creates (hcreates : Creates s c) (hnew : NewName s c)
    (hdir : s.getDirEntry s.cwdNode = some dir) : lookup dir c.name = none := by
  cases c with
  | mkdir name => exact hnew dir hdir
  | touch name => exact hnew dir hdir
  | write name data =>
    obtain ⟨dir', hdir', hnone⟩ := hcreates
    cases hdir.symm.trans hdir'
    exact hnone
  | rm name => exact hcreates.elim
  | cd name => exact hcreates.elim

/-- **The step lemma.** -/
theorem NamesUnique.exec (h : NamesUnique s) (hs : Inv s) (hc : NewNameExec s c t) :
    NamesUnique t := by
  obtain ⟨hc, hnew⟩ := hc
  have hsb : t.sb = s.sb := hs.star_sb (hs.exec_star hc)
  refine .of_nodup fun p hp dir' hdir' => ?_
  rw [hsb] at hp
  rcases hs.exec_listing hc hdir' with (rfl | ⟨dir, hdir, hsub⟩) |
    ⟨rfl, hcreates, i, s', dir, -, hdir, hsub⟩
  · exact List.nodup_nil
  · exact (h p hp dir hdir).1.sublist (hsub.map _)
  · have hnone := lookup_of_creates hcreates hnew hdir
    exact (nodup_insert (h _ hp dir hdir).1 hnone _).sublist (hsub.map _)

/-- What a survey allows makes new names only. -/
theorem SurveyedExec.newName (h : SurveyedExec s c t) : NewNameExec s c t := by
  obtain ⟨hexec, k, hk, hc⟩ := h
  refine ⟨hexec, ?_⟩
  have hnew : Creates s c → ∀ dir, s.getDirEntry s.cwdNode = some dir → lookup dir c.name = none :=
    fun hcreates dir hdir => ((hk.creates hc hcreates).2.2.2 dir hdir).1
  cases c with
  | mkdir name => exact hnew trivial
  | touch name => exact hnew trivial
  | _ => trivial

end Names

/-- **Names are unique** in every session on a new image in which `mkdir` and `touch` are given names
that the current directory does not list. -/
theorem session_names {volume : List Byte} {size : ℕ} {next : UInt16} {img : File} {s₀ s : Instance}
    {cs : List Cmd} (himg : createDriveImage volume size next = some img)
    (hmount : mount img = some s₀) (hrun : Runs.Run NewNameExec s₀ cs s) : NamesUnique s := by
  -- a new image lists nothing
  have hstart : NamesUnique s₀ := by
    refine .of_nodup fun p _ dir hdir => ?_
    rw [getDirEntry_of_image himg hmount] at hdir
    cases hdir
    exact List.nodup_nil
  have hend : Inv s ∧ NamesUnique s :=
    Runs.Run.invariant (P := fun s => Inv s ∧ NamesUnique s)
      (fun _ _ _ hs hc => ⟨hs.1.exec hc.1, hs.2.exec hs.1 hc⟩) ⟨Inv.of_image himg hmount, hstart⟩ hrun
  exact hend.2

section Small

theorem session_names_sample :
    ∃ s, Runs.Run NewNameExec smallVolume sampleSession s ∧ NamesUnique s := by
  obtain ⟨s, hrun, -⟩ := sampleSession_run
  have hnames := hrun.mono fun _ _ _ h => h.newName
  exact ⟨s, hnames, session_names smallVolume_created smallVolume_mounted hnames⟩

theorem touchedVolume_largestFree : LargestFree touchedVolume 8 where
  lt := smallVolume_largestFree.lt.trans' (by decide)
  free := by
    rw [touchedVolume, created_type_of_ne (by decide), smallVolume_inodes (by decide) (by decide)]
    rfl
  le k hk hfree := by
    have hlt : k < 10 := smallVolume_totalInodes ▸ hk
    have hne : k ≠ 9 := by
      rintro rfl
      rw [touchedVolume_inodes] at hfree
      exact absurd hfree (by decide)
    omega

/-- After `touch a` twice the root lists two inodes by the name `a`, and inode `8` is out of reach. -/
theorem touched_twice : ∃ s, Runs.Run Exec smallVolume [.touch argA, .touch argA] s ∧
    s.getDirEntry 0 = some [(argA.1, 9), (argA.1, 8)] ∧ ¬NamesUnique s := by
  have hinv := touchedVolume_inv
  have hself : (touchedVolume.inodes 8).self = 8 :=
    hinv.table.self_eq 8 (by decide) touchedVolume_largestFree.lt
  have hbs : touchedVolume.sb.blockSize = 256 := smallVolume_blockSize
  have hshort : (encodeDir ([(argA.1, 9)] ++ [(argA.1, (touchedVolume.inodes 8).self)])).length <
      touchedVolume.sb.blockSize := by
    rw [hself, hbs]
    decide
  have htotal : 0 < touchedVolume.sb.totalInodes := Nat.zero_lt_of_lt touchedVolume_largestFree.lt
  have htouch := hinv.touch_of_free 0 argA.1 htotal touchedVolume_largestFree
    touchedVolume_getDirEntry (by omega)
  have hdir := hinv.getDirEntry_created_of_short 1 (touchedVolume.inodes 0).self 0 argA.1
    touchedVolume_largestFree.lt (by decide) (by decide) (hinv.table.selfOk htotal) htotal
    touchedVolume_getDirEntry (by decide) hinv.room_root_pos hshort
  rw [hself] at htouch hdir
  have hexec : Exec touchedVolume (.touch argA) _ :=
    ⟨0, by rw [builtInFunc]; exact congrArg (Option.map _) htouch⟩
  refine ⟨_, .cons touchedVolume_exec (.cons hexec (.nil _)), hdir, fun h => ?_⟩
  exact absurd (h 0 htotal _ hdir).1 (by decide)

end Small

end MufaFs
