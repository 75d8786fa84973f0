import SysProg.MufaFs.Steps

/-!
# Commands as sequences of steps

Every command that completes in a state with the invariant takes one of the branches of `Outcome`
(`Inv.outcome`).  Each of them is a sequence of the steps of `Micro` (`Inv.exec_star`), and so keeps
the invariant (`Inv.exec`).  The recursion of `rm` is followed by
induction on its depth: it only ever goes to inodes that a directory lists, and these are inodes
other than the root.
-/

namespace MufaFs

open ByteFile FirstFit Instance Relation

/-! ### What the operations do when they complete -/

section Operations

variable {s t : Instance} {p i : ℕ} {name : List Byte}

theorem insertDirEntry_eq_some (ht : s.insertDirEntry name p i = some t) :
    ∃ dir, s.getDirEntry p = some dir ∧
      s.writeFile p (encodeDir (dir ++ [(name, (s.inodes i).self)])) = some t :=
  Option.bind_eq_some_iff.1 ht

theorem mkdir_eq_some (ht : s.mkdir p name = some t) : ∃ i s₁ s₂, s.findInode = some (i, s₁) ∧
    (s₁.claimDir p i).insertDirEntry name p i = some s₂ ∧ t = (s₂.writeInode i).pushSorted i := by
  obtain ⟨⟨i, s₁⟩, hfind, ht⟩ := Option.bind_eq_some_iff.1 ht
  obtain ⟨s₂, hins, ht⟩ := Option.bind_eq_some_iff.1 ht
  exact ⟨i, s₁, s₂, hfind, hins, (Option.some.inj ht).symm⟩

theorem touch_eq_some (ht : s.touch p name = some (i, t)) : ∃ s₁ s₂, s.findInode = some (i, s₁) ∧
    (s₁.claimFile p i).insertDirEntry name p i = some s₂ ∧ t = s₂.writeInode i := by
  obtain ⟨⟨j, s₁⟩, hfind, ht⟩ := Option.bind_eq_some_iff.1 ht
  obtain ⟨s₂, hins, ht⟩ := Option.bind_eq_some_iff.1 ht
  cases Option.some.inj ht
  exact ⟨s₁, s₂, hfind, hins, rfl⟩

theorem mem_of_lookup {dir : List Entry} {v : Entry} (h : lookup dir name = some v) : v ∈ dir :=
  List.mem_of_find?_eq_some h

theorem deref_of_lt (h : i < s.sb.inodesSize) : s.deref i = some i := if_pos h

theorem deref_eq_some {c : ℕ} (h : s.deref i = some c) : c = i ∧ i < s.sb.inodesSize := by
  rw [deref] at h
  split_ifs at h with hlt
  exact ⟨(Option.some.inj h).symm, hlt⟩

/-- The part of `rm` that removes what a directory lists. -/
def rmListed (fuel : ℕ) (s : Instance) (i : ℕ) : Option Instance :=
  if (s.inodes i).type = 2 then do
    let sub ← s.getDirEntry i
    sub.foldlM (fun s v => do
      let c ← s.deref v.2
      let (_, s) ← rmInode fuel s i c
      some s) s
  else some s

/-- A call of `rm` that completes finds nothing, or removes what the inode lists, releases its
blocks and writes its parent. -/
theorem rmInode_eq_some {fuel : ℕ} {b : Bool} (ht : rmInode (fuel + 1) s p i = some (b, t)) :
    ∃ dir, s.getDirEntry p = some dir ∧
      (dir.findIdx? (·.2 = (s.inodes i).self) = none ∧ t = s ∨
        ∃ k s₁ s₂, dir.findIdx? (·.2 = (s.inodes i).self) = some k ∧
          rmListed fuel s i = some s₁ ∧ s₁.purgeFileContents i = some s₂ ∧
          s₂.writeFile p (encodeDir (dir.eraseIdx k)) = some t) := by
  rw [rmInode] at ht
  obtain ⟨dir, hdir, ht⟩ := Option.bind_eq_some_iff.1 ht
  refine ⟨dir, hdir, ?_⟩
  cases hk : dir.findIdx? (·.2 = (s.inodes i).self) with
  | none =>
    rw [hk] at ht
    exact Or.inl ⟨rfl, (congrArg Prod.snd (Option.some.inj ht)).symm⟩
  | some k =>
    rw [hk] at ht
    obtain ⟨s₁, h1, ht⟩ := Option.bind_eq_some_iff.1 ht
    obtain ⟨s₂, h2, ht⟩ := Option.bind_eq_some_iff.1 ht
    obtain ⟨s₃, h3, ht⟩ := Option.bind_eq_some_iff.1 ht
    cases Option.some.inj ht
    exact Or.inr ⟨k, s₁, s₂, rfl, h1, h2, h3⟩

theorem rm_eq_some {fuel : ℕ} (ht : s.rm fuel p name = some t) : ∃ dir, s.getDirEntry p = some dir ∧
    (lookup dir name = none ∧ t = s.report (.fileDoesNotExist name) ∨
      ∃ v b, lookup dir name = some v ∧ v.2 < s.sb.inodesSize ∧
        rmInode fuel s p v.2 = some (b, t)) := by
  obtain ⟨dir, hdir, ht⟩ := Option.bind_eq_some_iff.1 ht
  refine ⟨dir, hdir, ?_⟩
  cases hv : lookup dir name with
  | none =>
    rw [hv] at ht
    exact Or.inl ⟨rfl, (Option.some.inj ht).symm⟩
  | some v =>
    rw [hv] at ht
    obtain ⟨c, hc, ht⟩ := Option.bind_eq_some_iff.1 ht
    obtain ⟨rfl, hlt⟩ := deref_eq_some hc
    obtain ⟨⟨b, s'⟩, hrm, ht⟩ := Option.bind_eq_some_iff.1 ht
    cases Option.some.inj ht
    exact Or.inr ⟨v, b, rfl, hlt, hrm⟩

/-- `write_file` of a name refuses what is no file, writes a file, or makes a new one. -/
theorem writeFileNamed_eq_some {data : List Byte} {b : Bool}
    (ht : s.writeFileNamed name data = some (b, t)) : ∃ dir, s.getDirEntry s.cwdNode = some dir ∧
      ((∃ v, lookup dir name = some v ∧ v.2 < s.sb.inodesSize ∧
          ((s.inodes v.2).type ≠ 1 ∧ b = false ∧ t = s.report (.notAFile name) ∨
            (s.inodes v.2).type = 1 ∧ b = true ∧ s.writeFile v.2 data = some t)) ∨
        lookup dir name = none ∧ b = true ∧
          ∃ i s₁, s.touch s.cwdNode name = some (i, s₁) ∧ s₁.writeFile i data = some t) := by
  obtain ⟨dir, hdir, ht⟩ := Option.bind_eq_some_iff.1 ht
  refine ⟨dir, hdir, ?_⟩
  cases hv : lookup dir name with
  | none =>
    rw [hv] at ht
    obtain ⟨⟨i, s₁⟩, htouch, ht⟩ := Option.bind_eq_some_iff.1 ht
    obtain ⟨s₂, hwrite, ht⟩ := Option.bind_eq_some_iff.1 ht
    cases Option.some.inj ht
    exact Or.inr ⟨rfl, rfl, i, s₁, htouch, hwrite⟩
  | some v =>
    rw [hv] at ht
    obtain ⟨c, hc, ht⟩ := Option.bind_eq_some_iff.1 ht
    obtain ⟨rfl, hlt⟩ := deref_eq_some hc
    refine Or.inl ⟨v, rfl, hlt, ?_⟩
    split_ifs at ht with htype
    · cases Option.some.inj ht
      exact Or.inl ⟨htype, rfl, rfl⟩
    · obtain ⟨s₂, hwrite, ht⟩ := Option.bind_eq_some_iff.1 ht
      cases Option.some.inj ht
      exact Or.inr ⟨not_not.1 htype, rfl, hwrite⟩

/-- `cd` to a name stays, or enters what the name lists. -/
theorem cd_eq_some (ht : s.cd name = some t) : ∃ dir, s.getDirEntry s.cwdNode = some dir ∧
    (lookup dir name = none ∧ t = s.report (.directoryDoesNotExist name) ∨
      ∃ v s₁, lookup dir name = some v ∧ v.2 < s.sb.inodesSize ∧
        ((s.inodes v.2).type = 2 ∧ s₁ = s ∨
          (s.inodes v.2).type ≠ 2 ∧ s₁ = s.report (.notADirectory name)) ∧
        s₁.cdNode v.2 = some t) := by
  obtain ⟨dir, hdir, ht⟩ := Option.bind_eq_some_iff.1 ht
  refine ⟨dir, hdir, ?_⟩
  cases hv : lookup dir name with
  | none =>
    rw [hv] at ht
    exact Or.inl ⟨rfl, (Option.some.inj ht).symm⟩
  | some v =>
    rw [hv] at ht
    obtain ⟨c, hc, ht⟩ := Option.bind_eq_some_iff.1 ht
    obtain ⟨rfl, hlt⟩ := deref_eq_some hc
    refine Or.inr ⟨v, _, rfl, hlt, ?_, ht⟩
    split_ifs with htype
    · exact Or.inr ⟨htype, rfl⟩
    · exact Or.inl ⟨not_not.1 htype, rfl⟩

end Operations

/-- What a command does when it completes in a state with the invariant: each branch of the code with
its guards. -/
inductive Outcome (s : Instance) : Cmd → Instance → Prop
  | mkdir {name : Arg} {t : Instance} : s.mkdir s.cwdNode name.1 = some t → Outcome s (.mkdir name) t
  | touch {name : Arg} {i : ℕ} {t : Instance} : s.touch s.cwdNode name.1 = some (i, t) →
      Outcome s (.touch name) t
  | create {name data : Arg} {dir : List Entry} {i : ℕ} {s₁ t : Instance} :
      s.getDirEntry s.cwdNode = some dir → lookup dir name.1 = none →
      s.touch s.cwdNode name.1 = some (i, s₁) → s₁.writeFile i data.1 = some t →
      Outcome s (.write name data) t
  | write {name data : Arg} {dir : List Entry} {v : Entry} {t : Instance} :
      s.getDirEntry s.cwdNode = some dir → lookup dir name.1 = some v → v.2 ≠ 0 →
      v.2 < s.sb.totalInodes → (s.inodes v.2).type = 1 → s.writeFile v.2 data.1 = some t →
      Outcome s (.write name data) t
  | refuse {name data : Arg} {dir : List Entry} {v : Entry} :
      s.getDirEntry s.cwdNode = some dir → lookup dir name.1 = some v → (s.inodes v.2).type ≠ 1 →
      Outcome s (.write name data) (s.report (.notAFile name.1))
  | rm {name : Arg} {dir : List Entry} {v : Entry} {fuel : ℕ} {b : Bool} {t : Instance} :
      s.getDirEntry s.cwdNode = some dir → lookup dir name.1 = some v → v.2 ≠ 0 →
      v.2 < s.sb.totalInodes → rmInode fuel s s.cwdNode v.2 = some (b, t) → Outcome s (.rm name) t
  | rmNothing {name : Arg} {dir : List Entry} : s.getDirEntry s.cwdNode = some dir →
      lookup dir name.1 = none → Outcome s (.rm name) (s.report (.fileDoesNotExist name.1))
  | cdParent {name : Arg} {t : Instance} : name.1 = ascii ".." →
      (s.inodes s.cwdNode).parent < s.sb.totalInodes →
      s.cdNode (s.inodes s.cwdNode).parent = some t → Outcome s (.cd name) t
  | cd {name : Arg} {dir : List Entry} {v : Entry} {s₁ t : Instance} : name.1 ≠ ascii ".." →
      s.getDirEntry s.cwdNode = some dir → lookup dir name.1 = some v → v.2 < s.sb.totalInodes →
      ((s.inodes v.2).type = 2 ∧ s₁ = s ∨
        (s.inodes v.2).type ≠ 2 ∧ s₁ = s.report (.notADirectory name.1)) →
      s₁.cdNode v.2 = some t → Outcome s (.cd name) t
  | cdNothing {name : Arg} {dir : List Entry} : name.1 ≠ ascii ".." →
      s.getDirEntry s.cwdNode = some dir → lookup dir name.1 = none →
      Outcome s (.cd name) (s.report (.directoryDoesNotExist name.1))

/-! ### Operations as steps -/

section Star

variable {s t : Instance} {p i : ℕ} {name : List Byte}

/-- What a directory lists can be dereferenced only if it is an inode other than the root. -/
theorem IndexOk.of_lt {sb : SuperBlock} (h : IndexOk sb i) (hf : Formatted sb)
    (hi : i < sb.inodesSize) : i ≠ 0 ∧ i < sb.totalInodes := by
  have := hf.inodesSize_le_rootSelf
  rcases h with h | rfl
  · exact ⟨by omega, h.2⟩
  · omega

theorem TableOk.indexOk (h : TableOk s) (hi : i < s.sb.totalInodes) :
    IndexOk s.sb (s.inodes i).self := by
  by_cases h0 : i = 0
  · exact Or.inr (h0 ▸ h.root_self)
  · rw [h.self_eq i h0 hi]
    exact Or.inl ⟨by omega, hi⟩

/-- A name that can be dereferenced names an inode other than the root. -/
theorem Inv.lookup_lt (h : Inv s) (hp : p < s.sb.totalInodes) {dir : List Entry} {v : Entry}
    (hdir : s.getDirEntry p = some dir) (hv : lookup dir name = some v) (hlt : v.2 < s.sb.inodesSize) :
    v.2 ≠ 0 ∧ v.2 < s.sb.totalInodes :=
  ((h.listings p hp dir hdir).indexOk v (mem_of_lookup hv)).of_lt h.formatted hlt

/-- A parent that can be dereferenced is an inode. -/
theorem Inv.parent_lt (h : Inv s) (hp : p < s.sb.totalInodes)
    (hlt : (s.inodes p).parent < s.sb.inodesSize) : (s.inodes p).parent < s.sb.totalInodes := by
  have hsize := h.formatted.inodesSize_le_rootSelf
  -- the other value of a `parent` field is `ROOT_SELF`, which is no index of the table
  rcases h.table.parent_ok p hp with hparent | hparent
  · exact hparent
  · omega

theorem Inv.insertDirEntry_micro (h : Inv s) (hp : p < s.sb.totalInodes) (hname : IsArg name)
    (hi : i < s.sb.totalInodes) (ht : s.insertDirEntry name p i = some t) :
    Micro s t ∧ t.inodesSorted = s.inodesSorted ∧ t.sb = s.sb := by
  obtain ⟨dir, hdir, hwrite⟩ := insertDirEntry_eq_some ht
  refine ⟨.rewrite (.write hp (.insert (h.listings p hp dir hdir) hname (h.table.indexOk hi))
    hwrite), ?_⟩
  obtain ⟨-, rfl⟩ := h.writeFile_eq_some hwrite
  exact ⟨rfl, rfl⟩

theorem Inv.mkdir_star (h : Inv s) (hp : p < s.sb.totalInodes) (hname : IsArg name)
    (ht : s.mkdir p name = some t) : ReflTransGen Micro s t := by
  obtain ⟨i, s₁, s₂, hfind, hins, rfl⟩ := mkdir_eq_some ht
  have hclaim := Micro.claimDir hfind hp
  obtain ⟨hmem, rfl⟩ := findInode_eq_some hfind
  have hi := h.queue.lt i hmem
  obtain ⟨hwrite, hqueue, hsb⟩ := (h.micro hclaim).insertDirEntry_micro hp hname hi hins
  have hi₂ : i < s₂.sb.totalInodes := hsb ▸ hi
  refine .tail (.tail (.tail (.single hclaim) hwrite) (.commit hi₂)) (.push hi₂ ?_)
  show i ∉ s₂.inodesSorted
  rw [hqueue]
  exact h.queue.nodup.not_mem_erase

theorem Inv.touch_star (h : Inv s) (hp : p < s.sb.totalInodes) (hname : IsArg name)
    (ht : s.touch p name = some (i, t)) :
    ReflTransGen Micro s t ∧ i < s.sb.totalInodes ∧ t.sb = s.sb := by
  obtain ⟨s₁, s₂, hfind, hins, rfl⟩ := touch_eq_some ht
  have hclaim := Micro.claimFile hfind hp
  obtain ⟨hmem, rfl⟩ := findInode_eq_some hfind
  have hi := h.queue.lt i hmem
  obtain ⟨hwrite, -, hsb⟩ := (h.micro hclaim).insertDirEntry_micro hp hname hi hins
  exact ⟨.tail (.tail (.single hclaim) hwrite) (.commit (hsb ▸ hi)), hi, hsb⟩

/-- Going through a list, with a step of a transitive relation for every element. -/
theorem foldlM_rel {R : Instance → Instance → Prop} (hrefl : R s s)
    (htrans : ∀ {u v w}, R u v → R v w → R u w) {f : Instance → Entry → Option Instance}
    {vs : List Entry} (hf : ∀ v ∈ vs, ∀ u u', R s u → f u v = some u' → R u u')
    (ht : vs.foldlM f s = some t) : R s t := by
  have key : ∀ (vs : List Entry) (u : Instance),
      (∀ v ∈ vs, ∀ u u', R s u → f u v = some u' → R u u') → R s u →
      vs.foldlM f u = some t → R s t := by
    intro vs
    induction vs with
    | nil =>
      intro u _ hu ht
      cases Option.some.inj ht
      exact hu
    | cons v vs ih =>
      intro u hf hu ht
      obtain ⟨u', hv, ht⟩ := Option.bind_eq_some_iff.1 ht
      exact ih u' (fun w hw => hf w (List.mem_cons_of_mem _ hw))
        (htrans hu (hf v List.mem_cons_self u u' hu hv)) ht
  exact key vs s hf hrefl ht

/-- What `rm` does to an inode `i` and to the directory `p` that lists it, after what `i` itself
lists was removed: the blocks of `i` are released and `p` is written without an entry. -/
def Unlinks (s₁ : Instance) (p i : ℕ) (dir : List Entry) (t : Instance) : Prop :=
  ∃ k s₂, s₁.purgeFileContents i = some s₂ ∧ s₂.writeFile p (encodeDir (dir.eraseIdx k)) = some t

/-- **The rule for the recursion of `rm`**: a transitive relation that keeps the invariant holds from
before to after, if it does so when one more inode is unlinked. -/
theorem Inv.rmInode_rel {R : Instance → Instance → Prop} (hrefl : ∀ u, R u u)
    (htrans : ∀ {u v w}, R u v → R v w → R u w)
    (hkeep : ∀ {u v}, Inv u → R u v → Inv v ∧ v.sb = u.sb)
    (hunlink : ∀ {u v w : Instance} {p i : ℕ} {dir : List Entry}, Inv u → p < u.sb.totalInodes →
      i ≠ 0 → i < u.sb.totalInodes → u.getDirEntry p = some dir → R u v → Unlinks v p i dir w →
      R u w)
    {fuel : ℕ} {b : Bool} (h : Inv s) (hp : p < s.sb.totalInodes) (h0 : i ≠ 0)
    (hi : i < s.sb.totalInodes) (ht : rmInode fuel s p i = some (b, t)) : R s t := by
  induction fuel generalizing s t p i b with
  | zero => exact absurd ht (by simp [rmInode])
  | succ fuel ih =>
    obtain ⟨dir, hdir, ⟨-, rfl⟩ | ⟨k, s₁, s₂, -, hlisted, hpurge, hwrite⟩⟩ := rmInode_eq_some ht
    · exact hrefl _
    · -- the recursive calls come first: they remove what the inode itself lists
      have hsub : R s s₁ := by
        rw [rmListed] at hlisted
        split_ifs at hlisted with htype
        · obtain ⟨sub, hsub, hfold⟩ := Option.bind_eq_some_iff.1 hlisted
          have hgood := h.listings i hi sub hsub
          refine foldlM_rel (hrefl s) htrans (fun v hv u u' hu hstep => ?_) hfold
          obtain ⟨hinv, hsb⟩ := hkeep h hu
          obtain ⟨c, hc, hstep⟩ := Option.bind_eq_some_iff.1 hstep
          obtain ⟨rfl, hlt⟩ := deref_eq_some hc
          obtain ⟨⟨b', u''⟩, hrm, hstep⟩ := Option.bind_eq_some_iff.1 hstep
          cases Option.some.inj hstep
          rw [hsb] at hlt
          obtain ⟨hv0, hvlt⟩ := (hgood.indexOk v hv).of_lt h.formatted hlt
          exact ih hinv (hsb ▸ hi) hv0 (hsb ▸ hvlt) hrm
        · cases Option.some.inj hlisted
          exact hrefl s
      exact hunlink h hp h0 hi hdir hsub ⟨k, s₂, hpurge, hwrite⟩

theorem Inv.rewrites_keep {u v : Instance} (h : Inv u) (hr : ReflTransGen Rewrite u v) :
    Inv v ∧ v.sb = u.sb :=
  ⟨h.star (star_of_rewrites hr), h.star_sb (star_of_rewrites hr)⟩

/-- To unlink an inode is to rewrite inodes. -/
theorem Inv.unlinks_rewrites {u v w : Instance} {dir : List Entry} (h : Inv u)
    (hp : p < u.sb.totalInodes) (h0 : i ≠ 0) (hi : i < u.sb.totalInodes)
    (hdir : u.getDirEntry p = some dir) (hr : ReflTransGen Rewrite u v)
    (hw : Unlinks v p i dir w) : ReflTransGen Rewrite u w := by
  obtain ⟨k, s₂, hpurge, hwrite⟩ := hw
  obtain ⟨hinv, hsb⟩ := h.rewrites_keep hr
  have hr₁ := Rewrite.purge h0 (hsb ▸ hi) hpurge
  have hsb₂ : s₂.sb = u.sb := ((Micro.rewrite hr₁).sb hinv).trans hsb
  have hgood : GoodDir s₂.sb (dir.eraseIdx k) :=
    hsb₂ ▸ (h.listings p hp dir hdir).of_sublist (List.eraseIdx_sublist dir k)
  exact (hr.tail hr₁).tail (.write (hsb₂ ▸ hp) (.dir hgood) hwrite)

/-- **The recursion of `rm`** rewrites inodes. -/
theorem Inv.rmInode_rewrites {fuel : ℕ} {b : Bool} (h : Inv s) (hp : p < s.sb.totalInodes)
    (h0 : i ≠ 0) (hi : i < s.sb.totalInodes) (ht : rmInode fuel s p i = some (b, t)) :
    ReflTransGen Rewrite s t :=
  Inv.rmInode_rel (fun _ => .refl) .trans Inv.rewrites_keep Inv.unlinks_rewrites h hp h0 hi ht

/-- **The outcomes of a command**, by the branches of `built_in_func`. -/
theorem Inv.outcome {c : Cmd} (h : Inv s) (hc : Exec s c t) : Outcome s c t := by
  obtain ⟨fuel, ht⟩ := hc
  cases c with
  | mkdir name => exact .mkdir ht
  | touch name =>
    obtain ⟨⟨i, u⟩, htouch, rfl⟩ := Option.map_eq_some_iff.1 ht
    exact .touch htouch
  | write name data =>
    obtain ⟨⟨b, u⟩, hwrite, rfl⟩ := Option.map_eq_some_iff.1 ht
    obtain ⟨dir, hdir, ⟨v, hv, hlt, ⟨htype, -, rfl⟩ | ⟨htype, -, hwrite⟩⟩ |
      ⟨hnew, -, i, s₁, htouch, hwrite⟩⟩ := writeFileNamed_eq_some hwrite
    · exact .refuse hdir hv htype
    · obtain ⟨hv0, hvlt⟩ := h.lookup_lt h.cwd_lt hdir hv hlt
      exact .write hdir hv hv0 hvlt htype hwrite
    · exact .create hdir hnew htouch hwrite
  | rm name =>
    obtain ⟨dir, hdir, ⟨hnone, rfl⟩ | ⟨v, b, hv, hlt, hrm⟩⟩ := rm_eq_some ht
    · exact .rmNothing hdir hnone
    · obtain ⟨hv0, hvlt⟩ := h.lookup_lt h.cwd_lt hdir hv hlt
      exact .rm hdir hv hv0 hvlt hrm
  | cd name =>
    simp only [builtInFunc] at ht
    split_ifs at ht with hdots
    · obtain ⟨k, hk, henter⟩ := Option.bind_eq_some_iff.1 ht
      obtain ⟨rfl, hlt⟩ := deref_eq_some hk
      exact .cdParent hdots (h.parent_lt h.cwd_lt hlt) henter
    · obtain ⟨dir, hdir, ⟨hnone, rfl⟩ | ⟨v, s₁, hv, hlt, hs₁, henter⟩⟩ := cd_eq_some ht
      · exact .cdNothing hdots hdir hnone
      · exact .cd hdots hdir hv (h.lookup_lt h.cwd_lt hdir hv hlt).2 hs₁ henter

/-- **Every command is a sequence of steps.** -/
theorem Inv.exec_star {c : Cmd} (h : Inv s) (hc : Exec s c t) : ReflTransGen Micro s t := by
  cases h.outcome hc with
  | @mkdir name _ hmkdir => exact h.mkdir_star h.cwd_lt name.2 hmkdir
  | @touch name i _ htouch => exact (h.touch_star h.cwd_lt name.2 htouch).1
  | @create name data dir i s₁ _ _ _ htouch hwrite =>
    obtain ⟨hstar, hi, hsb⟩ := h.touch_star h.cwd_lt name.2 htouch
    exact hstar.tail (.rewrite (.write (hsb ▸ hi) (.raw data.2) hwrite))
  | @write name data dir v _ _ _ _ hlt _ hwrite =>
    exact .single (.rewrite (.write hlt (.raw data.2) hwrite))
  | refuse => exact .single (.report _)
  | rm _ _ h0 hlt hrm => exact star_of_rewrites (h.rmInode_rewrites h.cwd_lt h0 hlt hrm)
  | rmNothing => exact .single (.report _)
  | cdParent _ hlt henter => exact .single (.enter hlt henter)
  | cd _ _ _ hlt hs₁ henter =>
    rcases hs₁ with ⟨-, rfl⟩ | ⟨-, rfl⟩
    · exact .single (.enter hlt henter)
    · exact .tail (.single (.report _)) (.enter hlt henter)
  | cdNothing => exact .single (.report _)

/-- **Every command keeps the invariant.** -/
theorem Inv.exec {c : Cmd} (h : Inv s) (hc : Exec s c t) : Inv t := h.star (h.exec_star hc)

/-- Every run of commands keeps the invariant. -/
theorem Inv.run {cs : List Cmd} (h : Inv s) (hr : Runs.Run Exec s cs t) : Inv t :=
  hr.invariant (fun _ _ _ hu hc => hu.exec hc) h

end Star

end MufaFs
