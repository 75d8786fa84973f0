import SysProg.MufaFs.Creation

/-!
# Sessions that complete

Whether a session completes can be decided without the drive, as long as no listing fills its block,
inodes and blocks are left, and `cd` stays within the directories.

* `Survey`: what is known of a volume: the types, the listings, and what is left;
* `Surveyed s k`: the volume `s` is as the survey `k` says;
* `Survey.allows`: a sufficient condition for a command; `Survey.exec`: the survey after it;
* `Surveyed.exec`, `Surveyed.run`: commands that a survey allows complete, and the next survey is right;
* `sampleSession_run`: a session on the smallest volume, with a directory, a file in it that holds a
  block, and a second one.
-/

namespace MufaFs

open ByteFile FirstFit Instance

/-- The types of the inodes, the parents and the listings of the directories, the number of the inodes
that are left besides the root (they are the first ones), the current node, and a number of blocks that
are free. -/
structure Survey where
  type : ℕ → ℕ
  parent : ℕ → ℕ
  dir : ℕ → List Entry
  next : ℕ
  cwd : ℕ
  free : ℕ

/-- The blocks that a new inode of the command wants: one for the listing, one for the data. -/
def Cmd.blocks : Cmd → ℕ
  | .write _ _ => 2
  | _ => 1

namespace Survey

/-- There is an inode for the new name, its listing stays shorter than a block, and enough blocks are
free. -/
def hasRoom (k : Survey) (name : List Byte) (blocks : ℕ) : Bool :=
  decide (0 < k.next ∧ name ≠ [] ∧ 0 ∉ name ∧ lookup (k.dir k.cwd) name = none ∧
    (encodeDir (k.dir k.cwd ++ [(name, k.next)])).length < 256 ∧ blocks ≤ k.free)

/-- A sufficient condition for a command to complete.  Files are made below the root only. -/
def allows (k : Survey) : Cmd → Bool
  | .mkdir name => k.hasRoom name.1 1
  | .touch name => k.hasRoom name.1 1 && decide (k.cwd ≠ 0)
  | .write name data => k.hasRoom name.1 2 && decide (k.cwd ≠ 0 ∧ 0 ∉ data.1 ∧ data.1.length < 256)
  | .rm _ => false
  | .cd name =>
      if name.1 = ascii ".." then decide (k.cwd ≠ 0 ∧ k.type (k.parent k.cwd) = 2)
      else match lookup (k.dir k.cwd) name.1 with
        | some v => decide (k.type v.2 = 2)
        | none => false

/-- The last inode that is left gets the name, and blocks are taken. -/
@[simps -fullyApplied] def make (k : Survey) (type : ℕ) (name : List Byte) (blocks : ℕ) :
    Survey where
  type := Function.update k.type k.next type
  parent := Function.update k.parent k.next k.cwd
  dir := Function.update (Function.update k.dir k.cwd (k.dir k.cwd ++ [(name, k.next)])) k.next []
  next := k.next - 1
  cwd := k.cwd
  free := k.free - blocks

/-- The survey after a command. -/
def exec (k : Survey) : Cmd → Survey
  | .mkdir name => k.make 2 name.1 1
  | .touch name => k.make 1 name.1 1
  | .write name _ => k.make 1 name.1 2
  | .rm _ => k
  | .cd name =>
      if name.1 = ascii ".." then { k with cwd := k.parent k.cwd }
      else match lookup (k.dir k.cwd) name.1 with
        | some v => { k with cwd := v.2 }
        | none => k

/-- Every command is allowed by the survey before it. -/
def allowsAll (k : Survey) : List Cmd → Bool
  | [] => true
  | c :: cs => k.allows c && (k.exec c).allowsAll cs

end Survey

/-- The volume is as the survey says. -/
structure Surveyed (s : Instance) (k : Survey) : Prop where
  inv : Inv s
  type : ∀ i, (s.inodes i).type = k.type i
  parent : ∀ i, i ≠ 0 → k.type i = 2 → (s.inodes i).parent = k.parent i
  dir : ∀ i, k.type i = 2 → s.getDirEntry i = some (k.dir i)
  next_lt : k.next < s.sb.totalInodes
  left : ∀ i < s.sb.totalInodes, k.type i = 0 ↔ 0 < i ∧ i ≤ k.next
  blank : ∀ i, k.type i = 0 → ∀ j, (s.inodes i).dataBlocks j = 0
  cwd : s.cwdNode = k.cwd
  cwd_type : k.type k.cwd = 2
  free : k.free ≤ freeBlocks s

/-- A command that a survey of the state before it allows. -/
def SurveyedExec (s : Instance) (c : Cmd) (t : Instance) : Prop :=
  Exec s c t ∧ ∃ k, Surveyed s k ∧ k.allows c = true

section Surveyed

variable {s : Instance} {k : Survey} {c : Cmd} {i : ℕ} {name data : List Byte}

theorem Survey.hasRoom_of_creates (hc : k.allows c = true) (hcreates : Creates s c) :
    k.hasRoom c.name c.blocks = true := by
  cases c with
  | mkdir => exact hc
  | touch => exact (Bool.and_eq_true_iff.1 hc).1
  | write => exact (Bool.and_eq_true_iff.1 hc).1
  | rm => exact hcreates.elim
  | cd => exact hcreates.elim

theorem Surveyed.lt (h : Surveyed s k) (hi : k.type i ≠ 0) : i < s.sb.totalInodes := by
  by_contra hge
  rw [← h.type, h.inv.table.spare i (by omega)] at hi
  exact hi rfl

theorem Surveyed.cwd_lt (h : Surveyed s k) : k.cwd < s.sb.totalInodes :=
  h.lt (by rw [h.cwd_type]; decide)

theorem Surveyed.cwd_ne_next (h : Surveyed s k) (hnext : 0 < k.next) : k.cwd ≠ k.next := by
  intro e
  have hleft := (h.left _ h.next_lt).2 ⟨hnext, le_rfl⟩
  rw [← e, h.cwd_type] at hleft
  exact absurd hleft (by decide)

theorem Surveyed.getDirEntry_cwd (h : Surveyed s k) :
    s.getDirEntry s.cwdNode = some (k.dir k.cwd) := by
  rw [h.cwd]
  exact h.dir _ h.cwd_type

theorem Surveyed.largestFree (h : Surveyed s k) (hnext : 0 < k.next) : LargestFree s k.next where
  lt := h.next_lt
  free := by rw [h.type, h.left _ h.next_lt]; exact ⟨hnext, le_rfl⟩
  le i hi hfree := by
    rw [h.type, h.left i hi] at hfree
    exact hfree.2

/-- What is left of the free blocks when the listing of a new name was written. -/
theorem freeBlocks_created (i type parent p : ℕ) (hbs : 0 < s.sb.blockSize)
    (hshort : data.length ≤ s.sb.blockSize) :
    freeBlocks s ≤ freeBlocks (created s i type parent p data) + 1 := by
  have hleft := room_le_freeBlocks_written (claimed s i type parent) p data
  have hone : blocksFor s.sb.blockSize data.length = 1 := blocksFor_of_le hbs hshort
  have hle : (blocksOf (claimed s i type parent) p data).length ≤ 1 := by
    rw [blocksOf_length]
    exact (min_le_left _ _).trans hone.le
  rw [room_claimed] at hleft
  exact ((freeBlocks_le_room s p).trans hleft).trans (Nat.add_le_add_left hle _)

/-- What a survey that allows a creation says about it. -/
theorem Surveyed.creates (h : Surveyed s k) (hc : k.allows c = true) (hcreates : Creates s c) :
    HasFree s ∧ (c.name ≠ [] ∧ 0 ∉ c.name) ∧ c.blocks ≤ freeBlocks s ∧
      ∀ dir, s.getDirEntry s.cwdNode = some dir → lookup dir c.name = none ∧
        ∀ i, LargestFree s i → (encodeDir (dir ++ [(c.name, i)])).length < s.sb.blockSize := by
  obtain ⟨hnext, hne, hname, hnew, hshort, hfree⟩ :=
    of_decide_eq_true (Survey.hasRoom_of_creates hc hcreates)
  have hlargest := h.largestFree hnext
  refine ⟨hlargest.hasFree, ⟨hne, hname⟩, hfree.trans h.free, fun dir hdir => ?_⟩
  cases h.getDirEntry_cwd.symm.trans hdir
  refine ⟨hnew, fun i hi => ?_⟩
  rw [hi.unique hlargest, h.inv.formatted.blockSize]
  exact hshort

section Made

variable {type parent blocks : ℕ} (h : Surveyed s k) (hroom : k.hasRoom name blocks = true)
include h hroom

theorem Surveyed.short : (encodeDir (k.dir k.cwd ++ [(name, (s.inodes k.next).self)])).length <
    s.sb.blockSize := by
  obtain ⟨hnext, -, -, -, hshort, -⟩ := of_decide_eq_true hroom
  rwa [h.inv.table.self_eq _ hnext.ne' h.next_lt, h.inv.formatted.blockSize]

/-- The listing with the new name is one, and takes no more than ten blocks. -/
theorem Surveyed.listing (type parent : ℕ) :
    Content s.sb (encodeDir (k.dir k.cwd ++ [(name, (s.inodes k.next).self)])) ∧
      (blocksOf (claimed s k.next type parent) k.cwd
        (encodeDir (k.dir k.cwd ++ [(name, (s.inodes k.next).self)]))).length ≤ 10 := by
  have hinv := h.inv
  have hshort := h.short hroom
  obtain ⟨-, -, hname, -⟩ := of_decide_eq_true hroom
  refine ⟨.insert (hinv.listings _ h.cwd_lt _ (h.dir _ h.cwd_type)) (isArg_iff.2 (Or.inl hname))
    (hinv.table.indexOk h.next_lt), blocksOf_length_le hinv.formatted.blockSize_pos ?_⟩
  show _ ≤ 10 * s.sb.blockSize
  omega

/-- The listings after a creation are those of the survey. -/
theorem Surveyed.getDirEntry_created (hblocks : 0 < blocks) (h0 : type ≠ 0) (h2 : type ≤ 2)
    (hparent : SelfOk s.sb parent) (hi : (k.make type name 1).type i = 2) :
    (MufaFs.created s k.next type parent k.cwd
      (encodeDir (k.dir k.cwd ++ [(name, (s.inodes k.next).self)]))).getDirEntry i =
      some ((k.make type name 1).dir i) := by
  have hinv := h.inv
  obtain ⟨hcontent, hten⟩ := h.listing hroom type parent
  have hcreated := hinv.create h.next_lt h0 h2 hparent h.cwd_lt hten hcontent
  obtain ⟨hnext, hne, hname, -, -, hfree⟩ := of_decide_eq_true hroom
  have hcwd_ne := h.cwd_ne_next hnext
  by_cases hin : i = k.next
  · -- the new inode holds no blocks
    subst hin
    rw [Survey.make_dir, Function.update_self]
    refine hcreated.table.getDirEntry_of_no_blocks hcreated.formatted hnext.ne' fun j => ?_
    rw [created_dataBlocks_of_ne hcwd_ne.symm]
    exact h.blank _ ((h.type _).symm.trans (h.largestFree hnext).free) j
  · rw [Survey.make_type, Function.update_of_ne hin] at hi
    rw [Survey.make_dir, Function.update_of_ne hin]
    by_cases hic : i = k.cwd
    · subst hic
      rw [hinv.getDirEntry_created_of_short type parent k.cwd name h.next_lt h0 h2 hparent h.cwd_lt
        (h.dir _ h.cwd_type) ⟨hne, hname⟩
        ((hblocks.trans_le hfree).trans_le (h.free.trans (freeBlocks_le_room s _))) (h.short hroom),
        Function.update_self, hinv.table.self_eq _ hnext.ne' h.next_lt]
    · rw [hinv.getDirEntry_created_of_ne h.next_lt h0 h2 hparent h.cwd_lt hten hcontent hic,
        Function.update_of_ne hic, h.dir i hi]

/-- **A creation** makes what the survey says. -/
theorem Surveyed.created (hblocks : 0 < blocks) (h0 : type ≠ 0) (h2 : type ≤ 2)
    (hparent : SelfOk s.sb parent) (hdir : type = 2 → parent = k.cwd) :
    Surveyed (created s k.next type parent k.cwd
      (encodeDir (k.dir k.cwd ++ [(name, (s.inodes k.next).self)]))) (k.make type name 1) := by
  have hinv := h.inv
  have hshort := h.short hroom
  obtain ⟨hcontent, hten⟩ := h.listing hroom type parent
  obtain ⟨hnext, -, -, -, -, hfree⟩ := of_decide_eq_true hroom
  have hcwd_ne := h.cwd_ne_next hnext
  constructor
  case inv => exact hinv.create h.next_lt h0 h2 hparent h.cwd_lt hten hcontent
  case type =>
    intro i
    by_cases hi : i = k.next
    · rw [hi, created_type, Survey.make_type, Function.update_self]
    · rw [created_type_of_ne hi, h.type, Survey.make_type, Function.update_of_ne hi]
  case parent =>
    intro i hi0 hi2
    by_cases hi : i = k.next
    · subst hi
      rw [Survey.make_type, Function.update_self] at hi2
      rw [created_parent, hdir hi2, Survey.make_parent, Function.update_self]
    · rw [Survey.make_type, Function.update_of_ne hi] at hi2
      rw [created_parent_of_ne hi, h.parent i hi0 hi2, Survey.make_parent,
        Function.update_of_ne hi]
  case dir => exact fun i hi2 => h.getDirEntry_created hroom hblocks h0 h2 hparent hi2
  case next_lt => exact (Nat.sub_le _ _).trans_lt h.next_lt
  case left =>
    intro i hi
    rw [Survey.make_type, Survey.make_next]
    by_cases hin : i = k.next
    · subst hin
      rw [Function.update_self]
      omega
    · rw [Function.update_of_ne hin, h.left i hi]
      omega
  case blank =>
    intro i hi
    have hin : i ≠ k.next := by
      rintro rfl
      rw [Survey.make_type, Function.update_self] at hi
      exact h0 hi
    rw [Survey.make_type, Function.update_of_ne hin] at hi
    have hic : i ≠ k.cwd := by
      rintro rfl
      rw [h.cwd_type] at hi
      exact absurd hi (by decide)
    rw [created_dataBlocks_of_ne hic]
    exact h.blank i hi
  case cwd => exact h.cwd
  case cwd_type =>
    rw [Survey.make_type, Survey.make_cwd, Function.update_of_ne hcwd_ne, h.cwd_type]
  case free =>
    have hleft := freeBlocks_created k.next type parent k.cwd hinv.formatted.blockSize_pos hshort.le
    have hbefore := h.free
    rw [Survey.make_free]
    omega

end Made

/-- The content of a file does not matter. -/
theorem Surveyed.written (h : Surveyed s k) (hi : k.type i = 1) (hdata : IsArg data)
    (hshort : data.length < s.sb.blockSize) :
    Surveyed (written s i data) { k with free := k.free - 1 } := by
  have hinv := h.inv
  have hlt := h.lt (by rw [hi]; decide : k.type i ≠ 0)
  have hten : (blocksOf s i data).length ≤ 10 :=
    blocksOf_length_le hinv.formatted.blockSize_pos (by omega)
  have hne : ∀ j, k.type j ≠ 1 → j ≠ i := fun j hj e => hj (e ▸ hi)
  constructor
  case inv => exact hinv.write hlt hten (.raw hdata)
  case type =>
    intro j
    rw [written_type, h.type]
  case parent =>
    intro j hj0 hj2
    rw [written_parent, h.parent j hj0 hj2]
  case dir =>
    intro j hj2
    rw [hinv.getDirEntry_written_of_ne hlt (hne j (by rw [hj2]; decide)), h.dir j hj2]
  case next_lt => exact h.next_lt
  case left => exact h.left
  case blank =>
    intro j hj
    rw [written_inodes_of_ne (hne j (by rw [hj]; decide))]
    exact h.blank j hj
  case cwd => exact h.cwd
  case cwd_type => exact h.cwd_type
  case free =>
    have hleft := room_le_freeBlocks_written s i data
    have hroom := freeBlocks_le_room s i
    have hbefore := h.free
    have hle : (blocksOf s i data).length ≤ 1 := by
      rw [blocksOf_length, blocksFor_of_le hinv.formatted.blockSize_pos hshort.le]
      exact min_le_left _ _
    show k.free - 1 ≤ _
    omega

/-- To enter a directory changes the current node only. -/
theorem Surveyed.entered (h : Surveyed s k) (hi : k.type i = 2) (cwd : List Entry) :
    Surveyed { s with cwdNode := i, cwd } { k with cwd := i } where
  inv := h.inv.of_shell (h.lt (by rw [hi]; decide)) cwd s.stderr
  type := h.type
  parent := h.parent
  dir j hj := (getDirEntry_shell i cwd s.stderr j).trans (h.dir j hj)
  next_lt := h.next_lt
  left := h.left
  blank := h.blank
  cwd := rfl
  cwd_type := hi
  free := h.free

theorem Surveyed.pushSorted (h : Surveyed s k) (ht : Inv (s.pushSorted i)) :
    Surveyed (s.pushSorted i) k where
  inv := ht
  type := h.type
  parent := h.parent
  dir j hj := (getDirEntry_pushSorted i j).trans (h.dir j hj)
  next_lt := h.next_lt
  left := h.left
  blank := h.blank
  cwd := h.cwd
  cwd_type := h.cwd_type
  free := h.free

end Surveyed

/-! ### `cd` into a directory -/

section Enter

variable {s : Instance} {name : Arg} {cwd : List Entry}

theorem exec_cd {dir : List Entry} {v : Entry} (hdots : name.1 ≠ ascii "..")
    (hdir : s.getDirEntry s.cwdNode = some dir) (hv : lookup dir name.1 = some v)
    (hlt : v.2 < s.sb.inodesSize) (htype : (s.inodes v.2).type = 2)
    (hcwd : s.getDirEntry v.2 = some cwd) : Exec s (.cd name) { s with cwdNode := v.2, cwd } := by
  have hne : ¬(s.inodes v.2).type ≠ 2 := not_not.2 htype
  refine ⟨0, ?_⟩
  rw [builtInFunc, if_neg hdots, cd, hdir]
  simp only [Option.bind_eq_bind, Option.bind_some, hv, deref_of_lt hlt, if_neg hne, cdNode, hcwd]

theorem exec_cd_parent (hdots : name.1 = ascii "..")
    (hlt : (s.inodes s.cwdNode).parent < s.sb.inodesSize)
    (hcwd : s.getDirEntry (s.inodes s.cwdNode).parent = some cwd) :
    Exec s (.cd name) { s with cwdNode := (s.inodes s.cwdNode).parent, cwd } := by
  refine ⟨0, ?_⟩
  rw [builtInFunc, if_pos hdots, deref_of_lt hlt]
  simp only [Option.bind_eq_bind, Option.bind_some, cdNode, hcwd]

end Enter

/-! ### Commands and sessions -/

section Sessions

variable {s : Instance} {k : Survey} {c : Cmd}

/-- **A command that a survey allows** completes, and the survey after it is right. -/
theorem Surveyed.exec (h : Surveyed s k) (hc : k.allows c = true) :
    ∃ t, Exec s c t ∧ Surveyed t (k.exec c) := by
  have hinv := h.inv
  have hf := hinv.formatted
  have hcwd := hinv.cwd_lt
  have hsize : ∀ i, k.type i ≠ 0 → i < s.sb.inodesSize := fun i hi => by
    have hlt := h.lt hi
    rw [hf.inodesSize]
    omega
  cases c with
  | mkdir name =>
    have hshort := h.short hc
    have hmade := h.created hc Nat.one_pos two_ne_zero le_rfl (Or.inl (h.cwd ▸ hcwd)) fun _ => rfl
    have hmkdir := hinv.mkdir_of_free s.cwdNode name.1 hcwd
      (h.largestFree (of_decide_eq_true hc).1) h.getDirEntry_cwd (by omega)
    rw [h.cwd] at hmkdir
    have hexec : Exec s (.mkdir name) _ := ⟨0, by rw [builtInFunc, h.cwd]; exact hmkdir⟩
    exact ⟨_, hexec, hmade.pushSorted (hinv.exec hexec)⟩
  | touch name =>
    obtain ⟨hroom, -⟩ := Bool.and_eq_true_iff.1 hc
    have hshort := h.short hroom
    have hmade := h.created hroom Nat.one_pos one_ne_zero one_le_two (hinv.table.selfOk hcwd)
      fun e => absurd e (by decide)
    have htouch := hinv.touch_of_free s.cwdNode name.1 hcwd
      (h.largestFree (of_decide_eq_true hroom).1) h.getDirEntry_cwd (by omega)
    rw [h.cwd] at htouch hmade
    exact ⟨_, ⟨0, by rw [builtInFunc, h.cwd, htouch]; rfl⟩, hmade⟩
  | write name data =>
    obtain ⟨hroom, hdata⟩ := Bool.and_eq_true_iff.1 hc
    obtain ⟨-, -, hlen⟩ := of_decide_eq_true hdata
    have hshort := h.short hroom
    obtain ⟨hnext, -, -, hnew, -, -⟩ := of_decide_eq_true hroom
    have hmade := h.created hroom Nat.two_pos one_ne_zero one_le_two (hinv.table.selfOk hcwd)
      fun e => absurd e (by decide)
    have hbs := hf.blockSize
    have hwrite := hinv.writeFileNamed_of_free name.1 data.1 (h.largestFree hnext) name.2
      h.getDirEntry_cwd hnew (by omega) (by omega)
    rw [h.cwd] at hwrite hmade
    refine ⟨_, ⟨0, by rw [builtInFunc, hwrite]; rfl⟩, ?_⟩
    exact hmade.written (Function.update_self _ _ _) data.2 (by show _ < s.sb.blockSize; omega)
  | rm name => exact absurd hc Bool.false_ne_true
  | cd name =>
    by_cases hdots : name.1 = ascii ".."
    · rw [Survey.allows, if_pos hdots] at hc
      obtain ⟨h0, htype⟩ := of_decide_eq_true hc
      have hparent : (s.inodes s.cwdNode).parent = k.parent k.cwd := by
        rw [h.cwd]
        exact h.parent _ h0 h.cwd_type
      have hdir := h.dir _ htype
      rw [← hparent] at hdir htype
      have hexec := exec_cd_parent hdots (hsize _ (by rw [htype]; decide)) hdir
      refine ⟨_, hexec, ?_⟩
      rw [Survey.exec, if_pos hdots, ← hparent]
      exact h.entered htype _
    · rw [Survey.allows, if_neg hdots] at hc
      cases hv : lookup (k.dir k.cwd) name.1 with
      | none =>
        rw [hv] at hc
        exact absurd hc Bool.false_ne_true
      | some v =>
        rw [hv] at hc
        have htype : k.type v.2 = 2 := of_decide_eq_true hc
        have hexec := exec_cd hdots h.getDirEntry_cwd hv (hsize _ (by rw [htype]; decide))
          ((h.type _).trans htype) (h.dir _ htype)
        refine ⟨_, hexec, ?_⟩
        rw [Survey.exec, if_neg hdots, hv]
        exact h.entered htype _

/-- **Sessions that a survey allows** complete. -/
theorem Surveyed.run {cs : List Cmd} (h : Surveyed s k) (hcs : k.allowsAll cs = true) :
    ∃ t, Runs.Run SurveyedExec s cs t ∧ Surveyed t (cs.foldl Survey.exec k) := by
  induction cs generalizing s k with
  | nil => exact ⟨s, .nil s, h⟩
  | cons c cs ih =>
    obtain ⟨hc, hcs⟩ := Bool.and_eq_true_iff.1 hcs
    obtain ⟨t, hexec, ht⟩ := h.exec hc
    obtain ⟨u, hrun, hu⟩ := ih ht hcs
    exact ⟨u, .cons ⟨hexec, k, h, hc⟩ hrun, hu⟩

end Sessions

/-! ### New volumes -/

/-- The root is empty, and nothing else is there. -/
def newSurvey (totalInodes totalDataBlocks : ℕ) : Survey where
  type i := if i = 0 then 2 else 0
  parent _ := 0
  dir _ := []
  next := totalInodes - 1
  cwd := 0
  free := totalDataBlocks - 1

section Image

variable {name : List Byte} {size : ℕ} {next : UInt16} {img : File} {s : Instance}

/-- All blocks but the first are free. -/
theorem freeBlocks_new (hbitmap : s.dataBitmap = emptyBitmap) :
    s.sb.totalDataBlocks - 1 ≤ freeBlocks s := by
  have hall : free (fun _ => false) 0 s.sb.totalDataBlocks =
      List.range' 0 s.sb.totalDataBlocks := List.filter_eq_self.2 fun _ _ => rfl
  have hle := free_length_le (fun _ => false) 0 s.sb.totalDataBlocks [0]
  have hone : (fun b => false || decide (b ∈ [0])) = emptyBitmap := by
    funext b
    rw [Bool.eq_iff_iff, emptyBitmap_eq_true]
    simp
  rw [hall, List.length_range', hone, ← hbitmap] at hle
  exact Nat.sub_le_of_le_add hle

theorem Surveyed.of_image (himg : createDriveImage name size next = some img)
    (hmount : mount img = some s) :
    Surveyed s (newSurvey s.sb.totalInodes s.sb.totalDataBlocks) := by
  have hinv := Inv.of_image himg hmount
  have hlisting := getDirEntry_of_image himg hmount
  have h10 := hinv.formatted.totalInodes
  have hnext : s.sb.totalInodes - 1 < s.sb.totalInodes := by omega
  obtain ⟨-, rfl⟩ := mount_image_eq_some himg hmount
  have hroot := newInstance_root img h10
  have hblank : ∀ i, i ≠ 0 →
      ((newInstance img (newSuperBlock name size next)).inodes i).type = 0 ∧
      ∀ j, ((newInstance img (newSuperBlock name size next)).inodes i).dataBlocks j = 0 := by
    intro i h0
    rcases Nat.lt_or_ge i (newSuperBlock name size next).totalInodes with hi | hi
    · rw [newInstance_inodes h0 hi]
      exact ⟨rfl, fun _ => rfl⟩
    · rw [hinv.table.spare i hi]
      exact ⟨rfl, fun _ => rfl⟩
  constructor
  case inv => exact hinv
  case type =>
    intro i
    by_cases h0 : i = 0
    · rw [h0, hroot]
      rfl
    · rw [(hblank i h0).1]
      exact (if_neg h0).symm
  case parent => exact fun i h0 hi => absurd hi (by simp [newSurvey, h0])
  case dir => exact fun i _ => hlisting i
  case next_lt => exact hnext
  case left =>
    intro i hi
    by_cases h0 : i = 0 <;> simp [newSurvey, h0]
    omega
  case blank =>
    intro i hi
    exact (hblank i fun h0 => absurd hi (by simp [newSurvey, h0])).2
  case cwd => rfl
  case cwd_type => rfl
  case free => exact freeBlocks_new rfl

end Image

/-! ### A session on the smallest volume -/

/-- The names `b` and `c`. -/
def argB : Arg := ⟨ascii "b", by decide⟩

def argC : Arg := ⟨ascii "c", by decide⟩

/-- The argument `..`. -/
def argDots : Arg := ⟨ascii "..", by decide⟩

/-- What is known of the smallest volume. -/
def smallSurvey : Survey := newSurvey 10 293

theorem smallVolume_surveyed : Surveyed smallVolume smallSurvey := by
  have h := Surveyed.of_image smallVolume_created smallVolume_mounted
  have hinodes := smallVolume_totalInodes
  have hblocks : smallVolume.sb.totalDataBlocks = 293 := smallSuperBlock_totalDataBlocks
  rwa [hinodes, hblocks] at h

/-- A directory with a file that holds a block, and an empty one. -/
def sampleSession : List Cmd :=
  [.mkdir argA, .cd argA, .write argB argX, .touch argC, .cd argDots]

theorem sampleSession_run : ∃ s, Runs.Run SurveyedExec smallVolume sampleSession s ∧
    Surveyed s (sampleSession.foldl Survey.exec smallSurvey) :=
  smallVolume_surveyed.run (by decide)

end MufaFs
