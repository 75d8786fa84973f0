import SysProg.MufaFs.Mount

/-!
# Sessions and reachable states

* `Session s`: an image was made and mounted, and commands have led to `s`;
* `Moment u`: a state that a session passes through, inside of a command or between commands;
* `Reachable s`: the same as `Session`, with remounts of the drive in between.  A remount is allowed
  while no slot lists a data block: the bitmap that `init` builds leaves out the first block of
  every inode.
-/

namespace MufaFs

open ByteFile FirstFit Instance Relation

/-- The states between the commands of a session on a new volume. -/
def Session (s : Instance) : Prop :=
  ∃ name size next img s₀ cs, createDriveImage name size next = some img ∧
    mount img = some s₀ ∧ Runs.Run Exec s₀ cs s

/-- The states that a session passes through. `Inv.exec_star` takes a command apart into the steps
of `Micro`, so these are all states in which an operation calls another one. -/
def Moment (u : Instance) : Prop := ∃ s, Session s ∧ ReflTransGen Micro s u

/-- No slot on the drive lists a data block, and neither does the root in memory. -/
structure NoBlocksListed (s : Instance) : Prop where
  slots : ∀ i < s.sb.totalInodes, ∀ j, (slotInode s.drive s.sb i).dataBlocks j = 0
  root : ∀ j, (s.inodes 0).dataBlocks j = 0

/-- The states between the commands of a mounted volume, over several sessions. -/
inductive Reachable : Instance → Prop
  | mount {name : List Byte} {size : ℕ} {next : UInt16} {img : File} {s : Instance} :
      createDriveImage name size next = some img → MufaFs.mount img = some s → Reachable s
  | exec {s t : Instance} {c : Cmd} : Reachable s → Exec s c t → Reachable t
  | remount {s t : Instance} : Reachable s → NoBlocksListed s → MufaFs.mount s.drive = some t →
      Reachable t

section Invariant

variable {s t u : Instance}

theorem Session.inv (h : Session s) : Inv s := by
  obtain ⟨_, _, _, img, s₀, cs, himg, hmount, hrun⟩ := h
  exact (Inv.of_image himg hmount).run hrun

theorem Moment.inv (h : Moment u) : Inv u := by
  obtain ⟨s, hs, hstar⟩ := h
  exact hs.inv.star hstar

theorem Session.reachable (h : Session s) : Reachable s := by
  obtain ⟨_, _, _, img, s₀, cs, himg, hmount, hrun⟩ := h
  exact hrun.invariant (fun _ _ _ hs hc => .exec hs hc) (.mount himg hmount)

/-- A remount keeps the invariant, as long as no blocks are listed. -/
theorem Inv.remount (h : Inv s) (hnone : NoBlocksListed s) (ht : mount s.drive = some t) :
    Inv t := by
  have hf := h.formatted
  have h10 := hf.totalInodes
  rw [mount, h.slots.superblock] at ht
  have hroot : (fresh s.drive s.sb (slotInode s.drive s.sb) emptyBitmap).inodes 0 = rootInode :=
    loaded_root (h.slots.slotInode_root hf) (by omega)
  have hblocks : (s.inodes 0).dataBlocks = fun _ => 0 := funext hnone.root
  have hsame : (fresh s.drive s.sb (slotInode s.drive s.sb) emptyBitmap).getDirEntry 0 =
      s.getDirEntry 0 := by
    refine getDirEntry_congr rfl ?_ ?_ fun _ _ => rfl
    · rw [hroot, h.table.root_self]
      rfl
    · rw [hroot, hblocks]
      rfl
  exact Inv.of_init (h.slots.slotInode_root hf) hnone.slots hf h.slots_slotInode
    (fun i h0 hi => h.slots.slotInode hf h0 hi) h.slots.superblock
    (h.owned.covered 0 0 h.table.root_holds)
    (fun dir hdir => h.listings 0 (by omega) dir (hsame ▸ hdir)) ht

/-- **The invariant holds in every reachable state.** -/
theorem Reachable.inv (h : Reachable s) : Inv s := by
  induction h with
  | mount himg hmount => exact Inv.of_image himg hmount
  | exec _ hc ih => exact ih.exec hc
  | remount _ hnone ht ih => exact ih.remount hnone ht

end Invariant

/-! ### The smallest volume -/

/-- The superblock of a drive of 76 KB, the smallest size that the diagnostic of `createDriveImage`
names. -/
def smallSuperBlock : SuperBlock := newSuperBlock (ascii "v") 77824 0

/-- A new volume on such a drive. -/
def smallVolume : Instance := newInstance (formatDrive smallSuperBlock 77824) smallSuperBlock

theorem smallSuperBlock_totalInodes : smallSuperBlock.totalInodes = 10 := by
  show (77824 + 2 ^ 64 - 80) % 2 ^ 64 / 256 / 30 = 10
  norm_num

theorem smallSuperBlock_totalDataBlocks : smallSuperBlock.totalDataBlocks = 293 := by
  show (77824 + 2 ^ 64 - 80) % 2 ^ 64 / 256 - (77824 + 2 ^ 64 - 80) % 2 ^ 64 / 256 / 30 = 293
  norm_num

theorem smallVolume_created :
    createDriveImage (ascii "v") 77824 0 = some (formatDrive smallSuperBlock 77824) := by
  have h : ¬smallSuperBlock.totalInodes < 10 := Nat.not_lt.2 smallSuperBlock_totalInodes.ge
  rw [createDriveImage]
  exact if_neg h

theorem smallVolume_mounted :
    mount (formatDrive smallSuperBlock 77824) = some smallVolume :=
  mount_image smallVolume_created (by norm_num)

theorem smallVolume_session : Session smallVolume :=
  ⟨_, _, _, _, _, [], smallVolume_created, smallVolume_mounted, .nil _⟩

end MufaFs
