import SysProg.MufaFs.Exhaustion
import SysProg.MufaFs.Load

/-!
# The queue of inodes

`inodes_sorted` holds pointers into the vector of inodes, and `comp` compares what they point to: the
queue is a heap only as long as no queued record changes its `type` or its `self`.  `init` pushes
every inode when its slot has been read, `find_inode` pops one, `mkdir` alone pushes one back.

* `OrderedQueue`: what `find_inode` relies on; `Inv.orderedQueue`: it follows from the invariant;
* `KeepsKeys`: what is queued before and after has the same key;
* `QueueStep`: a step of an operation between two ordered queues that keeps the keys;
* `mounted_queue`: in every session each command is a sequence of such steps, and so is the loop of
  `init` before it.
-/

namespace MufaFs

open ByteFile FirstFit Instance Relation

/-- The comparison is a strict weak order on what is queued, nothing is queued twice, every unoccupied
inode is queued once, and the largest of them is taken first. -/
structure OrderedQueue (s : Instance) : Prop where
  weakOrder : PriorityQueue.WeakOrderOn (fun l r => comp (s.inodes l) (s.inodes r)) s.inodesSorted
  nodup : s.inodesSorted.Nodup
  count : ∀ i < s.sb.totalInodes, (s.inodes i).type = 0 → s.inodesSorted.count i = 1
  find : HasFree s → ∃ i s', s.findInode = some (i, s') ∧ LargestFree s i

/-- Inodes that are queued before and after have the same key. -/
def KeepsKeys (queue : List ℕ) (inodes : ℕ → Inode) (queue' : List ℕ) (inodes' : ℕ → Inode) :
    Prop :=
  ∀ i ∈ queue, i ∈ queue' →
    (inodes' i).type = (inodes i).type ∧ (inodes' i).self = (inodes i).self

/-- A step of an operation, from one ordered queue to another, that keeps the keys. -/
structure QueueStep (s t : Instance) : Prop where
  micro : Micro s t
  before : OrderedQueue s
  after : OrderedQueue t
  keys : KeepsKeys s.inodesSorted s.inodes t.inodesSorted t.inodes

/-! ### The operations -/

section Operations

variable {s t : Instance} {i type parent : ℕ}

theorem Inv.orderedQueue (h : Inv s) : OrderedQueue s where
  weakOrder := comp_weakOrder s.inodes s.inodesSorted
  nodup := h.queue.nodup
  count i hi hfree := List.count_eq_one_of_mem h.queue.nodup (h.queue.free_mem i hi hfree)
  find hfree := by
    obtain ⟨i, hi⟩ := hfree.exists_largest
    exact ⟨i, _, h.findInode_of_free hi, hi⟩

theorem KeepsKeys.of_eq {queue queue' : List ℕ} {inodes inodes' : ℕ → Inode}
    (htype : ∀ i, (inodes' i).type = (inodes i).type)
    (hself : ∀ i, (inodes' i).self = (inodes i).self) : KeepsKeys queue inodes queue' inodes' :=
  fun i _ _ => ⟨htype i, hself i⟩

theorem purged_self (k : ℕ) : ((purged s i).inodes k).self = (s.inodes k).self := by
  by_cases hk : k = i
  · subst hk; rw [purged_inodes_self]
  · rw [purged_inodes_of_ne hk]

theorem Rewrite.self (h : Inv s) (hr : Rewrite s t) (k : ℕ) :
    (t.inodes k).self = (s.inodes k).self := by
  cases hr with
  | write _ _ ht =>
    obtain ⟨-, rfl⟩ := h.writeFile_eq_some ht
    exact written_self k
  | purge _ _ ht =>
    rw [h.purgeFileContents_eq] at ht
    cases ht
    exact purged_self k

/-- The inode that is claimed has left the queue. -/
theorem QueueOk.keepsKeys_claimed (h : QueueOk s) :
    KeepsKeys s.inodesSorted s.inodes (claimed s i type parent).inodesSorted
      (claimed s i type parent).inodes := by
  intro k _ hk
  have hki : k ≠ i := by
    rintro rfl
    exact h.nodup.not_mem_erase hk
  rw [claimed_inodes_of_ne hki]
  exact ⟨rfl, rfl⟩

/-- **No step changes the key of a queued inode.** -/
theorem Micro.keepsKeys (h : Inv s) (hm : Micro s t) :
    KeepsKeys s.inodesSorted s.inodes t.inodesSorted t.inodes := by
  cases hm with
  | claimDir hfind _ =>
    rw [claimDir_eq hfind]
    exact h.queue.keepsKeys_claimed
  | claimFile hfind _ =>
    rw [claimFile_eq hfind]
    exact h.queue.keepsKeys_claimed
  | rewrite hr => exact .of_eq (hr.type h) (hr.self h)
  | commit _ => exact .of_eq (fun _ => rfl) fun _ => rfl
  | push _ _ => exact .of_eq (fun _ => rfl) fun _ => rfl
  | enter _ ht =>
    obtain ⟨_, -, rfl⟩ := cdNode_eq_some ht
    exact .of_eq (fun _ => rfl) fun _ => rfl
  | report d => exact .of_eq (fun _ => rfl) fun _ => rfl

theorem Inv.queueStep (h : Inv s) (hm : Micro s t) : QueueStep s t :=
  ⟨hm, h.orderedQueue, (h.micro hm).orderedQueue, hm.keepsKeys h⟩

theorem Inv.queueSteps (h : Inv s) (hm : ReflTransGen Micro s t) : ReflTransGen QueueStep s t := by
  induction hm with
  | refl => exact .refl
  | tail hstar hlast ih => exact ih.tail ((h.star hstar).queueStep hlast)

end Operations

/-! ### The loop of `init` -/

section Loop

variable {marking : Marking} {drive : File} {sb : SuperBlock} {bitmap : ℕ → Bool} {m : ℕ}
  {st st' : LoopState}

/-- A turn that completes pushes its inode, and leaves the records before it as they are. -/
theorem initStepWith_eq_some (h : initStepWith marking drive sb st m = some st') :
    st'.2.2 = m :: st.2.2 ∧ ∀ k < m, st'.1 k = st.1 k := by
  obtain ⟨table, bitmap, queue⟩ := st
  simp only [initStepWith] at h
  split_ifs at h with hshort htype
  · cases h
    exact ⟨rfl, fun k hk => (Function.update_of_ne hk.ne _ _).trans (loadSlot_of_lt hk)⟩
  · obtain ⟨bitmap', -, h⟩ := Option.bind_eq_some_iff.1 h
    cases h
    exact ⟨rfl, fun k hk => loadSlot_of_lt hk⟩

theorem initLoop_queue (h : initLoop marking drive sb bitmap m = some st) :
    st.2.2 = (List.range m).reverse := by
  induction m generalizing st with
  | zero =>
    cases h
    rfl
  | succ m ih =>
    rw [initLoop_succ] at h
    obtain ⟨st₁, hst₁, hturn⟩ := Option.bind_eq_some_iff.1 h
    rw [(initStepWith_eq_some hturn).1, ih hst₁, List.range_succ, List.reverse_append]
    rfl

/-- No turn changes what has been pushed before. -/
theorem initLoop_keepsKeys (h : initLoop marking drive sb bitmap m = some st)
    (h' : initLoop marking drive sb bitmap (m + 1) = some st') :
    st.2.2 = (List.range m).reverse ∧ KeepsKeys st.2.2 st.1 st'.2.2 st'.1 := by
  have hqueue := initLoop_queue h
  rw [initLoop_succ, h] at h'
  refine ⟨hqueue, fun k hk _ => ?_⟩
  rw [hqueue, List.mem_reverse, List.mem_range] at hk
  rw [(initStepWith_eq_some h').2 k hk]
  exact ⟨rfl, rfl⟩

end Loop

/-- **The queue in a session.** The loop of `init` pushes every inode once, and changes nothing that is
queued. After any commands that complete, the queue is ordered, and one more command is a sequence of
steps between ordered queues that change no key of a queued inode. -/
theorem mounted_queue {name : List Byte} {size : ℕ} {next : UInt16} {img : File}
    {s₀ s : Instance} {cs : List Cmd} (himg : createDriveImage name size next = some img)
    (hmount : mount img = some s₀) (hrun : Runs.Run Exec s₀ cs s) :
    (∀ bitmap m st st', initLoop markArray img (readSuperblock img) bitmap m = some st →
      initLoop markArray img (readSuperblock img) bitmap (m + 1) = some st' →
        st.2.2 = (List.range m).reverse ∧ KeepsKeys st.2.2 st.1 st'.2.2 st'.1) ∧
    OrderedQueue s ∧ ∀ c t, Exec s c t → ReflTransGen QueueStep s t := by
  have hinv : Inv s := (Inv.of_image himg hmount).run hrun
  exact ⟨fun _ _ _ _ h h' => initLoop_keepsKeys h h', hinv.orderedQueue,
    fun _ _ hc => hinv.queueSteps (hinv.exec_star hc)⟩

/-- After `touch a` on a new volume of the smallest size. -/
theorem mounted_queue_touched : OrderedQueue touchedVolume ∧
    ∀ c t, Exec touchedVolume c t → ReflTransGen QueueStep touchedVolume t :=
  (mounted_queue smallVolume_created smallVolume_mounted (.cons touchedVolume_exec (.nil _))).2

end MufaFs
