import Mathlib
import SysProg.Lib.Work
import SysProg.Mufash.Pipeline

/-!
# The processes of a line

The shell goes through the commands while the children that it has forked are running already.  Each
of them has the ends of the pipes that the shell had at the `fork`, the ends of its own pipe, and closes
the write ends before it only if it reads from a pipe itself.

Of what a child does the pipes see how many pieces it reads and writes, and in which order.  A pipe
holds `cap` pieces: a child waits at a full one, and at an empty one until nobody can write to it.

* `Job`, `Job.Step`: the shell and its children, in any order of steps;
* `Job.HasWriter`, `Job.HasReader`: whether a pipe can still be written to, or read;
* `Program`, `Job.Next`: what a child does, and what it does next;
* `Job.Ok`, `Job.Flows`: what holds in each state of a line;
* `run_length_le`: the length of its runs.

A writer keeps the read end of its own pipe, and so it is never told that nobody reads it.
-/

namespace Mufash

open Runs

/-- What a child does: the pieces that it reads at most, the pieces that it writes, and whether it reads
next after so many reads and writes, if both are left. -/
structure Program where
  input : ℕ∞
  output : ℕ∞
  readsNext : ℕ → ℕ → Bool

/-- The iterations of the loop that are done, whether the shell has closed its pipes, the calls of
`waitpid` that have returned, the children that have connected themselves, that have ended and that have
come to the end of their input, the pieces that they have read and written, and those in the pipes. -/
structure Job where
  looped : ℕ
  closed : Bool
  waited : ℕ
  connected : Finset ℕ
  ended : Finset ℕ
  atEnd : Finset ℕ
  read : ℕ → ℕ
  written : ℕ → ℕ
  held : ℕ → ℕ

/-- Before the loop, when no child of an earlier line is left. -/
def Job.start : Job := ⟨0, false, 0, ∅, ∅, ∅, 0, 0, 0⟩

/-- A child takes a piece out of a pipe. -/
def Job.take (s : Job) (i k : ℕ) : Job :=
  { s with
    read := Function.update s.read i (s.read i + 1)
    held := Function.update s.held k (s.held k - 1) }

/-- A child writes a piece. -/
def Job.put (s : Job) (i : ℕ) : Job :=
  { s with written := Function.update s.written i (s.written i + 1) }

/-- A child writes a piece into a pipe. -/
def Job.putInto (s : Job) (i k : ℕ) : Job :=
  { s.put i with held := Function.update s.held k (s.held k + 1) }

@[simp] theorem Job.take_read (s : Job) (i k : ℕ) :
    (s.take i k).read = Function.update s.read i (s.read i + 1) := rfl

@[simp] theorem Job.take_held (s : Job) (i k : ℕ) :
    (s.take i k).held = Function.update s.held k (s.held k - 1) := rfl

@[simp] theorem Job.put_written (s : Job) (i : ℕ) :
    (s.put i).written = Function.update s.written i (s.written i + 1) := rfl

@[simp] theorem Job.putInto_written (s : Job) (i k : ℕ) :
    (s.putInto i k).written = Function.update s.written i (s.written i + 1) := rfl

@[simp] theorem Job.putInto_held (s : Job) (i k : ℕ) :
    (s.putInto i k).held = Function.update s.held k (s.held k + 1) := rfl

/-- The calls of a child. -/
inductive Call
  | read
  | write
  | exit

/-- The steps of the shell and of the children. -/
inductive Action
  | iterate
  | close
  | wait
  | connect (i : ℕ)
  | call (i : ℕ) (f : Call)

section Ends

variable (w : World) (cmds : List Exec) (s : Job)

/-- The child has been forked. -/
def Job.Started (c : Child) : Prop := .forked c ∈ (executes w cmds s.looped).trace

/-- The child runs its program. -/
def Job.Running (c : Child) : Prop :=
  s.Started w cmds c ∧ c.index ∈ s.connected ∧ c.index ∉ s.ended

/-- The pipes of a child at its `fork`: those of the shell and its own.  A pipe made for a command of
the shell itself is nobody's input. -/
def pipesOf (c : Child) : List ℕ := (executes w cmds (c.index + 1)).prevPipe

/-- Someone has the write end of a pipe. -/
def Job.HasWriter (k : ℕ) : Prop :=
  (s.closed = false ∧ k ∈ (executes w cmds s.looped).prevPipe) ∨
    ∃ c, s.Started w cmds c ∧ c.index ∉ s.ended ∧ k ∈ pipesOf w cmds c ∧
      (c.index ∈ s.connected → k ∉ c.closed)

/-- Someone has the read end of a pipe. -/
def Job.HasReader (k : ℕ) : Prop :=
  (s.closed = false ∧ k ∈ (executes w cmds s.looped).prevPipe) ∨
    ∃ c, s.Started w cmds c ∧ c.index ∉ s.ended ∧ k ∈ pipesOf w cmds c

end Ends

section Next

variable (program : ℕ → Program) (s : Job) (c : Child)

/-- The child has something left to read.  What it reads elsewhere does not keep it. -/
def Job.ToRead : Prop :=
  (∃ k, c.stdin = .pipe k) ∧ (s.read c.index : ℕ∞) < (program c.index).input ∧ c.index ∉ s.atEnd

/-- The child has something left to write. -/
def Job.ToWrite : Prop := (s.written c.index : ℕ∞) < (program c.index).output

/-- The next call of the child. -/
def Job.Next : Call → Prop
  | .read => s.ToRead program c ∧ (s.ToWrite program c →
      (program c.index).readsNext (s.read c.index) (s.written c.index) = true)
  | .write => s.ToWrite program c ∧ (s.ToRead program c →
      (program c.index).readsNext (s.read c.index) (s.written c.index) = false)
  | .exit => ¬s.ToRead program c ∧ ¬s.ToWrite program c

/-- A child has a next call. -/
theorem Job.exists_next : ∃ f, s.Next program c f := by
  by_cases hread : s.ToRead program c
  · by_cases hwrite : s.ToWrite program c
    · cases hnext : (program c.index).readsNext (s.read c.index) (s.written c.index) with
      | true => exact ⟨.read, hread, fun _ => hnext⟩
      | false => exact ⟨.write, hwrite, fun _ => hnext⟩
    · exact ⟨.read, hread, fun h => absurd h hwrite⟩
  · by_cases hwrite : s.ToWrite program c
    · exact ⟨.write, hwrite, fun h => absurd h hread⟩
    · exact ⟨.exit, hread, hwrite⟩

end Next

/-- One step.  A call of `waitpid` names no process, and so it returns when some child has ended that
has not been waited for, or when there is none.  A write that nobody can read ends its child. -/
inductive Job.Step (w : World) (cmds : List Exec) (cap : ℕ) (program : ℕ → Program) :
    Job → Action → Job → Prop
  | iterate {s : Job} : s.looped < cmds.length →
      Step w cmds cap program s .iterate { s with looped := s.looped + 1 }
  | close {s : Job} : s.looped = cmds.length → s.closed = false →
      Step w cmds cap program s .close { s with closed := true }
  | wait {s : Job} : s.closed = true → s.waited < (waits cmds).length →
      (s.waited < s.ended.card ∨ ∀ c, s.Started w cmds c → c.index ∈ s.ended) →
      Step w cmds cap program s .wait { s with waited := s.waited + 1 }
  | connect {s : Job} {c : Child} : s.Started w cmds c → c.index ∉ s.connected →
      Step w cmds cap program s (.connect c.index)
        { s with connected := insert c.index s.connected }
  | read {s : Job} {c : Child} {k : ℕ} : s.Running w cmds c → s.Next program c .read →
      c.stdin = .pipe k → 0 < s.held k →
      Step w cmds cap program s (.call c.index .read) (s.take c.index k)
  | atEnd {s : Job} {c : Child} {k : ℕ} : s.Running w cmds c → s.Next program c .read →
      c.stdin = .pipe k → s.held k = 0 → ¬s.HasWriter w cmds k →
      Step w cmds cap program s (.call c.index .read) { s with atEnd := insert c.index s.atEnd }
  | write {s : Job} {c : Child} {k : ℕ} : s.Running w cmds c → s.Next program c .write →
      c.stdout = .pipe k → s.HasReader w cmds k → s.held k < cap →
      Step w cmds cap program s (.call c.index .write) (s.putInto c.index k)
  | print {s : Job} {c : Child} : s.Running w cmds c → s.Next program c .write →
      (∀ k, c.stdout ≠ .pipe k) →
      Step w cmds cap program s (.call c.index .write) (s.put c.index)
  | signal {s : Job} {c : Child} {k : ℕ} : s.Running w cmds c → s.Next program c .write →
      c.stdout = .pipe k → ¬s.HasReader w cmds k →
      Step w cmds cap program s (.call c.index .write) { s with ended := insert c.index s.ended }
  | exit {s : Job} {c : Child} : s.Running w cmds c → s.Next program c .exit →
      Step w cmds cap program s (.call c.index .exit) { s with ended := insert c.index s.ended }

/-! ### The children and their pipes -/

section Children

variable (w : World) (cmds : List Exec)

/-- The commands that are run in children. -/
def children : Finset ℕ := (Finset.range cmds.length).filter (Forked w cmds)

/-- The input of the child of a command. -/
def stdinAt (i : ℕ) : Option Input := cmds[i]?.map fun cmd => (childOf w cmds i cmd).stdin

/-- The output of the child of a command. -/
def stdoutAt (i : ℕ) : Option Output := cmds[i]?.map fun cmd => (childOf w cmds i cmd).stdout

/-- The children that read from a pipe. -/
def readers (k : ℕ) : Finset ℕ :=
  (children w cmds).filter fun j => stdinAt w cmds j = some (.pipe k)

variable {w : World} {cmds : List Exec} {cmd_line : Text} {cmd : Exec} {i j k : ℕ} {s t : Job}
  {c : Child}

theorem mem_children : i ∈ children w cmds ↔ Forked w cmds i := by
  rw [children, Finset.mem_filter, Finset.mem_range, and_iff_right_iff_imp]
  exact fun h => h.1.1

theorem card_children_le (w : World) (cmds : List Exec) : (children w cmds).card ≤ cmds.length :=
  (Finset.card_filter_le _ _).trans_eq (Finset.card_range _)

theorem mem_readers : j ∈ readers w cmds k ↔ Forked w cmds j ∧ stdinAt w cmds j = some (.pipe k) := by
  rw [readers, Finset.mem_filter, mem_children]

theorem mem_pipesBefore :
    k ∈ pipesBefore w cmds i ↔ k < i ∧ Forked w cmds k ∧ redirAt cmds k = .pipe := by
  rw [pipesBefore, List.mem_filter, List.mem_range, decide_eq_true_iff]

/-- A child that reads from a pipe reads from one before it, and has closed all of their write ends. -/
theorem closed_of_stdin (hredir : cmd.redir ≠ .redir_input)
    (h : (childOf w cmds i cmd).stdin = .pipe k) :
    k ∈ pipesBefore w cmds i ∧ (childOf w cmds i cmd).closed = pipesBefore w cmds i := by
  have hlocate : (w.locate i cmd).redir ≠ .redir_input := by
    rw [locate_redir]
    exact hredir
  unfold childOf child at h ⊢
  dsimp only at h ⊢
  rw [if_neg fun h => hlocate h.1] at h
  split_ifs at h with hconnected
  · refine ⟨?_, if_pos hconnected⟩
    cases hlast : (pipesBefore w cmds i).getLast? with
    | none =>
      rw [hlast] at h
      cases h
    | some k' =>
      rw [hlast] at h
      cases h
      exact List.mem_of_getLast? hlast

/-- A child that has a pipe before it and has not closed its write end reads from no pipe. -/
theorem stdin_of_not_closed (hredir : cmd.redir ≠ .redir_input) (hk : k ∈ pipesBefore w cmds i)
    (hclosed : k ∉ (childOf w cmds i cmd).closed) (l : ℕ) :
    (childOf w cmds i cmd).stdin ≠ .pipe l := by
  intro h
  rw [(closed_of_stdin hredir h).2] at hclosed
  exact hclosed hk

/-- What a child closes are pipes before it. -/
theorem lt_of_mem_closed (h : k ∈ (childOf w cmds i cmd).closed) : k < i := by
  unfold childOf child at h
  dsimp only at h
  split_ifs at h
  · exact (mem_pipesBefore.1 h).1
  · exact absurd h List.not_mem_nil

/-- A child that writes to a pipe writes to its own. -/
theorem own_of_stdout (hcmd : cmds[i]? = some cmd) (h : (childOf w cmds i cmd).stdout = .pipe k) :
    k = i ∧ redirAt cmds i = .pipe := by
  unfold childOf child at h
  dsimp only at h
  split_ifs at h with hfile hpipe
  cases h
  rw [locate_redir] at hpipe
  exact ⟨rfl, (redirAt_of_some hcmd).trans hpipe.1⟩

theorem mem_pipesBefore_of_stdinAt (hlex : lexer cmd_line = some cmds)
    (h : stdinAt w cmds i = some (.pipe k)) : k ∈ pipesBefore w cmds i := by
  obtain ⟨cmd, hcmd, hstdin⟩ := Option.map_eq_some_iff.1 h
  exact (closed_of_stdin (lexer_fresh hlex cmd (List.mem_of_getElem? hcmd)).redir hstdin).1

/-- The children of the first iterations. -/
theorem started_iff (hlex : lexer cmd_line = some cmds) (hm : s.looped ≤ cmds.length) :
    s.Started w cmds c ↔ ∃ i < s.looped, Forked w cmds i ∧ ∃ cmd, cmds[i]? = some cmd ∧
      c = childOf w cmds i cmd :=
  (After.executes (fun cmd hcmd => (lexer_fresh hlex cmd hcmd).built_in) hm).forked c

/-- A child is that of its command. -/
theorem Job.Started.command (h : s.Started w cmds c) (hlex : lexer cmd_line = some cmds)
    (hm : s.looped ≤ cmds.length) : c.index ∈ children w cmds ∧
      stdinAt w cmds c.index = some c.stdin ∧ stdoutAt w cmds c.index = some c.stdout := by
  obtain ⟨i, -, hforked, cmd, hcmd, rfl⟩ := (started_iff hlex hm).1 h
  refine ⟨mem_children.2 hforked, ?_, ?_⟩
  · exact Option.map_eq_some_iff.2 ⟨cmd, hcmd, rfl⟩
  · exact Option.map_eq_some_iff.2 ⟨cmd, hcmd, rfl⟩

/-- A child that writes to a pipe writes to its own. -/
theorem Job.Started.own (h : s.Started w cmds c) (hlex : lexer cmd_line = some cmds)
    (hm : s.looped ≤ cmds.length) (hstdout : c.stdout = .pipe k) :
    k = c.index ∧ redirAt cmds k = .pipe := by
  obtain ⟨i, -, -, cmd, hcmd, rfl⟩ := (started_iff hlex hm).1 h
  obtain ⟨rfl, hpipe⟩ := own_of_stdout hcmd hstdout
  exact ⟨rfl, hpipe⟩

/-- The pipes of a child are those of the forked commands up to its own. -/
theorem pipesOf_childOf (hlex : lexer cmd_line = some cmds) (hreached : Reached w cmds cmds.length)
    (hi : i < cmds.length) : pipesOf w cmds (childOf w cmds i cmd) = pipesBefore w cmds (i + 1) :=
  (After.executes (fun cmd hcmd => (lexer_fresh hlex cmd hcmd).built_in) hi).prevPipe
    fun k hk => hreached k (by omega)

theorem started_of_forked (hlex : lexer cmd_line = some cmds) (hm : s.looped ≤ cmds.length)
    (hi : i < s.looped) (hforked : Forked w cmds i) : ∃ c, s.Started w cmds c ∧ c.index = i := by
  obtain ⟨cmd, hcmd⟩ : ∃ cmd, cmds[i]? = some cmd := ⟨_, List.getElem?_eq_getElem hforked.1.1⟩
  exact ⟨childOf w cmds i cmd, (started_iff hlex hm).2 ⟨i, hi, hforked, cmd, hcmd, rfl⟩, rfl⟩

/-- **A child that has not ended has both ends of its own pipe.** -/
theorem Job.Started.ends (h : s.Started w cmds c) (hlex : lexer cmd_line = some cmds)
    (hreached : Reached w cmds cmds.length) (hm : s.looped ≤ cmds.length)
    (hended : c.index ∉ s.ended) (hpipe : redirAt cmds c.index = .pipe) :
    s.HasWriter w cmds c.index ∧ s.HasReader w cmds c.index := by
  obtain ⟨i, -, hforked, cmd, hcmd, hc⟩ := (started_iff hlex hm).1 h
  have hindex : c.index = i := congrArg Child.index hc
  have hown : c.index ∈ pipesOf w cmds c := by
    rw [hc, pipesOf_childOf hlex hreached (lt_of_some hcmd), mem_pipesBefore, ← hc, hindex]
    exact ⟨Nat.lt_succ_self i, hforked, hindex ▸ hpipe⟩
  refine ⟨Or.inr ⟨c, h, hended, hown, fun _ hclosed => ?_⟩, Or.inr ⟨c, h, hended, hown⟩⟩
  rw [hindex, hc] at hclosed
  exact lt_irrefl i (lt_of_mem_closed hclosed)

/-- Where nobody has the write end of a pipe, its writer has ended. -/
theorem ended_of_not_hasWriter (hlex : lexer cmd_line = some cmds)
    (hreached : Reached w cmds cmds.length) (hm : s.looped ≤ cmds.length) (hi : i < s.looped)
    (hk : k ∈ pipesBefore w cmds i) (h : ¬s.HasWriter w cmds k) : k ∈ s.ended := by
  by_contra hended
  obtain ⟨hki, hforked, hpipe⟩ := mem_pipesBefore.1 hk
  obtain ⟨d, hd, rfl⟩ := started_of_forked hlex hm (hki.trans hi) hforked
  exact h (hd.ends hlex hreached hm hended hpipe).1

end Children

/-! ### What holds in each state -/

/-- What the shell and its children have done so far. -/
structure Job.Ok (w : World) (cmds : List Exec) (s : Job) : Prop where
  looped : s.looped ≤ cmds.length
  closed : s.closed = true → s.looped = cmds.length
  waited : s.waited ≤ (waits cmds).length
  connected : s.connected ⊆ children w cmds
  ended : s.ended ⊆ children w cmds
  atEnd : s.atEnd ⊆ children w cmds
  reaped : s.waited ≤ s.ended.card ∨ s.closed = true ∧ children w cmds ⊆ s.ended

/-- What has gone through the pipes. -/
structure Job.Flows (w : World) (cmds : List Exec) (cap : ℕ) (program : ℕ → Program) (s : Job) :
    Prop where
  read_le : ∀ i, (s.read i : ℕ∞) ≤ (program i).input
  written_le : ∀ i, (s.written i : ℕ∞) ≤ (program i).output
  held_le : ∀ k, s.held k ≤ cap
  pipe : ∀ k, stdoutAt w cmds k = some (.pipe k) →
    s.written k = s.held k + ∑ j ∈ readers w cmds k, s.read j
  total : ∑ i ∈ children w cmds, s.read i + ∑ k ∈ children w cmds, s.held k ≤
    ∑ i ∈ children w cmds, s.written i
  finished : ∀ i ∈ s.ended, (program i).output ≤ s.written i ∧
    ∀ k, stdinAt w cmds i = some (.pipe k) → (program i).input ≤ s.read i ∨ i ∈ s.atEnd
  emptied : ∀ i ∈ s.atEnd, ∀ k, stdinAt w cmds i = some (.pipe k) → k ∈ s.ended

section Invariants

variable {w : World} {cmds : List Exec} {cmd_line : Text} {cap : ℕ} {program : ℕ → Program}
  {s t : Job} {a : Action} {c : Child} {i k : ℕ}

theorem Job.ok_start : Job.Ok w cmds .start where
  looped := Nat.zero_le _
  closed h := by cases h
  waited := Nat.zero_le _
  connected := Finset.empty_subset _
  ended := Finset.empty_subset _
  atEnd := Finset.empty_subset _
  reaped := Or.inl (Nat.zero_le _)

theorem Job.flows_start : Job.Flows w cmds cap program .start where
  read_le i := by simp [Job.start]
  written_le i := by simp [Job.start]
  held_le k := Nat.zero_le _
  pipe k _ := by simp [Job.start]
  total := by simp [Job.start]
  finished i hi := absurd hi (Finset.notMem_empty i)
  emptied i hi := absurd hi (Finset.notMem_empty i)

/-- One more child has ended. -/
theorem Job.Ok.insert_ended (h : s.Ok w cmds) (hi : i ∈ children w cmds) (hended : i ∉ s.ended) :
    Job.Ok w cmds { s with ended := insert i s.ended } := by
  refine ⟨h.looped, h.closed, h.waited, h.connected, Finset.insert_subset hi h.ended, h.atEnd, ?_⟩
  rcases h.reaped with hle | ⟨hclosed, hall⟩
  · refine Or.inl ?_
    rw [Finset.card_insert_of_notMem hended]
    exact Nat.le_succ_of_le hle
  · exact Or.inr ⟨hclosed, hall.trans (Finset.subset_insert _ _)⟩

/-- **What one step keeps.** -/
theorem Job.Ok.step (h : s.Ok w cmds) (hlex : lexer cmd_line = some cmds)
    (hstep : Job.Step w cmds cap program s a t) : t.Ok w cmds := by
  have hmem : ∀ c, s.Started w cmds c → c.index ∈ children w cmds :=
    fun c hc => (hc.command hlex h.looped).1
  cases hstep with
  | iterate hlt =>
    have hopen : s.closed ≠ true := fun hclosed => hlt.ne (h.closed hclosed)
    exact ⟨hlt, fun hclosed => absurd hclosed hopen, h.waited, h.connected, h.ended, h.atEnd,
      h.reaped.imp id fun hall => absurd hall.1 hopen⟩
  | close hlast _ =>
    exact ⟨h.looped, fun _ => hlast, h.waited, h.connected, h.ended, h.atEnd,
      h.reaped.imp id fun hall => ⟨rfl, hall.2⟩⟩
  | wait hclosed hlt hnext =>
    refine ⟨h.looped, h.closed, hlt, h.connected, h.ended, h.atEnd,
      hnext.imp id fun hall => ⟨hclosed, fun i hi => ?_⟩⟩
    have hforked := mem_children.1 hi
    obtain ⟨c, hc, rfl⟩ := started_of_forked hlex h.looped ((h.closed hclosed).symm ▸ hforked.1.1)
      hforked
    exact hall c hc
  | connect hc _ =>
    exact ⟨h.looped, h.closed, h.waited, Finset.insert_subset (hmem _ hc) h.connected, h.ended, h.atEnd,
      h.reaped⟩
  | read _ _ _ _ | write _ _ _ _ _ | print _ _ _ =>
    exact ⟨h.looped, h.closed, h.waited, h.connected, h.ended, h.atEnd, h.reaped⟩
  | atEnd hrunning _ _ _ _ =>
    exact ⟨h.looped, h.closed, h.waited, h.connected, h.ended,
      Finset.insert_subset (hmem _ hrunning.1) h.atEnd, h.reaped⟩
  | signal hrunning _ _ _ | exit hrunning _ =>
    exact h.insert_ended (hmem _ hrunning.1) hrunning.2.2

/-- One more piece of one child. -/
theorem le_update_succ (f : ℕ → ℕ) (i j : ℕ) : f j ≤ Function.update f i (f i + 1) j := by
  rcases eq_or_ne j i with rfl | hne
  · rw [Function.update_self]
    exact Nat.le_succ _
  · rw [Function.update_of_ne hne]

/-- A child with a piece left has no more than all of them after it. -/
theorem update_succ_le {f : ℕ → ℕ} {most : ℕ → ℕ∞} (hle : ∀ j, (f j : ℕ∞) ≤ most j)
    (hlt : (f i : ℕ∞) < most i) (j : ℕ) :
    ((Function.update f i (f i + 1) j : ℕ) : ℕ∞) ≤ most j := by
  rcases eq_or_ne j i with rfl | hne
  · rw [Function.update_self]
    exact Order.add_one_le_of_lt hlt
  · rw [Function.update_of_ne hne]
    exact hle j

/-- What the readers of a pipe have read, when one of them reads one more piece. -/
theorem sum_readers_take (s : Job) (hi : i ∈ readers w cmds k) (l : ℕ) :
    ∑ j ∈ readers w cmds l, (s.take i k).read j =
      ∑ j ∈ readers w cmds l, s.read j + if l = k then 1 else 0 := by
  rcases eq_or_ne l k with rfl | hne
  · have hsum := sum_update_add hi s.read (s.read i + 1)
    rw [if_pos rfl, Job.take_read]
    omega
  · -- a child reads from one pipe only
    rw [if_neg hne, Nat.add_zero]
    refine Finset.sum_congr rfl fun j hj => Function.update_of_ne (fun hji => hne ?_) _ _
    have hl := (mem_readers.1 hj).2
    rw [hji, (mem_readers.1 hi).2] at hl
    cases hl
    rfl

/-- A piece that is read leaves the pipe. -/
theorem Job.Flows.take (h : s.Flows w cmds cap program) (hlex : lexer cmd_line = some cmds)
    (hi : i ∈ readers w cmds k) (hlt : (s.read i : ℕ∞) < (program i).input) (hheld : 0 < s.held k) :
    (s.take i k).Flows w cmds cap program := by
  obtain ⟨hforked, hstdin⟩ := mem_readers.1 hi
  have hk : k ∈ children w cmds :=
    mem_children.2 (mem_pipesBefore.1 (mem_pipesBefore_of_stdinAt hlex hstdin)).2.1
  constructor
  case read_le => exact update_succ_le h.read_le hlt
  case written_le => exact h.written_le
  case held_le =>
    intro l
    rcases eq_or_ne l k with rfl | hne
    · rw [Job.take_held, Function.update_self]
      exact (Nat.sub_le _ _).trans (h.held_le l)
    · rw [Job.take_held, Function.update_of_ne hne]
      exact h.held_le l
  case pipe =>
    intro l hl
    have hpipe := h.pipe l hl
    rw [sum_readers_take s hi, Job.take_held]
    rcases eq_or_ne l k with rfl | hne
    · rw [Function.update_self, if_pos rfl]
      show s.written l = _
      omega
    · rw [Function.update_of_ne hne, if_neg hne]
      exact hpipe
  case total =>
    have hread := sum_update_add (mem_children.2 hforked) s.read (s.read i + 1)
    have hpipe := sum_update_add hk s.held (s.held k - 1)
    have htotal := h.total
    simp only [Job.take]
    omega
  case finished =>
    intro j hj
    obtain ⟨hwritten, hread⟩ := h.finished j hj
    refine ⟨hwritten, fun l hl => (hread l hl).imp_left fun hle => ?_⟩
    exact hle.trans (Nat.cast_le.2 (le_update_succ s.read i j))
  case emptied => exact h.emptied

/-- A piece that is written elsewhere is in no pipe. -/
theorem Job.Flows.put (h : s.Flows w cmds cap program) (hi : i ∈ children w cmds)
    (hstdout : stdoutAt w cmds i ≠ some (.pipe i)) (hlt : (s.written i : ℕ∞) < (program i).output) :
    (s.put i).Flows w cmds cap program := by
  constructor
  case read_le => exact h.read_le
  case written_le => exact update_succ_le h.written_le hlt
  case held_le => exact h.held_le
  case pipe =>
    intro k hk
    have hne : k ≠ i := fun hki => hstdout (hki ▸ hk)
    rw [Job.put_written, Function.update_of_ne hne]
    exact h.pipe k hk
  case total =>
    have hsum := sum_update_add hi s.written (s.written i + 1)
    have htotal := h.total
    simp only [Job.put]
    omega
  case finished =>
    exact fun j hj => (h.finished j hj).imp_left
      fun hle => hle.trans (Nat.cast_le.2 (le_update_succ s.written i j))
  case emptied => exact h.emptied

/-- A piece that is written into a pipe stays there. -/
theorem Job.Flows.putInto (h : s.Flows w cmds cap program) (hi : i ∈ children w cmds)
    (hlt : (s.written i : ℕ∞) < (program i).output) (hheld : s.held i < cap) :
    (s.putInto i i).Flows w cmds cap program := by
  constructor
  case read_le => exact h.read_le
  case written_le => exact update_succ_le h.written_le hlt
  case held_le =>
    intro k
    rcases eq_or_ne k i with rfl | hne
    · rw [Job.putInto_held, Function.update_self]
      exact hheld
    · rw [Job.putInto_held, Function.update_of_ne hne]
      exact h.held_le k
  case pipe =>
    intro k hk
    have hpipe := h.pipe k hk
    rw [Job.putInto_written, Job.putInto_held]
    rcases eq_or_ne k i with rfl | hne
    · rw [Function.update_self, Function.update_self, hpipe]
      exact Nat.add_right_comm _ _ _
    · rw [Function.update_of_ne hne, Function.update_of_ne hne]
      exact hpipe
  case total =>
    have hwritten := sum_update_add hi s.written (s.written i + 1)
    have hsum := sum_update_add hi s.held (s.held i + 1)
    have htotal := h.total
    simp only [Job.putInto, Job.put]
    omega
  case finished =>
    exact fun j hj => (h.finished j hj).imp_left
      fun hle => hle.trans (Nat.cast_le.2 (le_update_succ s.written i j))
  case emptied => exact h.emptied

/-- **What one step keeps of the pipes.**  No child is told that nobody reads its output. -/
theorem Job.Flows.step (h : s.Flows w cmds cap program) (hok : s.Ok w cmds)
    (hlex : lexer cmd_line = some cmds) (hreached : Reached w cmds cmds.length)
    (hstep : Job.Step w cmds cap program s a t) : t.Flows w cmds cap program := by
  cases hstep with
  | iterate _ | close _ _ | wait _ _ _ | connect _ _ =>
    exact ⟨h.read_le, h.written_le, h.held_le, h.pipe, h.total, h.finished, h.emptied⟩
  | read hrunning hnext hstdin hheld =>
    obtain ⟨hmem, hat, -⟩ := hrunning.1.command hlex hok.looped
    have hreader := mem_readers.2 ⟨mem_children.1 hmem, hstdin ▸ hat⟩
    exact h.take hlex hreader hnext.1.2.1 hheld
  | @atEnd c k hrunning hnext hstdin hheld hwriter =>
    obtain ⟨-, hat, -⟩ := hrunning.1.command hlex hok.looped
    refine ⟨h.read_le, h.written_le, h.held_le, h.pipe, h.total, fun i hi => ?_, fun i hi l hl => ?_⟩
    · exact (h.finished i hi).imp id fun hdone l hl =>
        (hdone l hl).imp id (Finset.mem_insert_of_mem ·)
    · rcases Finset.mem_insert.1 hi with rfl | hi
      · rw [hat, hstdin] at hl
        cases hl
        rw [hstdin] at hat
        obtain ⟨i, hlooped, -, cmd, -, hc⟩ := (started_iff hlex hok.looped).1 hrunning.1
        have hindex : c.index = i := congrArg Child.index hc
        exact ended_of_not_hasWriter hlex hreached hok.looped (hindex ▸ hlooped)
          (mem_pipesBefore_of_stdinAt hlex hat) hwriter
      · exact h.emptied i hi l hl
  | write hrunning hnext hstdout _ hheld =>
    obtain ⟨hmem, -, -⟩ := hrunning.1.command hlex hok.looped
    obtain ⟨rfl, -⟩ := hrunning.1.own hlex hok.looped hstdout
    exact h.putInto hmem hnext.1 hheld
  | print hrunning hnext hstdout =>
    obtain ⟨hmem, -, hat⟩ := hrunning.1.command hlex hok.looped
    refine h.put hmem (fun hpipe => ?_) hnext.1
    rw [hat] at hpipe
    exact hstdout _ (Option.some.inj hpipe)
  | signal hrunning _ hstdout hreader =>
    obtain ⟨rfl, hpipe⟩ := hrunning.1.own hlex hok.looped hstdout
    exact absurd (hrunning.1.ends hlex hreached hok.looped hrunning.2.2 hpipe).2 hreader
  | @exit c hrunning hnext =>
    obtain ⟨-, hat, -⟩ := hrunning.1.command hlex hok.looped
    refine ⟨h.read_le, h.written_le, h.held_le, h.pipe, h.total, fun i hi => ?_, fun i hi l hl =>
      Finset.mem_insert_of_mem (h.emptied i hi l hl)⟩
    rcases Finset.mem_insert.1 hi with rfl | hi
    · refine ⟨not_lt.1 hnext.2, fun k hk => ?_⟩
      rw [hat] at hk
      by_contra hleft
      rw [not_or, not_le] at hleft
      exact hnext.1 ⟨⟨k, Option.some.inj hk⟩, hleft.1, hleft.2⟩
    · exact h.finished i hi

/-- **Every state of a line** is as its commands and programs say. -/
theorem run_ok (hlex : lexer cmd_line = some cmds) (hreached : Reached w cmds cmds.length)
    {ls : List Action} (h : Run (Job.Step w cmds cap program) .start ls s) :
    s.Ok w cmds ∧ s.Flows w cmds cap program :=
  h.invariant (P := fun s => s.Ok w cmds ∧ s.Flows w cmds cap program)
    (fun _ _ _ hs hstep => ⟨hs.1.step hlex hstep, hs.2.step hs.1 hlex hreached hstep⟩)
    ⟨Job.ok_start, Job.flows_start⟩

/-! ### The length of runs -/

/-- The number of steps that have led to a state. -/
def Job.done (w : World) (cmds : List Exec) (s : Job) : ℕ :=
  s.looped + s.closed.toNat + s.waited + s.connected.card + s.ended.card + s.atEnd.card +
    ∑ i ∈ children w cmds, s.read i + ∑ i ∈ children w cmds, s.written i

/-- Each step is one of them. -/
theorem Job.Ok.done_step (h : s.Ok w cmds) (hlex : lexer cmd_line = some cmds)
    (hstep : Job.Step w cmds cap program s a t) : t.done w cmds = s.done w cmds + 1 := by
  have hmem : ∀ c, s.Started w cmds c → c.index ∈ children w cmds :=
    fun c hc => (hc.command hlex h.looped).1
  cases hstep with
  | iterate _ =>
    simp only [Job.done]
    omega
  | close _ hopen =>
    simp only [Job.done, hopen, Bool.toNat_true, Bool.toNat_false]
    omega
  | wait _ _ _ =>
    simp only [Job.done]
    omega
  | connect _ hconnected =>
    simp only [Job.done, Finset.card_insert_of_notMem hconnected]
    omega
  | @read c k hrunning _ _ _ =>
    have hsum := sum_update_add (hmem c hrunning.1) s.read (s.read c.index + 1)
    simp only [Job.done, Job.take]
    omega
  | atEnd _ hnext _ _ _ =>
    simp only [Job.done, Finset.card_insert_of_notMem hnext.1.2.2]
    omega
  | @write c k hrunning _ _ _ _ =>
    have hsum := sum_update_add (hmem c hrunning.1) s.written (s.written c.index + 1)
    simp only [Job.done, Job.putInto, Job.put]
    omega
  | @print c hrunning _ _ =>
    have hsum := sum_update_add (hmem c hrunning.1) s.written (s.written c.index + 1)
    simp only [Job.done, Job.put]
    omega
  | signal hrunning _ _ _ | exit hrunning _ =>
    simp only [Job.done, Finset.card_insert_of_notMem hrunning.2.2]
    omega

theorem waits_length_le (cmds : List Exec) : (waits cmds).length ≤ cmds.length := by
  rw [waits, List.length_map]
  exact (List.takeWhile_prefix _).length_le

/-- A line takes a few steps for each command, and two for each piece that is written. -/
theorem run_length_le (hlex : lexer cmd_line = some cmds) (hreached : Reached w cmds cmds.length)
    {ls : List Action} (h : Run (Job.Step w cmds cap program) .start ls s) :
    (ls.length : ℕ∞) ≤ 5 * cmds.length + 1 + 2 * ∑ i ∈ children w cmds, (program i).output := by
  obtain ⟨hok, hflows⟩ := run_ok hlex hreached h
  have hsteps := h.with_invariant (fun _ _ _ hok hstep => Job.Ok.step hok hlex hstep) Job.ok_start
  have hcount := hsteps.count (f := Job.done w cmds)
    fun _ _ _ hstep => hstep.2.done_step hlex hstep.1
  have hstart : Job.start.done w cmds = 0 := by simp [Job.done, Job.start]
  have hdone : s.done w cmds ≤ 5 * cmds.length + 1 + 2 * ∑ i ∈ children w cmds, s.written i := by
    have hcard := card_children_le w cmds
    have hconnected := Finset.card_le_card hok.connected
    have hended := Finset.card_le_card hok.ended
    have hatEnd := Finset.card_le_card hok.atEnd
    have hlooped := hok.looped
    have hwaited := hok.waited.trans (waits_length_le cmds)
    have htotal := hflows.total
    have hclosed := Bool.toNat_le s.closed
    simp only [Job.done]
    omega
  have hwritten : ((∑ i ∈ children w cmds, s.written i : ℕ) : ℕ∞) ≤
      ∑ i ∈ children w cmds, (program i).output := by
    rw [Nat.cast_sum]
    exact Finset.sum_le_sum fun i _ => hflows.written_le i
  calc (ls.length : ℕ∞) ≤ ((5 * cmds.length + 1 + 2 * ∑ i ∈ children w cmds, s.written i : ℕ) : ℕ∞) :=
        Nat.cast_le.2 (by omega)
    _ = 5 * cmds.length + 1 + 2 * ((∑ i ∈ children w cmds, s.written i : ℕ) : ℕ∞) := by push_cast; rfl
    _ ≤ _ := by gcongr

end Invariants

end Mufash
