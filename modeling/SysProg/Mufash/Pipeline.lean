import SysProg.Mufash.Executor
import SysProg.Mufash.Scan

/-!
# What a line of `mufash` does

The line from the commands alone, by `After.executes`.  The lexer calls no command built-in, gives none
a process and marks none `<`; the loop over `waitpid` asks it for the processes all the same.

* `wired_iff`: when the children are connected to the pipes before them;
* `targets_iff`: when no name of a file is run;
* `waits_iff`: when the shell waits for its foreground children.

`pipe_of_target`, `target_run` and `waits_zero` are lines on which it goes wrong.
-/

namespace Mufash

/-! ### The commands of the lexer -/

/-- A command as the lexer leaves it. -/
structure Exec.Fresh (cmd : Exec) : Prop where
  pid : cmd.pid = 0
  built_in : cmd.built_in = false
  redir : cmd.redir ≠ .redir_input

namespace Scanner

/-- The closed commands are fresh. -/
def Fresh (z : Scanner) : Prop := ∀ cmd ∈ z.done, cmd.Fresh

variable {z : Scanner} {c : Char}

theorem Fresh.close {redir : Redirection} {background : Bool} (h : z.Fresh)
    (hredir : redir ≠ .redir_input) : (z.close redir background).Fresh := by
  intro cmd hcmd
  rcases List.mem_append.1 hcmd with hcmd | hcmd
  · exact h cmd hcmd
  · rw [List.mem_singleton.1 hcmd]
    exact ⟨rfl, rfl, hredir⟩

theorem Fresh.split (h : z.Fresh) : z.split.Fresh := by
  rw [Fresh, split_done]
  exact h

theorem Fresh.read (h : z.Fresh) : (z.read c).Fresh := by
  unfold Scanner.read
  split_ifs
  · exact h
  · exact h.split
  · exact h.close (by decide)
  · exact h.close (by decide)
  · exact h
  · exact h.close (by decide)
  · exact h
  · exact h
  · exact h
  · exact h

theorem Fresh.step (h : z.Fresh) : (z.step c).Fresh := by
  unfold Scanner.step
  cases z.mode with
  | plain => exact h.read
  | greater =>
    dsimp only
    split_ifs
    · exact h.close (by decide)
    · exact (h.close (by decide)).read
  | escaped => exact h
  | quoted escape =>
    dsimp only
    split_ifs <;> exact h
  | comment =>
    dsimp only
    split_ifs <;> exact h

theorem Fresh.scan (h : z.Fresh) (text : Text) : (scan z text).Fresh := by
  induction text generalizing z with
  | nil => exact h
  | cons c text ih => exact ih h.step

theorem Fresh.finish (h : z.Fresh) : z.finish.Fresh := by
  unfold Scanner.finish
  cases z.mode with
  | greater => exact h.close (by decide)
  | plain | escaped | quoted escape | comment => exact h

theorem Fresh.commands (h : z.Fresh) : ∀ cmd ∈ z.commands, cmd.Fresh := by
  unfold Scanner.commands
  split_ifs
  · exact h
  · intro cmd hcmd
    rcases List.mem_append.1 hcmd with hcmd | hcmd
    · exact h cmd hcmd
    · rw [List.mem_singleton.1 hcmd]
      exact ⟨rfl, rfl, Redirection.noConfusion⟩

end Scanner

/-- Whatever the line, its commands are fresh. -/
theorem lexer_fresh {cmd_line : Text} {cmds : List Exec} (hlex : lexer cmd_line = some cmds) :
    ∀ cmd ∈ cmds, cmd.Fresh := by
  rw [lexer_eq, setPaths_eq] at hlex
  split_ifs at hlex
  have hstart : Scanner.start.Fresh := fun cmd hcmd => absurd hcmd List.not_mem_nil
  have hfresh := ((hstart.scan cmd_line).finish).commands
  intro cmd hcmd
  rw [← Option.some.inj hlex] at hcmd
  obtain ⟨cmd, hmem, rfl⟩ := List.mem_map.1 hcmd
  exact ⟨(hfresh cmd hmem).pid, (hfresh cmd hmem).built_in, (hfresh cmd hmem).redir⟩

/-! ### The trace of a line -/

section Line

variable {w : World} {cmds : List Exec} {cmd_line : Text} {cmd : Exec} {i : ℕ}

theorem runLine_trace (w : World) (cmds : List Exec) :
    (runLine w cmds).trace = (executes w cmds cmds.length).trace ++
      if (executes w cmds cmds.length).ended then [] else waits cmds := by
  rw [runLine]
  split_ifs
  · rw [List.append_nil]
  · rfl

theorem runLine_after (hlex : lexer cmd_line = some cmds) :
    After w cmds cmds.length (executes w cmds cmds.length) :=
  After.executes (fun cmd hcmd => (lexer_fresh hlex cmd hcmd).built_in) le_rfl

theorem waits_forked (c : Child) : .forked c ∉ waits cmds := by simp [waits]

theorem waits_builtIn (i : ℕ) : .builtIn i ∉ waits cmds := by simp [waits]

/-- The children of a line. -/
theorem runLine_forked (hlex : lexer cmd_line = some cmds) (c : Child) :
    .forked c ∈ (runLine w cmds).trace ↔
      ∃ i, Forked w cmds i ∧ ∃ cmd, cmds[i]? = some cmd ∧ c = childOf w cmds i cmd := by
  rw [runLine_trace, List.mem_append, (runLine_after hlex).forked, or_iff_left]
  · exact ⟨fun ⟨i, _, hi⟩ => ⟨i, hi⟩, fun ⟨i, hi⟩ => ⟨i, hi.1.1.1, hi⟩⟩
  · split_ifs
    · exact List.not_mem_nil
    · exact waits_forked c

/-- The commands that the shell runs itself. -/
theorem runLine_builtIn (hlex : lexer cmd_line = some cmds) (i : ℕ) :
    .builtIn i ∈ (runLine w cmds).trace ↔ IsRun w cmds i ∧ InShell cmds i := by
  rw [runLine_trace, List.mem_append, (runLine_after hlex).builtIn, or_iff_left]
  · exact ⟨fun h => h.2, fun h => ⟨h.1.1, h⟩⟩
  · split_ifs
    · exact List.not_mem_nil
    · exact waits_builtIn i

/-- Whether a command is run does not depend on its kind. -/
theorem runLine_index (hlex : lexer cmd_line = some cmds) (i : ℕ) :
    (.builtIn i ∈ (runLine w cmds).trace ∨ ∃ c, .forked c ∈ (runLine w cmds).trace ∧ c.index = i) ↔
      IsRun w cmds i := by
  rw [runLine_builtIn hlex]
  constructor
  · rintro (h | ⟨c, hc, rfl⟩)
    · exact h.1
    · obtain ⟨i, hforked, cmd, -, rfl⟩ := (runLine_forked hlex c).1 hc
      exact hforked.1
  · intro hrun
    by_cases hin : InShell cmds i
    · exact Or.inl ⟨hrun, hin⟩
    · obtain ⟨cmd, hcmd⟩ : ∃ cmd, cmds[i]? = some cmd := ⟨_, List.getElem?_eq_getElem hrun.1⟩
      exact Or.inr ⟨_, (runLine_forked hlex _).2 ⟨i, ⟨hrun, hin⟩, cmd, hcmd, rfl⟩, rfl⟩

end Line

/-! ### Pipes -/

/-- An environment for the lines below, in which every path is one. -/
def World.simple : World :=
  ⟨"/~".toList, fun _ => true, fun _ path => some path, fun _ => [], fun _ path => path,
    fun i => i + 1, Nat.succ_pos, Nat.succ_injective⟩

/-- A command of one word, as the lexer leaves it. -/
def Exec.word (path : String) (redir : Redirection) (background : Bool) : Exec :=
  ⟨0, path.toList, false, [path.toList], redir, background⟩

section Pipes

variable {w : World} {cmds : List Exec} {cmd_line : Text} {cmd : Exec} {i : ℕ}

/-- A child reads from the pipe of the command before it, or like the shell if there is none. -/
def Wired (cmds : List Exec) (c : Child) : Prop :=
  c.stdin = if redirAt cmds (c.index - 1) = .pipe then .pipe (c.index - 1) else .shell

instance (cmds : List Exec) : DecidablePred (Wired cmds) := fun c =>
  inferInstanceAs (Decidable (c.stdin = _))

/-- A child reads from the last pipe, whatever command it was made for. -/
theorem childOf_stdin (hredir : cmd.redir ≠ .redir_input) : (childOf w cmds (i + 1) cmd).stdin =
    if redirAt cmds i = .pipe then
      ((pipesBefore w cmds (i + 1)).getLast?.map Input.pipe).getD .shell
    else .shell := by
  have hlocate : (w.locate (i + 1) cmd).redir ≠ .redir_input := by
    rw [locate_redir]
    exact hredir
  unfold childOf child
  dsimp only
  rw [if_neg fun h => hlocate h.1]
  by_cases hpipe : redirAt cmds i = .pipe
  · rw [if_pos hpipe]
    cases hempty : pipesBefore w cmds (i + 1) with
    | nil => simp
    | cons k ks => simp [disconnected, hpipe]
  · simp [disconnected, hpipe]

/-- The last pipe is the pipe of the command before if that command has been forked. -/
theorem getLast?_pipesBefore (hpipe : redirAt cmds i = .pipe) :
    (pipesBefore w cmds (i + 1)).getLast? = some i ↔ Forked w cmds i := by
  rw [pipesBefore_succ]
  constructor
  · intro hlast
    by_contra hforked
    rw [if_neg fun h => hforked h.1, List.append_nil] at hlast
    -- the pipes are those of earlier commands
    have hmem := List.mem_of_getLast? hlast
    rw [pipesBefore, List.mem_filter, List.mem_range] at hmem
    exact lt_irrefl i hmem.1
  · intro hforked
    rw [if_pos ⟨hforked, hpipe⟩, List.getLast?_concat]

theorem wired_childOf (hredir : cmd.redir ≠ .redir_input) : Wired cmds (childOf w cmds (i + 1) cmd) ↔
    (redirAt cmds i = .pipe → Forked w cmds i) := by
  have hindex : (childOf w cmds (i + 1) cmd).index - 1 = i := rfl
  rw [Wired, hindex, childOf_stdin hredir]
  by_cases hpipe : redirAt cmds i = .pipe
  · rw [if_pos hpipe, if_pos hpipe, ← getLast?_pipesBefore hpipe]
    cases (pipesBefore w cmds (i + 1)).getLast? with
    | none => simp [hpipe]
    | some k => simp [hpipe]
  · simp [hpipe]

/-- A command behind `|` is not skipped. -/
theorem not_skipped_succ (hpipe : redirAt cmds i = .pipe) : ¬Skipped cmds (i + 1) := by
  intro hskipped
  have hredirects := (skipped_succ.1 hskipped).1
  rw [Redirects, hpipe] at hredirects
  exact absurd hredirects (by decide)

/-- **Pipelines**: the children are wired if no command behind `|` is forked after a command that is
not. -/
theorem wired_iff (w : World) (hlex : lexer cmd_line = some cmds) :
    (∀ c, .forked c ∈ (runLine w cmds).trace → 0 < c.index → Wired cmds c) ↔
      ∀ i, i + 1 < cmds.length → Reached w cmds (i + 1) → redirAt cmds i = .pipe →
        ¬InShell cmds (i + 1) → ¬InShell cmds i ∧ ¬Skipped cmds i := by
  constructor
  · intro h i hi hreached hpipe hin
    obtain ⟨cmd, hcmd⟩ : ∃ cmd, cmds[i + 1]? = some cmd := ⟨_, List.getElem?_eq_getElem hi⟩
    have hforked : Forked w cmds (i + 1) := ⟨⟨hi, hreached, not_skipped_succ hpipe⟩, hin⟩
    have hmem := (runLine_forked hlex _).2 ⟨i + 1, hforked, cmd, hcmd, rfl⟩
    have hwired := h _ hmem (Nat.succ_pos i)
    have hredir := (lexer_fresh hlex cmd (List.mem_of_getElem? hcmd)).redir
    have hbefore := (wired_childOf hredir).1 hwired hpipe
    exact ⟨hbefore.2, hbefore.1.2.2⟩
  · intro h c hc hindex
    obtain ⟨i, hforked, cmd, hcmd, rfl⟩ := (runLine_forked hlex c).1 hc
    obtain ⟨i, rfl⟩ : ∃ k, i = k + 1 := ⟨i - 1, (Nat.succ_pred_eq_of_pos hindex).symm⟩
    have hredir := (lexer_fresh hlex cmd (List.mem_of_getElem? hcmd)).redir
    refine (wired_childOf hredir).2 fun hpipe => ?_
    obtain ⟨⟨hi, hreached, -⟩, hin⟩ := hforked
    have hbefore := h i hi hreached hpipe hin
    exact ⟨⟨by omega, (reached_succ.1 hreached).1, hbefore.2⟩, hbefore.1⟩

theorem wired_pipe : ∃ cmds, lexer "ls | ls".toList = some cmds ∧
    ∀ c, .forked c ∈ (runLine World.simple cmds).trace → 0 < c.index → Wired cmds c := by
  have hlex : lexer "ls | ls".toList =
      some [Exec.word "ls" .pipe false, Exec.word "ls" .none false] := by decide
  refine ⟨_, hlex, (wired_iff World.simple hlex).2 fun i hi _ _ _ => ?_⟩
  obtain rfl : i = 0 := Nat.lt_one_iff.1 (Nat.lt_of_succ_lt_succ hi)
  decide

/-- The last command has no pipe to read from, since the name `a` is skipped. -/
theorem pipe_of_target : ∃ cmds, lexer "ls > a | ls".toList = some cmds ∧
    ∃ c, .forked c ∈ (runLine World.simple cmds).trace ∧ 0 < c.index ∧ ¬Wired cmds c := by
  refine ⟨[Exec.word "ls" .redir_output false, Exec.word "a" .pipe false, Exec.word "ls" .none false],
    by decide, _, List.mem_cons_of_mem _ List.mem_cons_self, by decide, by decide⟩

end Pipes

/-! ### Redirections -/

section Redirections

variable {cmds : List Exec} {cmd_line : Text}

/-- **Redirections**: no name of a file is run if the shell runs no command that is marked `>` or `>>`
itself, and no two of them stand next to each other. -/
theorem targets_iff (w : World) (hlex : lexer cmd_line = some cmds) :
    (∀ i, Redirects cmds i → .builtIn (i + 1) ∉ (runLine w cmds).trace ∧
        ∀ c, .forked c ∈ (runLine w cmds).trace → c.index ≠ i + 1) ↔
      ∀ i, i + 1 < cmds.length → Reached w cmds (i + 1) → Redirects cmds i →
        ¬InShell cmds i ∧ (i = 0 ∨ ¬Redirects cmds (i - 1)) := by
  have hrun : ∀ i, (.builtIn (i + 1) ∉ (runLine w cmds).trace ∧
      ∀ c, .forked c ∈ (runLine w cmds).trace → c.index ≠ i + 1) ↔ ¬IsRun w cmds (i + 1) := by
    intro i
    rw [← runLine_index hlex (i + 1), not_or, not_exists]
    simp only [not_and]
  simp only [hrun]
  constructor
  · intro h i hi hreached hredirects
    have hskipped : Skipped cmds (i + 1) := by
      by_contra hskipped
      exact h i hredirects ⟨hi, hreached, hskipped⟩
    obtain ⟨-, hin, hnot⟩ := skipped_succ.1 hskipped
    refine ⟨hin, or_iff_not_imp_left.2 fun hpos hbefore => ?_⟩
    -- otherwise command `i` is a target itself, and it is skipped
    obtain ⟨k, rfl⟩ := Nat.exists_eq_succ_of_ne_zero hpos
    exact h k hbefore ⟨by omega, (reached_succ.1 hreached).1, hnot⟩
  · rintro h i hredirects ⟨hi, hreached, hskipped⟩
    obtain ⟨hin, hbefore⟩ := h i hi hreached hredirects
    refine hskipped (skipped_succ.2 ⟨hredirects, hin, fun hnot => ?_⟩)
    rcases hbefore with rfl | hbefore
    · exact absurd hnot (by norm_num [Skipped, redirectRun])
    · cases i with
      | zero => exact absurd hnot (by norm_num [Skipped, redirectRun])
      | succ k => exact hbefore (skipped_succ.1 hnot).1

theorem target_of_command : ∃ cmds, lexer "ls > a".toList = some cmds ∧
    ∀ i, Redirects cmds i → .builtIn (i + 1) ∉ (runLine World.simple cmds).trace ∧
      ∀ c, .forked c ∈ (runLine World.simple cmds).trace → c.index ≠ i + 1 := by
  have hlex : lexer "ls > a".toList =
      some [Exec.word "ls" .redir_output false, Exec.word "a" .none false] := by decide
  refine ⟨_, hlex, (targets_iff World.simple hlex).2 fun i hi _ _ => ?_⟩
  obtain rfl : i = 0 := Nat.lt_one_iff.1 (Nat.lt_of_succ_lt_succ hi)
  decide

/-- The second name of a chain is run. -/
theorem target_run : ∃ cmds, lexer "ls > a > ls".toList = some cmds ∧
    Redirects cmds 1 ∧ ∃ c, .forked c ∈ (runLine World.simple cmds).trace ∧ c.index = 2 := by
  refine ⟨[Exec.word "ls" .redir_output false, Exec.word "a" .redir_output false,
    Exec.word "ls" .none false], by decide, by decide, _, List.mem_cons_of_mem _ List.mem_cons_self, rfl⟩

end Redirections

/-! ### Waiting -/

section Waiting

variable {w : World} {cmds : List Exec} {cmd_line : Text}

/-- The process that a call of `waitpid` names. -/
def Event.waited? : Event → Option ℕ
  | .waited pid => some pid
  | _ => none

/-- The process of a child that is not in the background. -/
def Event.foreground? (cmds : List Exec) : Event → Option ℕ
  | .forked c => if cmds[c.index]?.any Exec.background then none else some c.pid
  | _ => none

/-- A command in the background, if there is one. -/
def Background (cmds : List Exec) (i : ℕ) : Prop := cmds[i]?.all Exec.background = true

instance (cmds : List Exec) : DecidablePred (Background cmds) := fun i =>
  inferInstanceAs (Decidable (cmds[i]?.all Exec.background = true))

/-- The loop over `waitpid` ends at the first command in the background. -/
theorem filterMap_waits (cmds : List Exec) : (waits cmds).filterMap Event.waited? =
    (cmds.takeWhile fun cmd => !cmd.background).map Exec.pid := by
  rw [waits, List.filterMap_map]
  exact congrFun List.filterMap_eq_map _

theorem waits_eq_nil : (waits cmds).filterMap Event.waited? = [] ↔ Background cmds 0 := by
  rw [filterMap_waits, List.map_eq_nil_iff]
  cases cmds with
  | nil => simp [Background]
  | cons cmd cmds => simp [Background, List.takeWhile_cons]

/-- All calls name the process `0`. -/
theorem waited_eq_zero (hlex : lexer cmd_line = some cmds) {pid : ℕ}
    (hpid : .waited pid ∈ (runLine w cmds).trace) : pid = 0 := by
  rw [runLine_trace, List.mem_append] at hpid
  rcases hpid with hpid | hpid
  · exact absurd hpid ((runLine_after hlex).waited pid)
  · split_ifs at hpid
    · exact absurd hpid List.not_mem_nil
    · obtain ⟨cmd, hmem, heq⟩ := List.mem_map.1 hpid
      have hcmd : cmd ∈ cmds := (List.takeWhile_sublist _).subset hmem
      rw [← Event.waited.inj heq, (lexer_fresh hlex cmd hcmd).pid]

theorem mem_waited {trace : List Event} {pid : ℕ} :
    pid ∈ trace.filterMap Event.waited? ↔ .waited pid ∈ trace := by
  rw [List.mem_filterMap]
  constructor
  · rintro ⟨e, he, heq⟩
    cases e with
    | waited pid' =>
      cases heq
      exact he
    | forked c => cases heq
    | builtIn i => cases heq
  · exact fun h => ⟨_, h, rfl⟩

theorem mem_foreground {trace : List Event} {pid : ℕ} :
    pid ∈ trace.filterMap (Event.foreground? cmds) ↔
      ∃ c, .forked c ∈ trace ∧ ¬cmds[c.index]?.any Exec.background ∧ c.pid = pid := by
  rw [List.mem_filterMap]
  constructor
  · rintro ⟨e, he, heq⟩
    cases e with
    | forked c =>
      rw [Event.foreground?] at heq
      split_ifs at heq with h
      exact ⟨c, he, h, Option.some.inj heq⟩
    | builtIn i => cases heq
    | waited pid' => cases heq
  · rintro ⟨c, hc, h, rfl⟩
    exact ⟨_, hc, if_neg h⟩

/-- No call at all. -/
theorem waited_eq_nil (w : World) (hlex : lexer cmd_line = some cmds) :
    (runLine w cmds).trace.filterMap Event.waited? = [] ↔
      (Reached w cmds cmds.length → Background cmds 0) := by
  have hbefore : (executes w cmds cmds.length).trace.filterMap Event.waited? = [] :=
    List.eq_nil_iff_forall_not_mem.2 fun pid hpid => (runLine_after hlex).waited pid (mem_waited.1 hpid)
  have hended := (runLine_after (w := w) hlex).ended
  rw [runLine_trace, List.filterMap_append, hbefore, List.nil_append]
  by_cases hreached : Reached w cmds cmds.length
  · rw [if_neg fun h => hended.1 h hreached, waits_eq_nil]
    exact ⟨fun h _ => h, fun h => h hreached⟩
  · rw [if_pos (hended.2 hreached)]
    exact ⟨fun _ h => absurd h hreached, fun _ => rfl⟩

/-- No child in the foreground. -/
theorem foreground_eq_nil (w : World) (hlex : lexer cmd_line = some cmds) :
    (runLine w cmds).trace.filterMap (Event.foreground? cmds) = [] ↔
      ∀ i, Forked w cmds i → Background cmds i := by
  rw [List.eq_nil_iff_forall_not_mem]
  constructor
  · intro h i hforked
    obtain ⟨cmd, hcmd⟩ : ∃ cmd, cmds[i]? = some cmd := ⟨_, List.getElem?_eq_getElem hforked.1.1⟩
    by_contra hback
    rw [Background, hcmd] at hback
    refine h _ (mem_foreground.2 ⟨_, (runLine_forked hlex _).2 ⟨i, hforked, cmd, hcmd, rfl⟩, ?_, rfl⟩)
    show ¬cmds[i]?.any Exec.background
    rw [hcmd]
    exact hback
  · intro h pid hpid
    obtain ⟨c, hc, hback, -⟩ := mem_foreground.1 hpid
    obtain ⟨i, hforked, cmd, hcmd, rfl⟩ := (runLine_forked hlex c).1 hc
    have hall := h i hforked
    rw [Background, hcmd] at hall
    change ¬cmds[i]?.any Exec.background at hback
    rw [hcmd] at hback
    exact hback hall

/-- **Waiting**: the shell waits for its foreground children if it waits for nothing and has none. -/
theorem waits_iff (w : World) (hlex : lexer cmd_line = some cmds) :
    ((runLine w cmds).trace.filterMap Event.waited?).Perm
        ((runLine w cmds).trace.filterMap (Event.foreground? cmds)) ↔
      (Reached w cmds cmds.length → Background cmds 0) ∧
        ∀ i, Forked w cmds i → Background cmds i := by
  rw [← waited_eq_nil w hlex, ← foreground_eq_nil w hlex]
  constructor
  · intro hperm
    have hnil : (runLine w cmds).trace.filterMap Event.waited? = [] := by
      refine List.eq_nil_iff_forall_not_mem.2 fun pid hpid => ?_
      -- every call names `0`, and no child has that number
      obtain ⟨c, hc, -, rfl⟩ := mem_foreground.1 (hperm.mem_iff.1 hpid)
      obtain ⟨i, -, cmd, -, rfl⟩ := (runLine_forked hlex c).1 hc
      exact (w.pid_pos i).ne' (waited_eq_zero hlex (mem_waited.1 hpid))
    rw [hnil] at hperm
    exact ⟨hnil, hperm.nil_eq.symm⟩
  · rintro ⟨hwaited, hforeground⟩
    rw [hwaited, hforeground]

theorem waits_background : ∃ cmds, lexer "ls & ls &".toList = some cmds ∧
    ((runLine World.simple cmds).trace.filterMap Event.waited?).Perm
      ((runLine World.simple cmds).trace.filterMap (Event.foreground? cmds)) := by
  have hlex : lexer "ls & ls &".toList =
      some [Exec.word "ls" .none true, Exec.word "ls" .none true] := by decide
  refine ⟨_, hlex, (waits_iff World.simple hlex).2 ⟨by decide, fun i hforked => ?_⟩⟩
  have hi : i < 2 := hforked.1.1
  interval_cases i <;> decide

/-- The shell waits for the process `0`. -/
theorem waits_zero : ∃ cmds, lexer "ls".toList = some cmds ∧
    ¬((runLine World.simple cmds).trace.filterMap Event.waited?).Perm
      ((runLine World.simple cmds).trace.filterMap (Event.foreground? cmds)) :=
  ⟨[Exec.word "ls" .none false], by decide, by decide⟩

end Waiting

end Mufash
