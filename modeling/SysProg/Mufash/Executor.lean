import SysProg.Mufash.Lexer

/-!
# The executor of `mufash`

The loop of `main` over the commands of a line, and the loop that waits for them.  The shell runs `cd`,
`pause` and `quit` itself and forks for everything else; a forked command that is marked `>` or `>>`
makes the loop skip the next command, whose name is the name of the file.

A pipe is named by the command that it was made for.  `fork`, `pipe`, `dup2` and `open` succeed.  What
the loop asks of the system, and what it cannot see, is a `World`.

* `execute`, `executes`: one iteration, and the first iterations;
* `runLine`: the line, up to the next prompt or the end of the shell;
* `Reached`, `Skipped`, `Forked`: the same from the commands alone;
* `After.executes`: the loop after its first iterations, in these terms.
-/

namespace Mufash

/-! ### Built-in commands -/

/-- `enum class command`. -/
inductive BuiltInCommand
  | cd
  | clr
  | ls
  | environ
  | echo
  | help
  | pause
  | quit
  deriving DecidableEq

/-- `is_parent`: whether the shell runs the command itself. -/
def isParent : BuiltInCommand → Bool
  | .cd | .pause | .quit => true
  | .clr | .ls | .environ | .echo | .help => false

/-- `built_in_commands`. -/
def builtInCommands : List (Text × BuiltInCommand) :=
  [("cd".toList, .cd), ("clr".toList, .clr), ("dir".toList, .ls), ("ls".toList, .ls),
    ("environ".toList, .environ), ("echo".toList, .echo), ("help".toList, .help),
    ("pause".toList, .pause), ("quit".toList, .quit), ("exit".toList, .quit)]

/-- The entry of a command in `built_in_commands`. -/
def Exec.builtIn? (cmd : Exec) : Option BuiltInCommand := builtInCommands.lookup cmd.executable_path

/-- A command that the shell runs itself. -/
def Exec.inShell (cmd : Exec) : Bool := cmd.builtIn?.any isParent

/-- What the shell gets from its environment while it comes to command `i`. -/
structure World where
  /-- `HOME` -/
  home : Text
  /-- whether a `pause` comes to the end of an input line -/
  enter : ℕ → Bool
  realpath : ℕ → Text → Option Text
  /-- the entry of the map `executables`, empty if there is none -/
  executables : Text → Text
  /-- `fs::absolute` -/
  absolute : ℕ → Text → Text
  /-- `fork` -/
  pid : ℕ → ℕ
  pid_pos : ∀ i, 0 < pid i
  pid_injective : Function.Injective pid

/-- Whether `built_in_func` comes back when the shell runs command `i`. `quit` exits, and `cd` replaces
the `~` of a path: without one `std::string::replace` throws, and nothing catches it. -/
def World.returns (w : World) (i : ℕ) (cmd : Exec) : Bool :=
  match cmd.builtIn? with
  | some .cd =>
      let argv := if cmd.args.length - 1 = 0 then cmd.args ++ [w.home] else cmd.args
      (argv.getD 1 []).contains '~'
  | some .pause => w.enter i
  | some .quit => false
  | _ => true

/-- The copy of command `i`, with `built_in` or the path set. -/
def World.locate (w : World) (i : ℕ) (cmd : Exec) : Exec :=
  if cmd.builtIn?.isSome then { cmd with built_in := true }
  else { cmd with executable_path :=
          (w.realpath i cmd.executable_path).getD (w.executables cmd.executable_path) }

/-! ### Children -/

/-- Where a child reads from. -/
inductive Input
  | shell
  | pipe (i : ℕ)
  | file (path : Text)
  deriving DecidableEq

/-- Where a child writes to. -/
inductive Output
  | shell
  | pipe (i : ℕ)
  | file (path : Text) (append : Bool)
  deriving DecidableEq

/-- A child, as it runs `built_in_func` or `execv`. -/
structure Child where
  index : ℕ
  pid : ℕ
  path : Text
  args : List Text
  built_in : Bool
  stdin : Input
  stdout : Output
  /-- the pipes whose write end it has closed -/
  closed : List ℕ
  deriving DecidableEq

/-- `cmds[i].redir`. -/
def redirAt (cmds : List Exec) (i : ℕ) : Redirection := (cmds[i]?.map Exec.redir).getD .none

/-- The child of command `i`, with the variables `prev_pipe` and `pipe_disconnected` at the `fork`. -/
def child (w : World) (cmds : List Exec) (prevPipe : List ℕ) (pipeDisconnected : Bool) (i : ℕ)
    (cmd : Exec) : Child :=
  let connected := !pipeDisconnected && !prevPipe.isEmpty
  let last := i + 1 = cmds.length
  let ap := w.absolute i ((cmds[i + 1]?.map Exec.executable_path).getD [])
  { index := i
    pid := w.pid i
    path := cmd.executable_path
    args := cmd.args
    built_in := cmd.built_in
    stdin :=
      if cmd.redir = .redir_input ∧ ¬last then .file ap
      else if connected then (prevPipe.getLast?.map Input.pipe).getD .shell else .shell
    stdout :=
      if (cmd.redir = .redir_output ∨ cmd.redir = .append_output) ∧ ¬last then
        .file ap (cmd.redir = .append_output)
      else if cmd.redir = .pipe ∧ ¬last then .pipe i else .shell
    closed := if connected then prevPipe else [] }

/-! ### The loops -/

/-- What the shell does, one after another. -/
inductive Event
  | forked (c : Child)
  | builtIn (i : ℕ)
  | waited (pid : ℕ)
  deriving DecidableEq

/-- The variables of the loop, what it has done, and whether the shell has ended. -/
structure Executor where
  prevPipe : List ℕ
  pipeDisconnected : Bool
  skipCmd : Bool
  ended : Bool
  trace : List Event

/-- Before the loop. -/
def Executor.start : Executor := ⟨[], false, false, false, []⟩

/-- The iteration for command `i`. -/
def execute (w : World) (cmds : List Exec) (s : Executor) (i : ℕ) : Executor :=
  match cmds[i]? with
  | none => s
  | some cmd =>
      if s.ended then s
      else if s.skipCmd then { s with skipCmd := false }
      else
        let cmd := w.locate i cmd
        let s : Executor := { s with
          pipeDisconnected :=
            if i = 0 ∨ redirAt cmds (i - 1) ≠ .pipe then true
            else if s.pipeDisconnected then false else s.pipeDisconnected }
        if cmd.built_in && cmd.inShell then
          { s with trace := s.trace ++ [.builtIn i], ended := !w.returns i cmd }
        else
          { s with
            trace := s.trace ++ [.forked (child w cmds s.prevPipe s.pipeDisconnected i cmd)]
            prevPipe := if cmd.redir = .pipe then s.prevPipe ++ [i] else s.prevPipe
            skipCmd :=
              if cmd.redir = .redir_output ∨ cmd.redir = .append_output then true else s.skipCmd }

/-- The first iterations. -/
def executes (w : World) (cmds : List Exec) : ℕ → Executor
  | 0 => Executor.start
  | m + 1 => execute w cmds (executes w cmds m) m

/-- The loop over `waitpid`. The commands of the list, unlike their copies, have no `pid`. -/
def waits (cmds : List Exec) : List Event :=
  (cmds.takeWhile fun cmd => !cmd.background).map fun cmd => .waited cmd.pid

/-- The line up to the next prompt, or to the end of the shell. -/
def runLine (w : World) (cmds : List Exec) : Executor :=
  let s := executes w cmds cmds.length
  if s.ended then s else { s with trace := s.trace ++ waits cmds }

/-! ### The line without the loop -/

/-- Command `i` is marked `>` or `>>`. -/
def Redirects (cmds : List Exec) (i : ℕ) : Prop :=
  redirAt cmds i = .redir_output ∨ redirAt cmds i = .append_output

/-- Command `i` is run by the shell itself, if it is run. -/
def InShell (cmds : List Exec) (i : ℕ) : Prop := cmds[i]?.any Exec.inShell = true

instance (cmds : List Exec) : DecidablePred (Redirects cmds) := fun i =>
  inferInstanceAs (Decidable (redirAt cmds i = .redir_output ∨ redirAt cmds i = .append_output))

instance (cmds : List Exec) : DecidablePred (InShell cmds) := fun i =>
  inferInstanceAs (Decidable (cmds[i]?.any Exec.inShell = true))

/-- The number of commands directly before command `i` that are marked `>` or `>>` and are no commands
of the shell. -/
def redirectRun (cmds : List Exec) : ℕ → ℕ
  | 0 => 0
  | i + 1 => if Redirects cmds i ∧ ¬InShell cmds i then redirectRun cmds i + 1 else 0

/-- Command `i` is skipped: of such commands every second one is. -/
def Skipped (cmds : List Exec) (i : ℕ) : Prop := redirectRun cmds i % 2 = 1

instance (cmds : List Exec) : DecidablePred (Skipped cmds) := fun i =>
  inferInstanceAs (Decidable (redirectRun cmds i % 2 = 1))

/-- The shell ends with command `i`, if it comes to it. -/
def Ends (w : World) (cmds : List Exec) (i : ℕ) : Prop :=
  InShell cmds i ∧ ¬Skipped cmds i ∧ cmds[i]?.any (w.returns i) = false

instance (w : World) (cmds : List Exec) : DecidablePred (Ends w cmds) := fun i =>
  inferInstanceAs (Decidable (InShell cmds i ∧ ¬Skipped cmds i ∧ cmds[i]?.any (w.returns i) = false))

/-- The shell does not end before command `i`. -/
def Reached (w : World) (cmds : List Exec) (i : ℕ) : Prop := ∀ k < i, ¬Ends w cmds k

instance (w : World) (cmds : List Exec) : DecidablePred (Reached w cmds) := fun i =>
  inferInstanceAs (Decidable (∀ k < i, ¬Ends w cmds k))

/-- Command `i` is run, by the shell or in a child. -/
def IsRun (w : World) (cmds : List Exec) (i : ℕ) : Prop :=
  i < cmds.length ∧ Reached w cmds i ∧ ¬Skipped cmds i

instance (w : World) (cmds : List Exec) : DecidablePred (IsRun w cmds) := fun i =>
  inferInstanceAs (Decidable (i < cmds.length ∧ Reached w cmds i ∧ ¬Skipped cmds i))

/-- Command `i` is run in a child. -/
def Forked (w : World) (cmds : List Exec) (i : ℕ) : Prop := IsRun w cmds i ∧ ¬InShell cmds i

instance (w : World) (cmds : List Exec) : DecidablePred (Forked w cmds) := fun i =>
  inferInstanceAs (Decidable (IsRun w cmds i ∧ ¬InShell cmds i))

/-- The pipes of the forked commands before command `i`. -/
def pipesBefore (w : World) (cmds : List Exec) (i : ℕ) : List ℕ :=
  (List.range i).filter fun k => Forked w cmds k ∧ redirAt cmds k = .pipe

/-- The command before command `i` is not marked `|`. -/
def disconnected (cmds : List Exec) (i : ℕ) : Bool := i = 0 ∨ redirAt cmds (i - 1) ≠ .pipe

/-- The child of command `i`. -/
def childOf (w : World) (cmds : List Exec) (i : ℕ) (cmd : Exec) : Child :=
  child w cmds (pipesBefore w cmds i) (disconnected cmds i) i (w.locate i cmd)

/-- The loop after `m` iterations, from the commands alone. -/
structure After (w : World) (cmds : List Exec) (m : ℕ) (s : Executor) : Prop where
  ended : s.ended = true ↔ ¬Reached w cmds m
  skipCmd : Reached w cmds m → (s.skipCmd = true ↔ Skipped cmds m)
  prevPipe : Reached w cmds m → s.prevPipe = pipesBefore w cmds m
  forked : ∀ c, .forked c ∈ s.trace ↔
    ∃ i < m, Forked w cmds i ∧ ∃ cmd, cmds[i]? = some cmd ∧ c = childOf w cmds i cmd
  builtIn : ∀ i, .builtIn i ∈ s.trace ↔ i < m ∧ IsRun w cmds i ∧ InShell cmds i
  waited : ∀ pid, .waited pid ∉ s.trace

section Step

variable {w : World} {cmds : List Exec} {m i : ℕ} {s : Executor} {cmd : Exec}

/-- A command that is not in the table is none of the shell, wherever its path leads. -/
theorem locate_inShell (w : World) (i : ℕ) (h : cmd.built_in = false) :
    ((w.locate i cmd).built_in && (w.locate i cmd).inShell) = cmd.inShell := by
  rw [World.locate]
  split_ifs with hsome
  · rfl
  · rw [Option.not_isSome_iff_eq_none] at hsome
    simp [h, Exec.inShell, hsome]

theorem locate_returns (w : World) (i : ℕ) (h : cmd.inShell = true) :
    w.returns i (w.locate i cmd) = w.returns i cmd := by
  have hsome : cmd.builtIn?.isSome = true := by
    rw [Exec.inShell] at h
    cases hnone : cmd.builtIn? with
    | none => simp [hnone] at h
    | some b => rfl
  rw [World.locate, if_pos hsome]
  rfl

theorem locate_redir (w : World) (i : ℕ) (cmd : Exec) : (w.locate i cmd).redir = cmd.redir := by
  rw [World.locate]
  split_ifs <;> rfl

theorem reached_succ : Reached w cmds (m + 1) ↔ Reached w cmds m ∧ ¬Ends w cmds m := by
  constructor
  · exact fun h => ⟨fun k hk => h k (by omega), h m (Nat.lt_succ_self m)⟩
  · rintro ⟨h, hm⟩ k hk
    rcases Nat.lt_succ_iff_lt_or_eq.1 hk with hk | rfl
    · exact h k hk
    · exact hm

theorem pipesBefore_succ : pipesBefore w cmds (m + 1) = pipesBefore w cmds m ++
    if Forked w cmds m ∧ redirAt cmds m = .pipe then [m] else [] := by
  rw [pipesBefore, List.range_succ, List.filter_append, pipesBefore]
  congr 1
  by_cases h : Forked w cmds m ∧ redirAt cmds m = .pipe
  · rw [if_pos h, List.filter_cons_of_pos (by simpa using h), List.filter_nil]
  · rw [if_neg h, List.filter_cons_of_neg (by simpa using h), List.filter_nil]

/-- A skipped command skips no other one, and neither does a command of the shell. -/
theorem skipped_succ : Skipped cmds (m + 1) ↔
    Redirects cmds m ∧ ¬InShell cmds m ∧ ¬Skipped cmds m := by
  rw [Skipped, Skipped, redirectRun]
  split_ifs with h
  · simp only [h.1, h.2, not_false_eq_true, true_and]
    omega
  · constructor
    · intro h01
      exact absurd h01 (by norm_num)
    · exact fun h' => absurd ⟨h'.1, h'.2.1⟩ h

/-- What an iteration sets `pipe_disconnected` to, whatever it was. -/
theorem disconnected_eq (b : Bool) : (if m = 0 ∨ redirAt cmds (m - 1) ≠ .pipe then true
    else if b then false else b) = disconnected cmds m := by
  by_cases h : m = 0 ∨ redirAt cmds (m - 1) ≠ .pipe
  · rw [if_pos h, disconnected, decide_eq_true h]
  · rw [if_neg h, disconnected, decide_eq_false h]
    cases b <;> rfl

theorem redirAt_of_some (hcmd : cmds[i]? = some cmd) : redirAt cmds i = cmd.redir := by
  rw [redirAt, hcmd]
  rfl

theorem inShell_of_some (hcmd : cmds[i]? = some cmd) : InShell cmds i ↔ cmd.inShell = true := by
  rw [InShell, hcmd]
  rfl

theorem lt_of_some (hcmd : cmds[i]? = some cmd) : i < cmds.length :=
  (List.getElem?_eq_some_iff.1 hcmd).1

/-- An iteration that runs nothing. -/
theorem After.idle {t : Executor} (h : After w cmds m s) (hrun : ¬IsRun w cmds m)
    (hended : t.ended = true ↔ ¬Reached w cmds (m + 1))
    (hskip : Reached w cmds (m + 1) → (t.skipCmd = true ↔ Skipped cmds (m + 1)))
    (hpipe : t.prevPipe = s.prevPipe) (htrace : t.trace = s.trace) : After w cmds (m + 1) t := by
  refine ⟨hended, hskip, fun hreached => ?_, fun c => ?_, fun i => ?_, fun pid => ?_⟩
  · rw [hpipe, h.prevPipe (reached_succ.1 hreached).1, pipesBefore_succ,
      if_neg fun hf => hrun hf.1.1, List.append_nil]
  · rw [htrace, h.forked, Nat.exists_lt_succ_right, or_iff_left fun hf => hrun hf.1.1]
  · rw [htrace, h.builtIn]
    constructor
    · exact fun ⟨hi, hr⟩ => ⟨by omega, hr⟩
    · rintro ⟨hi, hr⟩
      refine ⟨lt_of_le_of_ne (by omega) ?_, hr⟩
      rintro rfl
      exact hrun hr.1
  · rw [htrace]
    exact h.waited pid

/-- An iteration in which the shell runs the command itself. -/
theorem After.shell {t : Executor} (h : After w cmds m s) (hrun : IsRun w cmds m)
    (hshell : InShell cmds m) (hended : t.ended = true ↔ ¬Reached w cmds (m + 1))
    (hskip : t.skipCmd = false) (hpipe : t.prevPipe = s.prevPipe)
    (htrace : t.trace = s.trace ++ [.builtIn m]) : After w cmds (m + 1) t := by
  refine ⟨hended, fun _ => ?_, fun hreached => ?_, fun c => ?_, fun i => ?_, fun pid => ?_⟩
  · rw [hskip, skipped_succ]
    exact ⟨fun e => Bool.noConfusion e, fun hs => absurd hshell hs.2.1⟩
  · rw [hpipe, h.prevPipe (reached_succ.1 hreached).1, pipesBefore_succ,
      if_neg fun hf => hf.1.2 hshell, List.append_nil]
  · rw [htrace, List.mem_append, h.forked, Nat.exists_lt_succ_right]
    refine or_congr_right ⟨fun hc => by simp at hc, fun hf => absurd hshell hf.1.2⟩
  · rw [htrace, List.mem_append, h.builtIn, List.mem_singleton, Event.builtIn.injEq]
    constructor
    · rintro (⟨hi, hr⟩ | rfl)
      · exact ⟨by omega, hr⟩
      · exact ⟨Nat.lt_succ_self i, hrun, hshell⟩
    · rintro ⟨hi, hr⟩
      rcases Nat.lt_succ_iff_lt_or_eq.1 hi with hi | rfl
      · exact Or.inl ⟨hi, hr⟩
      · exact Or.inr rfl
  · rw [htrace, List.mem_append, not_or]
    exact ⟨h.waited pid, by simp⟩

/-- An iteration that forks. -/
theorem After.fork {t : Executor} (h : After w cmds m s) (hcmd : cmds[m]? = some cmd)
    (hforked : Forked w cmds m) (hended : t.ended = false)
    (hskip : t.skipCmd = true ↔ Redirects cmds m)
    (hpipe : t.prevPipe = if redirAt cmds m = .pipe then s.prevPipe ++ [m] else s.prevPipe)
    (htrace : t.trace = s.trace ++ [.forked (childOf w cmds m cmd)]) : After w cmds (m + 1) t := by
  have hreached := hforked.1.2.1
  have hnext : Reached w cmds (m + 1) := reached_succ.2 ⟨hreached, fun he => hforked.2 he.1⟩
  refine ⟨?_, fun _ => ?_, fun _ => ?_, fun c => ?_, fun i => ?_, fun pid => ?_⟩
  · rw [hended]
    exact ⟨fun e => Bool.noConfusion e, fun hn => absurd hnext hn⟩
  · rw [hskip, skipped_succ]
    exact ⟨fun hr => ⟨hr, hforked.2, hforked.1.2.2⟩, And.left⟩
  · rw [hpipe, h.prevPipe hreached, pipesBefore_succ]
    simp only [hforked, true_and]
    split_ifs
    · rfl
    · rw [List.append_nil]
  · rw [htrace, List.mem_append, h.forked, Nat.exists_lt_succ_right, List.mem_singleton,
      Event.forked.injEq]
    refine or_congr_right ⟨fun hc => ⟨hforked, cmd, hcmd, hc⟩, ?_⟩
    rintro ⟨-, cmd', hcmd', hc⟩
    cases hcmd.symm.trans hcmd'
    exact hc
  · rw [htrace, List.mem_append, h.builtIn]
    constructor
    · rintro (⟨hi, hr⟩ | hr)
      · exact ⟨by omega, hr⟩
      · simp at hr
    · rintro ⟨hi, hr⟩
      refine Or.inl ⟨lt_of_le_of_ne (by omega) ?_, hr⟩
      rintro rfl
      exact hforked.2 hr.2
  · rw [htrace, List.mem_append, not_or]
    exact ⟨h.waited pid, by simp⟩

/-- **The step lemma.** -/
theorem After.execute (h : After w cmds m s) (hcmd : cmds[m]? = some cmd)
    (hfresh : cmd.built_in = false) : After w cmds (m + 1) (execute w cmds s m) := by
  have hshell := inShell_of_some hcmd
  rw [Mufash.execute, hcmd]
  dsimp only
  by_cases hreached : Reached w cmds m
  · have hended : s.ended = false := by
      rw [← Bool.not_eq_true, h.ended, not_not]
      exact hreached
    rw [if_neg (Bool.eq_false_iff.1 hended)]
    by_cases hskipped : Skipped cmds m
    · -- the command is skipped
      rw [if_pos ((h.skipCmd hreached).2 hskipped)]
      have hnext : Reached w cmds (m + 1) := reached_succ.2 ⟨hreached, fun he => he.2.1 hskipped⟩
      refine h.idle (fun hr => hr.2.2 hskipped) ?_ (fun _ => ?_) rfl rfl
      · show s.ended = true ↔ _
        exact h.ended.trans (not_congr ⟨fun _ => hnext, fun _ => hreached⟩)
      · rw [skipped_succ]
        exact ⟨fun e => Bool.noConfusion e, fun hs => absurd hskipped hs.2.2⟩
    · have hskip : s.skipCmd = false := by
        rw [← Bool.not_eq_true, h.skipCmd hreached]
        exact hskipped
      have hrun : IsRun w cmds m := ⟨lt_of_some hcmd, hreached, hskipped⟩
      rw [hskip, if_neg Bool.false_ne_true, locate_inShell w m hfresh]
      by_cases hin : cmd.inShell = true
      · -- the shell runs it, and ends unless it comes back
        rw [if_pos hin]
        refine h.shell hrun (hshell.2 hin) ?_ rfl rfl rfl
        show (!w.returns m (w.locate m cmd)) = true ↔ _
        rw [locate_returns w m hin, reached_succ, Ends, hcmd]
        simp [hreached, hskipped, hshell.2 hin]
      · rw [if_neg hin]
        refine h.fork hcmd ⟨hrun, fun hs => hin (hshell.1 hs)⟩ hended ?_ ?_ ?_
        · rw [locate_redir, Redirects, redirAt_of_some hcmd]
          simp
        · rw [redirAt_of_some hcmd, locate_redir]
        · dsimp only
          rw [childOf, ← h.prevPipe hreached, disconnected_eq]
  · -- the shell has ended
    rw [if_pos (h.ended.2 hreached)]
    have hnext : ¬Reached w cmds (m + 1) := fun hr => hreached (reached_succ.1 hr).1
    exact h.idle (fun hr => hreached hr.2.1)
      (h.ended.trans (not_congr ⟨fun hr => absurd hr hreached, fun hr => absurd hr hnext⟩))
      (fun hr => absurd hr hnext) rfl rfl

/-- **The run lemma.** -/
theorem After.executes (hfresh : ∀ cmd ∈ cmds, cmd.built_in = false) (hm : m ≤ cmds.length) :
    After w cmds m (executes w cmds m) := by
  induction m with
  | zero =>
    have hreached : Reached w cmds 0 := fun k hk => absurd hk (Nat.not_lt_zero k)
    refine ⟨?_, fun _ => ?_, fun _ => rfl, fun c => ?_, fun i => ?_, fun pid => ?_⟩
    · exact ⟨fun e => Bool.noConfusion e, fun hn => absurd hreached hn⟩
    · exact ⟨fun e => Bool.noConfusion e, fun hs => absurd hs (by norm_num [Skipped, redirectRun])⟩
    · simp [Mufash.executes, Executor.start]
    · simp [Mufash.executes, Executor.start]
    · simp [Mufash.executes, Executor.start]
  | succ m ih =>
    have hcmd : cmds[m]? = some cmds[m] := List.getElem?_eq_getElem hm
    exact (ih (by omega)).execute hcmd (hfresh _ (List.getElem_mem hm))

end Step

end Mufash
