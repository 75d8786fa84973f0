import SysProg.Mufash.Processes

/-!
# When the prompt comes back

A line that can take no more steps has an order in it: a child that waits at a full pipe waits for a
later one, its reader, and a child that waits at an empty pipe for an earlier one, its writer, or for a
later one that reads from no pipe.  Nobody reads from a full pipe in vain.

* `Served`: a child writes no more than its pipe holds and its readers take out of it;
* `Job.Stuck.not_write`, `Job.Stuck.not_read`: if all are served, nobody waits at a pipe;
* `line_returns_iff`: the prompt comes back exactly if all are served.
-/

namespace Mufash

open Runs

/-- The prompt is there again. -/
def Job.Returned (cmds : List Exec) (s : Job) : Prop :=
  s.closed = true ∧ s.waited = (waits cmds).length

/-- The prompt always comes back: the runs are bounded, and where no step is left it is there. -/
def AlwaysReturns (w : World) (cmds : List Exec) (cap : ℕ) (program : ℕ → Program) : Prop :=
  (∃ n, ∀ ls s, Run (Job.Step w cmds cap program) .start ls s → ls.length ≤ n) ∧
    ∀ ls s, Run (Job.Step w cmds cap program) .start ls s →
      (∀ a t, ¬Job.Step w cmds cap program s a t) → s.Returned cmds

/-- A child writes a finite number of pieces, and to a pipe no more than the pipe holds and its readers
take out of it. -/
def Served (w : World) (cmds : List Exec) (cap : ℕ) (program : ℕ → Program) (i : ℕ) : Prop :=
  (program i).output ≠ ⊤ ∧ (stdoutAt w cmds i = some (.pipe i) →
    (program i).output ≤ cap + ∑ j ∈ readers w cmds i, (program j).input)

/-- A state of a line in which nobody can take a step. -/
structure Job.Stuck (w : World) (cmds : List Exec) (cap : ℕ) (program : ℕ → Program) (s : Job) :
    Prop where
  ok : s.Ok w cmds
  flows : s.Flows w cmds cap program
  no_step : ∀ a t, ¬Job.Step w cmds cap program s a t

section Returns

variable {w : World} {cmds : List Exec} {cmd_line : Text} {cap : ℕ} {program : ℕ → Program}
  {s t : Job} {c : Child} {i k : ℕ}

/-! ### States without a step -/

namespace Job.Stuck

theorem looped (h : s.Stuck w cmds cap program) : s.looped = cmds.length :=
  le_antisymm h.ok.looped (Nat.le_of_not_lt fun hlt => h.no_step _ _ (.iterate hlt))

theorem closed (h : s.Stuck w cmds cap program) : s.closed = true := by
  cases hclosed : s.closed with
  | true => rfl
  | false => exact absurd (.close h.looped hclosed) (h.no_step _ _)

theorem running (h : s.Stuck w cmds cap program) (hc : s.Started w cmds c) (hended : c.index ∉ s.ended) :
    s.Running w cmds c := by
  refine ⟨hc, ?_, hended⟩
  by_contra hconnected
  exact h.no_step _ _ (.connect hc hconnected)

theorem started (h : s.Stuck w cmds cap program) (hlex : lexer cmd_line = some cmds)
    (hi : Forked w cmds i) : ∃ c, s.Started w cmds c ∧ c.index = i :=
  started_of_forked hlex h.ok.looped (h.looped.symm ▸ hi.1.1) hi

/-- A reader of the pipe of a child that has not ended has not ended either, unless it has read all that
it reads. -/
theorem reader_running (h : s.Stuck w cmds cap program) (hended : k ∉ s.ended)
    (hi : i ∈ readers w cmds k) (hlt : (s.read i : ℕ∞) < (program i).input) :
    i ∉ s.ended ∧ i ∉ s.atEnd := by
  obtain ⟨-, hstdin⟩ := mem_readers.1 hi
  have hatEnd : i ∉ s.atEnd := fun hmem => hended (h.flows.emptied i hmem k hstdin)
  refine ⟨fun hmem => ?_, hatEnd⟩
  rcases (h.flows.finished i hmem).2 k hstdin with hle | hmem
  · exact absurd hle (not_le.2 hlt)
  · exact hatEnd hmem

/-- **Nobody waits at a full pipe.**  The last child to do so would have a reader that waits at an empty
one, which is the same. -/
theorem not_write (h : s.Stuck w cmds cap program) (hlex : lexer cmd_line = some cmds)
    (hreached : Reached w cmds cmds.length) (hcap : 0 < cap)
    (hserved : ∀ i, Forked w cmds i → Served w cmds cap program i) (hc : s.Started w cmds c)
    (hended : c.index ∉ s.ended) : ¬s.Next program c .write := by
  induction hn : cmds.length - c.index using Nat.strong_induction_on generalizing c with
  | _ n ih =>
    intro hnext
    have hrunning := h.running hc hended
    obtain ⟨k, hstdout⟩ : ∃ k, c.stdout = .pipe k := by
      by_contra hnone
      exact h.no_step _ _ (.print hrunning hnext fun k hk => hnone ⟨k, hk⟩)
    obtain ⟨rfl, hpipe⟩ := hc.own hlex h.ok.looped hstdout
    obtain ⟨hmem, -, hat⟩ := hc.command hlex h.ok.looped
    have hreader := (hc.ends hlex hreached h.ok.looped hended hpipe).2
    have hfull : s.held c.index = cap := le_antisymm (h.flows.held_le _)
      (Nat.le_of_not_lt fun hlt => h.no_step _ _ (.write hrunning hnext hstdout hreader hlt))
    -- a reader of the full pipe has something left to read
    obtain ⟨j, hj, hlt⟩ : ∃ j ∈ readers w cmds c.index, (s.read j : ℕ∞) < (program j).input := by
      rw [hstdout] at hat
      refine Finset.exists_lt_of_sum_lt (lt_of_add_lt_add_left (a := (cap : ℕ∞)) ?_)
      calc (cap : ℕ∞) + ∑ j ∈ readers w cmds c.index, (s.read j : ℕ∞) = s.written c.index := by
            rw [h.flows.pipe _ hat, hfull]
            push_cast
            rfl
        _ < (program c.index).output := hnext.1
        _ ≤ _ := (hserved _ (mem_children.1 hmem)).2 hat
    obtain ⟨hforked, hstdin⟩ := mem_readers.1 hj
    obtain ⟨hjended, hjatEnd⟩ := h.reader_running hended hj hlt
    obtain ⟨d, hd, rfl⟩ := h.started hlex hforked
    have hdat := (hd.command hlex h.ok.looped).2.1
    rw [hstdin] at hdat
    have htoread : s.ToRead program d := ⟨⟨_, (Option.some.inj hdat).symm⟩, hlt, hjatEnd⟩
    have hdrunning := h.running hd hjended
    obtain ⟨f, hf⟩ := s.exists_next program d
    cases f with
    | read => exact h.no_step _ _ (.read hdrunning hf (Option.some.inj hdat).symm (hfull ▸ hcap))
    | write =>
      have hlater := (mem_pipesBefore.1 (mem_pipesBefore_of_stdinAt hlex hstdin)).1
      have hd_lt := hforked.1.1
      exact ih _ (by omega) hd hjended rfl hf
    | exit => exact hf.1 htoread

theorem not_exit (h : s.Stuck w cmds cap program) (hc : s.Started w cmds c)
    (hended : c.index ∉ s.ended) : ¬s.Next program c .exit :=
  fun hnext => h.no_step _ _ (.exit (h.running hc hended) hnext)

/-- **Nobody waits at an empty pipe.**  The first child to do so would wait for its writer, or for a
later child that reads from no pipe. -/
theorem not_read (h : s.Stuck w cmds cap program) (hlex : lexer cmd_line = some cmds)
    (hreached : Reached w cmds cmds.length) (hcap : 0 < cap)
    (hserved : ∀ i, Forked w cmds i → Served w cmds cap program i) (hc : s.Started w cmds c)
    (hended : c.index ∉ s.ended) : ¬s.Next program c .read := by
  induction hn : c.index using Nat.strong_induction_on generalizing c with
  | _ n ih =>
    intro hnext
    have hrunning := h.running hc hended
    obtain ⟨⟨k, hstdin⟩, -⟩ := hnext.1
    have hempty : s.held k = 0 := Nat.eq_zero_of_not_pos fun hpos =>
      h.no_step _ _ (.read hrunning hnext hstdin hpos)
    have hwriter : s.HasWriter w cmds k := by
      by_contra hnone
      exact h.no_step _ _ (.atEnd hrunning hnext hstdin hempty hnone)
    have hat := (hc.command hlex h.ok.looped).2.1
    rw [hstdin] at hat
    have hkc := (mem_pipesBefore.1 (mem_pipesBefore_of_stdinAt hlex hat)).1
    rcases hwriter with ⟨hopen, -⟩ | ⟨d, hd, hdended, hpipe, hwrite⟩
    · rw [h.closed] at hopen
      cases hopen
    · obtain ⟨f, hf⟩ := s.exists_next program d
      cases f with
      | write => exact h.not_write hlex hreached hcap hserved hd hdended hf
      | exit => exact h.not_exit hd hdended hf
      | read =>
        have hconnected := (h.running hd hdended).2.1
        obtain ⟨⟨l, hl⟩, -⟩ := hf.1
        obtain ⟨j, -, hforked, cmd, hcmd, hdj⟩ := (started_iff hlex h.ok.looped).1 hd
        have hindex : d.index = j := congrArg Child.index hdj
        rw [hdj, pipesOf_childOf hlex hreached (lt_of_some hcmd)] at hpipe
        obtain ⟨hkj, hforkedk, hpipek⟩ := mem_pipesBefore.1 hpipe
        rcases Nat.lt_succ_iff_lt_or_eq.1 hkj with hlt | rfl
        · -- a later child with the write end
          have hbefore : k ∈ pipesBefore w cmds j := mem_pipesBefore.2 ⟨hlt, hforkedk, hpipek⟩
          have hredir := (lexer_fresh hlex cmd (List.mem_of_getElem? hcmd)).redir
          rw [hdj] at hl hwrite hconnected
          exact stdin_of_not_closed hredir hbefore (hwrite hconnected) l hl
        · -- the writer itself
          exact ih d.index (by omega) hd hdended rfl hf

/-- If all are served, all have ended. -/
theorem children_subset (h : s.Stuck w cmds cap program) (hlex : lexer cmd_line = some cmds)
    (hreached : Reached w cmds cmds.length) (hcap : 0 < cap)
    (hserved : ∀ i, Forked w cmds i → Served w cmds cap program i) : children w cmds ⊆ s.ended := by
  intro i hi
  obtain ⟨c, hc, rfl⟩ := h.started hlex (mem_children.1 hi)
  by_contra hended
  obtain ⟨f, hf⟩ := s.exists_next program c
  cases f with
  | read => exact h.not_read hlex hreached hcap hserved hc hended hf
  | write => exact h.not_write hlex hreached hcap hserved hc hended hf
  | exit => exact h.not_exit hc hended hf

/-- When all have ended, the calls of `waitpid` return. -/
theorem returned (h : s.Stuck w cmds cap program) (hlex : lexer cmd_line = some cmds)
    (hall : children w cmds ⊆ s.ended) : s.Returned cmds := by
  refine ⟨h.closed, le_antisymm h.ok.waited (Nat.le_of_not_lt fun hlt => ?_)⟩
  exact h.no_step _ _ (.wait h.closed hlt (Or.inr fun c hc => hall (hc.command hlex h.ok.looped).1))

end Job.Stuck

/-! ### The prompt -/

theorem waits_length (hforeground : ∀ cmd ∈ cmds, cmd.background = false) :
    (waits cmds).length = cmds.length := by
  rw [waits, List.length_map, List.takeWhile_eq_self_iff.2 fun cmd hcmd => by
    rw [hforeground cmd hcmd]
    rfl]

/-- When the prompt is there again, the children of a line without `&` have ended. -/
theorem Job.Ok.ended_of_returned (h : s.Ok w cmds)
    (hforeground : ∀ cmd ∈ cmds, cmd.background = false) (hreturned : s.Returned cmds) :
    children w cmds ⊆ s.ended := by
  rcases h.reaped with hle | ⟨-, hall⟩
  · rw [hreturned.2, waits_length hforeground] at hle
    exact (Finset.eq_of_subset_of_card_le h.ended ((card_children_le w cmds).trans hle)).ge
  · exact hall

/-- A child that has ended was served. -/
theorem Job.Flows.served (h : s.Flows w cmds cap program) (hi : i ∈ s.ended) :
    Served w cmds cap program i := by
  have hall := (h.finished i hi).1
  refine ⟨fun htop => ?_, fun hat => hall.trans ?_⟩
  · rw [htop, top_le_iff] at hall
    exact ENat.natCast_ne_top _ hall
  · rw [h.pipe i hat]
    push_cast
    exact add_le_add (Nat.cast_le.2 (h.held_le i)) (Finset.sum_le_sum fun j _ => h.read_le j)

/-- **When the prompt comes back** after a line without `&`, whatever the order of the steps: its runs
are bounded by what the children write, all children have ended with all of it written when the prompt
is there again, and it always comes back exactly if all are served. -/
theorem line_returns_iff (w : World) (program : ℕ → Program) (hcap : 0 < cap)
    (hlex : lexer cmd_line = some cmds) (hreached : Reached w cmds cmds.length)
    (hforeground : ∀ cmd ∈ cmds, cmd.background = false) :
    (∀ ls s, Run (Job.Step w cmds cap program) .start ls s →
      (ls.length : ℕ∞) ≤ 5 * cmds.length + 1 + 2 * ∑ i ∈ children w cmds, (program i).output ∧
      (s.Returned cmds → ∀ i, Forked w cmds i → i ∈ s.ended ∧ s.written i = (program i).output)) ∧
    (AlwaysReturns w cmds cap program ↔
      ∀ i, Forked w cmds i → Served w cmds cap program i) := by
  refine ⟨fun ls s hrun => ⟨run_length_le hlex hreached hrun, fun hreturned i hi => ?_⟩,
    fun ⟨⟨n, hle⟩, hall⟩ i hi => ?_, fun hserved => ⟨?_, fun ls s hrun hstuck => ?_⟩⟩
  · obtain ⟨hok, hflows⟩ := run_ok hlex hreached hrun
    have hended := hok.ended_of_returned hforeground hreturned (mem_children.2 hi)
    exact ⟨hended, le_antisymm (hflows.written_le i) (hflows.finished i hended).1⟩
  · obtain ⟨ls, s, hrun, hstuck⟩ := exists_stuck_of_length_le hle
    obtain ⟨hok, hflows⟩ := run_ok hlex hreached hrun
    exact hflows.served
      (hok.ended_of_returned hforeground (hall ls s hrun hstuck) (mem_children.2 hi))
  · have hsum : ∑ i ∈ children w cmds, (program i).output ≠ ⊤ :=
      WithTop.sum_ne_top.2 fun i hi => (hserved i (mem_children.1 hi)).1
    obtain ⟨m, hm⟩ := ENat.ne_top_iff_exists.1 hsum
    refine ⟨5 * cmds.length + 1 + 2 * m, fun ls s hrun => ?_⟩
    have hle := run_length_le hlex hreached hrun
    rw [← hm] at hle
    exact_mod_cast hle
  · obtain ⟨hok, hflows⟩ := run_ok hlex hreached hrun
    have hs : s.Stuck w cmds cap program := ⟨hok, hflows, hstuck⟩
    exact hs.returned hlex (hs.children_subset hlex hreached hcap hserved)

/-- The first child writes five pieces, and the second one reads at most `m`. -/
def bulk (m : ℕ∞) (i : ℕ) : Program := if i = 0 then ⟨0, 5, fun _ _ => false⟩ else ⟨m, 1, fun _ _ => true⟩

/-- With pipes of two pieces the prompt comes back if the second child reads to the end, but not if it
reads one piece. -/
theorem line_returns_bulk : ∃ cmds, lexer "ls | ls".toList = some cmds ∧
    AlwaysReturns World.simple cmds 2 (bulk ⊤) ∧ ¬AlwaysReturns World.simple cmds 2 (bulk 1) := by
  have hlex : lexer "ls | ls".toList =
      some [Exec.word "ls" .pipe false, Exec.word "ls" .none false] := by decide
  have hreached : Reached World.simple [Exec.word "ls" .pipe false, Exec.word "ls" .none false] 2 := by
    decide
  have hreaders : readers World.simple [Exec.word "ls" .pipe false, Exec.word "ls" .none false] 0 =
      {1} := by decide
  have hiff := fun m => (line_returns_iff World.simple (bulk m) Nat.two_pos hlex hreached
    (by simp [Exec.word])).2
  refine ⟨_, hlex, (hiff ⊤).2 fun i hi => ?_, fun hall => ?_⟩
  · have hlt : i < 2 := hi.1.1
    interval_cases i
    · refine ⟨by simp [bulk], fun _ => ?_⟩
      rw [hreaders]
      simp [bulk]
    · refine ⟨by simp [bulk], fun hat => ?_⟩
      exact absurd hat (by decide)
  · have hserved := ((hiff 1).1 hall 0 (by decide)).2 (by decide)
    rw [hreaders] at hserved
    simp [bulk] at hserved
    norm_num at hserved

end Returns

end Mufash
