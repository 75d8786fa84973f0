import SysProg.Mufash.Scan

/-!
# The shell grammar

Commands joined by the operators of the shell grammar, with any spaces around them, and what the
lexer makes of such a line.

* `Operator`, `Link`, `line`: the operators and the lines;
* `expected`: the commands that a line stands for;
* `lexer_line_iff`: the lexer returns them exactly if the line redirects no input, for the branch of
  `<` is never reached.
-/

namespace Mufash

open Scanner

/-- The operators of the shell grammar. -/
inductive Operator
  | list
  | pipeline
  | output
  | append
  | input
  | background
  deriving DecidableEq

namespace Operator

/-- How it is written. -/
def symbol : Operator → Text
  | list => [';']
  | pipeline => ['|']
  | output => ['>']
  | append => ['>', '>']
  | input => ['<']
  | background => ['&']

/-- The redirection of the command before it. -/
def redir : Operator → Redirection
  | list => .none
  | pipeline => .pipe
  | output => .redir_output
  | append => .append_output
  | input => .redir_input
  | background => .none

end Operator

/-- A word over the characters that `isvalid` accepts. -/
structure Word where
  text : Text
  ne_nil : text ≠ []
  valid : ∀ c ∈ text, isvalid c

/-- The words of a command. -/
structure Command where
  words : List Word
  ne_nil : words ≠ []

/-- The arguments of a command. -/
def Command.args (c : Command) : List Text := c.words.map Word.text

/-- A command, with single spaces between its words. -/
def Command.render (c : Command) : Text := [' '].intercalate c.args

/-- An operator, the numbers of the spaces around it, and the command behind it. -/
structure Link where
  before : ℕ
  operator : Operator
  after : ℕ
  command : Command

/-- A sequence of commands as a command line. -/
def line (first : Command) : List Link → Text
  | [] => first.render
  | l :: links => first.render ++ (List.replicate l.before ' ' ++ (l.operator.symbol ++
      (List.replicate l.after ' ' ++ line l.command links)))

/-- A command in the lexer's result. -/
def Command.exec (c : Command) (redir : Redirection) (background : Bool) : Exec :=
  ⟨0, c.args.headD [], false, c.args, redir, background⟩

/-- The commands of a line, each with the mark of the operator behind it. -/
def expected (first : Command) : List Link → List Exec
  | [] => [first.exec .none false]
  | l :: links => first.exec l.operator.redir (l.operator = .background) :: expected l.command links

variable {first : Command} {links : List Link} {z : Scanner}

theorem length_expected (first : Command) (links : List Link) :
    (expected first links).length = links.length + 1 := by
  induction links generalizing first with
  | nil => rfl
  | cons l links ih => simp [expected, ih]

/-! ### Commands -/

theorem Command.args_ne_nil (c : Command) : c.args ≠ [] := by
  simpa [Command.args] using c.ne_nil

/-- The words of a command become arguments; the last one stays open. -/
theorem scan_words {ws : List Word} (hz : z.mode = .plain) (hword : z.word = []) (hws : ws ≠ []) :
    scan z ([' '].intercalate (ws.map Word.text)) = ⟨.plain, z.done,
      z.words ++ (ws.dropLast.map Word.text), (ws.getLast hws).text, false⟩ := by
  induction ws generalizing z with
  | nil => exact absurd rfl hws
  | cons w ws ih =>
    cases ws with
    | nil => simp [scan_word hz w.valid w.ne_nil, hz, hword]
    | cons w' ws =>
      -- the space behind the first word makes room for the others
      have hspace : scan { z with word := z.word ++ w.text, ignorespace := false } [' '] =
          ⟨.plain, z.done, z.words ++ [w.text], [], true⟩ := by
        rw [scan_cons, scan_nil, step_plain (by exact hz), read_space]
        simp [split, hz, hword]
      have hrest := ih (z := ⟨.plain, z.done, z.words ++ [w.text], [], true⟩) rfl rfl
        (List.cons_ne_nil w' ws)
      rw [List.map_cons, List.map_cons, List.intercalate_cons_cons, scan_append, scan_append,
        scan_word hz w.valid w.ne_nil, hspace, ← List.map_cons, hrest]
      simp

/-- A command is read into the arguments of the open command. -/
theorem args_scan_render (first : Command) (hz : z.mode = .plain) (hwords : z.words = [])
    (hword : z.word = []) :
    (scan z first.render).args = first.args ∧ (scan z first.render).word ≠ [] := by
  have hlast := (first.words.getLast first.ne_nil).ne_nil
  have hsnoc : first.words.dropLast.map Word.text ++ [(first.words.getLast first.ne_nil).text] =
      first.words.map Word.text := by
    calc _ = (first.words.dropLast ++ [first.words.getLast first.ne_nil]).map Word.text := by simp
      _ = first.words.map Word.text := by rw [List.dropLast_concat_getLast]
  unfold Command.render Command.args
  rw [scan_words hz hword first.ne_nil]
  refine ⟨?_, hlast⟩
  rw [args, if_neg hlast, hwords, List.nil_append]
  exact hsnoc

theorem mem_intercalate {ws : List Word} {c : Char} (hc : c ∈ [' '].intercalate (ws.map Word.text)) :
    isvalid c ∨ c = ' ' := by
  induction ws with
  | nil => simp at hc
  | cons w ws ih =>
    cases ws with
    | nil => exact Or.inl (w.valid c (by simpa using hc))
    | cons w' ws =>
      rw [List.map_cons, List.map_cons, List.intercalate_cons_cons] at hc
      rcases List.mem_append.1 hc with hc | hc
      · rcases List.mem_append.1 hc with hc | hc
        · exact Or.inl (w.valid c hc)
        · exact Or.inr (List.mem_singleton.1 hc)
      · exact ih hc

theorem scan_render (first : Command) (hz : z.mode = .plain) :
    (scan z first.render).mode = .plain ∧ (scan z first.render).done = z.done :=
  scan_quiet hz fun _ hc => mem_intercalate hc

/-- A line starts with a word. -/
theorem line_eq_cons (first : Command) (links : List Link) :
    ∃ c rest, line first links = c :: rest ∧ isvalid c := by
  obtain ⟨rest, hrest⟩ : ∃ rest, line first links = first.render ++ rest := by
    cases links with
    | nil => exact ⟨[], (List.append_nil _).symm⟩
    | cons l links => exact ⟨_, rfl⟩
  obtain ⟨w, ws, hws⟩ := List.exists_cons_of_ne_nil first.ne_nil
  obtain ⟨c, cs, hcs⟩ := List.exists_cons_of_ne_nil w.ne_nil
  refine ⟨c, ?_⟩
  have hc : isvalid c := w.valid c (by simp [hcs])
  rw [hrest]
  unfold Command.render Command.args
  cases ws with
  | nil => exact ⟨_, by simp [hws, hcs]; rfl, hc⟩
  | cons w' ws => exact ⟨_, by simp [hws, hcs, List.intercalate_cons_cons]; rfl, hc⟩

theorem scan_replicate (n : ℕ) (hz : z.mode = .plain) :
    (scan z (List.replicate n ' ')).mode = .plain ∧ (scan z (List.replicate n ' ')).done = z.done :=
  scan_quiet hz fun _ hc => Or.inr (List.eq_of_mem_replicate hc)

/-! ### Operators -/

/-- What an operator does: the branch of `<` is not reached. -/
def Operator.apply (o : Operator) (z : Scanner) : Scanner :=
  if o = .input then z else z.close o.redir (o = .background)

/-- An operator is read with the character behind it, if that is not another `>`. -/
theorem scan_symbol {c : Char} {rest : Text} (o : Operator) (hz : z.mode = .plain) (hc : c ≠ '>') :
    scan z (o.symbol ++ c :: rest) = scan (o.apply z) (c :: rest) := by
  have hread : ∀ d, scan z (d :: c :: rest) = scan (z.read d) (c :: rest) := fun d => by
    rw [scan_cons, step_plain hz]
  cases o with
  | list => exact hread ';'
  | pipeline => exact hread '|'
  | output =>
    have hstep : Scanner.step { z with mode := .greater } c = (z.close .redir_output false).step c := by
      rw [step_plain (z := z.close .redir_output false) rfl]
      simp only [step, if_neg hc]
      rfl
    calc scan z ('>' :: c :: rest) = scan { z with mode := .greater } (c :: rest) := hread '>'
      _ = scan (z.close .redir_output false) (c :: rest) := by rw [scan_cons, scan_cons, hstep]
  | append =>
    calc scan z ('>' :: '>' :: c :: rest)
        = scan { z with mode := .greater } ('>' :: c :: rest) := by rw [scan_cons, step_plain hz]; rfl
      _ = scan (z.close .append_output false) (c :: rest) := rfl
  | input => exact hread '<'
  | background => exact hread '&'

/-- What follows the command in a line, up to the next command. -/
theorem scan_link (l : Link) (links : List Link) (hz : z.mode = .plain) :
    scan z (List.replicate l.before ' ' ++ (l.operator.symbol ++
      (List.replicate l.after ' ' ++ line l.command links))) =
    scan (scan (l.operator.apply (scan z (List.replicate l.before ' ')))
      (List.replicate l.after ' ')) (line l.command links) := by
  have hquiet := scan_replicate l.before hz
  obtain ⟨c, rest, hrest, hc⟩ : ∃ c rest, List.replicate l.after ' ' ++ line l.command links =
      c :: rest ∧ c ≠ '>' := by
    cases l.after with
    | zero =>
      obtain ⟨c, rest, hrest, hc⟩ := line_eq_cons l.command links
      refine ⟨c, rest, hrest, ?_⟩
      rintro rfl
      exact absurd hc (by decide)
    | succ n => exact ⟨' ', _, rfl, by decide⟩
  rw [← scan_append, scan_append, hrest, scan_symbol l.operator hquiet.1 hc]

theorem Operator.apply_mode (o : Operator) (hz : z.mode = .plain) : (o.apply z).mode = .plain := by
  unfold Operator.apply
  split_ifs
  · exact hz
  · rfl

theorem Operator.length_done_apply (o : Operator) :
    (o.apply z).done.length = z.done.length + if o ≠ .input then 1 else 0 := by
  unfold Operator.apply
  by_cases ho : o = .input
  · simp [ho]
  · simp [ho, close]

/-! ### Lines -/

/-- Each operator but `<` closes a command. -/
theorem scan_line (first : Command) (links : List Link) (hz : z.mode = .plain) :
    (scan z (line first links)).mode = .plain ∧ (scan z (line first links)).done.length =
      z.done.length + links.countP (fun l => l.operator ≠ .input) := by
  induction links generalizing first z with
  | nil =>
    obtain ⟨hmode, hdone⟩ := scan_render first hz
    exact ⟨hmode, congrArg List.length hdone⟩
  | cons l links ih =>
    obtain ⟨hmode, hdone⟩ := scan_render first hz
    obtain ⟨hmode₁, hdone₁⟩ := scan_replicate l.before hmode
    obtain ⟨hmode₂, hdone₂⟩ := scan_replicate l.after (l.operator.apply_mode hmode₁)
    obtain ⟨hmode₃, hdone₃⟩ := ih l.command hmode₂
    rw [line, scan_append, scan_link l links hmode]
    refine ⟨hmode₃, ?_⟩
    rw [hdone₃, hdone₂, l.operator.length_done_apply, hdone₁, hdone, List.countP_cons]
    simp only [decide_eq_true_eq]
    omega

/-- Without a `<`, the commands come out as they went in. -/
theorem setPaths_line (first : Command) (hlinks : ∀ l ∈ links, l.operator ≠ .input)
    (hz : z.mode = .plain) (hwords : z.words = []) (hword : z.word = [])
    (hdone : ∀ cmd ∈ z.done, cmd.args ≠ []) :
    setPaths (scan z (line first links)).commands =
      some (z.done.map Exec.named ++ expected first links) := by
  induction links generalizing first z with
  | nil =>
    obtain ⟨hargs, -⟩ := args_scan_render first hz hwords hword
    have hcommands : (scan z (line first [])).commands =
        z.done ++ [{ Exec.first with args := first.args }] := by
      unfold commands line
      rw [hargs, if_neg first.args_ne_nil, (scan_render first hz).2]
    rw [hcommands, setPaths_eq, if_pos]
    · simp [expected, Command.exec, Exec.named, Exec.first]
    · exact List.forall_mem_append.2 ⟨hdone, by simp [first.args_ne_nil]⟩
  | cons l links ih =>
    rw [List.forall_mem_cons] at hlinks
    obtain ⟨hmode₀, hdone₀⟩ := scan_render first hz
    obtain ⟨hargs₀, hopen⟩ := args_scan_render first hz hwords hword
    obtain ⟨hmode₁, hdone₁⟩ := scan_replicate l.before hmode₀
    have hargs₁ := args_scan_spaces hmode₀ (Or.inl hopen) l.before
    rw [hargs₀] at hargs₁
    rw [hdone₀] at hdone₁
    -- the operator closes the command, and the spaces behind it are skipped
    have hclose : scan (l.operator.apply (scan (scan z first.render) (List.replicate l.before ' ')))
        (List.replicate l.after ' ') = ⟨.plain, z.done ++ [⟨0, [], false, first.args,
          l.operator.redir, l.operator = .background⟩], [], [], true⟩ := by
      unfold Operator.apply close
      rw [if_neg hlinks.1, scan_spaces_of_ignorespace rfl rfl, hdone₁, hargs₁]
    have hnamed := ih l.command hlinks.2 (z := ⟨.plain, z.done ++ [⟨0, [], false, first.args,
      l.operator.redir, l.operator = .background⟩], [], [], true⟩) rfl rfl rfl
      (List.forall_mem_append.2 ⟨hdone, by simp [first.args_ne_nil]⟩)
    rw [line, scan_append, scan_link l links hmode₀, hclose, hnamed]
    simp [expected, Command.exec, Exec.named]

/-- The lexer returns the commands of a line exactly if no operator is `<`. -/
theorem lexer_line_iff (first : Command) (links : List Link) :
    lexer (line first links) = some (expected first links) ↔
      (∀ l ∈ links, l.operator ≠ .input) ∧ (line first links).length < 2 ^ 31 := by
  obtain ⟨hmode, hlength⟩ := scan_line first links (z := start) rfl
  have hend : endIndex (line first links) = (line first links).length := by
    simp [endIndex, overrun, hmode]
  have hfinish : (scan start (line first links)).finish = scan start (line first links) := by
    simp [finish, hmode]
  rw [lexer_eq, hend, hfinish]
  constructor
  · intro h
    split_ifs at h with hfit
    rw [setPaths_eq] at h
    split_ifs at h with hall
    -- one command for each operator, and one behind the last
    have hcount := congrArg List.length (Option.some.inj h)
    rw [List.length_map, length_expected] at hcount
    have hle : (scan start (line first links)).commands.length ≤
        (scan start (line first links)).done.length + 1 := by
      unfold commands
      split_ifs
      · exact Nat.le_succ _
      · simp
    have hstart : start.done.length = 0 := rfl
    have hlinks : links.countP (fun l => l.operator ≠ .input) = links.length :=
      Nat.le_antisymm List.countP_le_length (by omega)
    refine ⟨fun l hl => ?_, hfit⟩
    simpa using List.countP_eq_length.1 hlinks l hl
  · rintro ⟨hlinks, hfit⟩
    rw [if_pos hfit, setPaths_line first hlinks rfl rfl rfl (by simp [start])]
    rfl

/-- `a < b` is read as one command with two arguments. -/
theorem lexer_line_input :
    lexer (line ⟨[⟨['a'], by decide, List.all_eq_true.1 rfl⟩], by decide⟩
      [⟨1, .input, 1, ⟨[⟨['b'], by decide, List.all_eq_true.1 rfl⟩], by decide⟩⟩]) =
      some [⟨0, ['a'], false, [['a'], ['b']], .none, false⟩] ∧
    expected ⟨[⟨['a'], by decide, List.all_eq_true.1 rfl⟩], by decide⟩
      [⟨1, .input, 1, ⟨[⟨['b'], by decide, List.all_eq_true.1 rfl⟩], by decide⟩⟩] =
      [⟨0, ['a'], false, [['a']], .redir_input, false⟩, ⟨0, ['b'], false, [['b']], .none, false⟩] := by
  decide

end Mufash
