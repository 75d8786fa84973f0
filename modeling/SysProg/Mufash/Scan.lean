import SysProg.Mufash.Lexer

/-!
# The lexer as an automaton

The loop of the lexer reads one character after another, and what it makes of a character depends on
a mode: `scan` is the fold of one transition over the line.  In its states the open command and its
open word are apart from the closed ones, and so no index can be out of range.

* `Scanner.step`, `scan`: the automaton;
* `lexed_eq`: the loop computes what the automaton reads, unless its index overflows;
* `lexer_eq`, `parseCommands_eq`: the two lexers.
-/

namespace Mufash

/-- What stands before the next character. -/
inductive Mode
  | plain
  /-- a `>`, whose command is not closed yet -/
  | greater
  /-- a backslash -/
  | escaped
  /-- an open quotation, and in it a backslash or not -/
  | quoted (escape : Bool)
  /-- an open comment -/
  | comment
  deriving DecidableEq

/-- The closed commands, the closed words of the open command, and its open word. -/
structure Scanner where
  mode : Mode
  done : List Exec
  words : List Text
  word : Text
  ignorespace : Bool

namespace Scanner

/-- Before the line. -/
def start : Scanner := ⟨.plain, [], [], [], false⟩

variable (z : Scanner)

/-- The character belongs to the open word. -/
def push (c : Char) : Scanner := { z with mode := .plain, word := z.word ++ [c] }

/-- The arguments of the open command. -/
def args : List Text := if z.word = [] then z.words else z.words ++ [z.word]

/-- The open word ends. -/
def split : Scanner :=
  if z.ignorespace then z
  else { z with words := z.words ++ [z.word], word := [], ignorespace := true }

/-- The open command ends. -/
def close (redir : Redirection) (background : Bool) : Scanner :=
  ⟨.plain, z.done ++ [⟨0, [], false, z.args, redir, background⟩], [], [], true⟩

/-- A character in the mode `plain`. -/
def read (c : Char) : Scanner :=
  if isvalid c then { z.push c with ignorespace := false }
  else if c = ' ' then z.split
  else if c = ';' then z.close .none false
  else if c = '|' then z.close .pipe false
  else if c = '>' then { z with mode := .greater }
  else if c = '&' then z.close .none true
  else if c = '\\' then { z with mode := .escaped }
  else if c = '\'' then { z with mode := .quoted false }
  else if c = '#' then { z with mode := .comment }
  else z

/-- One character. -/
def step (c : Char) : Scanner :=
  match z.mode with
  | .plain => z.read c
  | .greater =>
      if c = '>' then z.close .append_output false else (z.close .redir_output false).read c
  | .escaped => z.push c
  | .quoted escape =>
      if c = '\'' ∧ escape = false then { z with mode := .plain }
      else if c = '\\' then { z with mode := .quoted !escape }
      else { z.push c with mode := .quoted false }
  | .comment => if c = '#' then { z with mode := .plain } else z

/-- The end of the line. -/
def finish : Scanner :=
  match z.mode with
  | .greater => z.close .redir_output false
  | .escaped => z.push (Char.ofNat 0)
  | _ => z

/-- How far the index of the loop runs past the end of the line. -/
def overrun : ℕ :=
  match z.mode with
  | .plain | .greater => 0
  | _ => 1

end Scanner

/-- The automaton on a text. -/
def scan (z : Scanner) (text : Text) : Scanner := text.foldl Scanner.step z

@[simp] theorem scan_nil (z : Scanner) : scan z [] = z := rfl

@[simp] theorem scan_cons (z : Scanner) (c : Char) (text : Text) :
    scan z (c :: text) = scan (z.step c) text := rfl

theorem scan_append (z : Scanner) (text text' : Text) :
    scan z (text ++ text') = scan (scan z text) text' := List.foldl_append

/-! ### The states of the loop -/

namespace Scanner

variable {z z' : Scanner} {c : Char} {i : ℕ} {cmd_line rest : Text}

/-- The variables of the loop in a state of the automaton. -/
def lexer (z : Scanner) (i : ℕ) : Lexer :=
  ⟨z.done ++ [{ Exec.first with args := z.words ++ [z.word] }], z.done.length, z.words.length,
    z.ignorespace, i⟩

/-- The current command is the last one. -/
theorem modify_last (done : List Exec) (cmd : Exec) (arg : ℕ) (b : Bool) (f : Exec → Option Exec) :
    Lexer.modify ⟨done ++ [cmd], done.length, arg, b, i⟩ f =
      (f cmd).map fun cmd => ⟨done ++ [cmd], done.length, arg, b, i⟩ := by
  unfold Lexer.modify
  cases h : f cmd <;> simp [h]

theorem append_lexer : (z.lexer i).append c = some ((z.push c).lexer i) := by
  unfold Lexer.append lexer
  rw [modify_last]
  simp [push]

theorem space_lexer : (z.lexer i).space = some (z.split.lexer i) := by
  unfold Lexer.space split lexer
  by_cases h : z.ignorespace
  · simp [h]
  · simp only [if_neg h]
    rw [modify_last]
    simp

/-- The open word goes if it is empty. -/
theorem pop_lexer : ({ z.lexer i with ignorespace := true } : Lexer).pop =
    some ⟨z.done ++ [{ Exec.first with args := z.args }], z.done.length, z.words.length, true, i⟩ := by
  unfold Lexer.pop lexer args
  rw [modify_last]
  by_cases h : z.word = []
  · simp [h]
  · simp [h]

theorem newCMD_eq (redir : Redirection) (background : Bool) (arg : ℕ) :
    Lexer.newCMD ⟨z.done ++ [⟨0, [], false, z.args, redir, background⟩], z.done.length, arg, true, i⟩ =
      (z.close redir background).lexer i := by
  simp [Lexer.newCMD, close, lexer, Exec.first]

theorem operator_semicolon :
    (z.lexer i).operator cmd_line ';' = some ((z.close .none false).lexer i) := by
  unfold Lexer.operator
  rw [pop_lexer, ← newCMD_eq .none false z.words.length]
  simp [Lexer.mark, modify_last, Exec.first]

theorem operator_pipe :
    (z.lexer i).operator cmd_line '|' = some ((z.close .pipe false).lexer i) := by
  unfold Lexer.operator
  rw [pop_lexer, ← newCMD_eq .pipe false z.words.length]
  simp [Lexer.mark, modify_last, Exec.first]

theorem operator_background :
    (z.lexer i).operator cmd_line '&' = some ((z.close .none true).lexer i) := by
  unfold Lexer.operator
  rw [pop_lexer, ← newCMD_eq .none true z.words.length]
  simp [modify_last, Exec.first]

theorem operator_output (h : cmd_line[i + 1]? ≠ some '>') :
    (z.lexer i).operator cmd_line '>' = some ((z.close .redir_output false).lexer i) := by
  unfold Lexer.operator
  rw [pop_lexer, ← newCMD_eq .redir_output false z.words.length]
  simp [Lexer.mark, modify_last, Exec.first, h]

theorem next_bind_newCMD (s : Lexer) : (s.next.bind fun s => some s.newCMD) = s.newCMD.next := by
  unfold Lexer.next Lexer.newCMD
  split_ifs <;> rfl

/-- The second `>` is read in the same iteration. -/
theorem operator_append (h : cmd_line[i + 1]? = some '>') :
    (z.lexer i).operator cmd_line '>' = ((z.close .append_output false).lexer i).next := by
  have hi : i ≠ cmd_line.length - 1 := by
    have := (List.getElem?_eq_some_iff.1 h).1
    omega
  unfold Lexer.operator
  rw [pop_lexer, ← newCMD_eq .append_output false z.words.length, ← next_bind_newCMD]
  simp [Lexer.mark, modify_last, Exec.first, h, hi]

/-! ### The loop -/

/-- What the loop computes in the state `z` from index `i` on: what the automaton reads, if the index
stays an `int`. -/
def outcome (z : Scanner) (i : ℕ) (rest : Text) : Option Lexer :=
  if i + rest.length + (scan z rest).overrun < 2 ^ 31 then
    some ((scan z rest).finish.lexer (i + rest.length + (scan z rest).overrun))
  else none

theorem outcome_cons : outcome z i (c :: rest) = outcome (z.step c) (i + 1) rest := by
  unfold outcome
  rw [scan_cons, List.length_cons, ← Nat.add_assoc, Nat.add_right_comm i rest.length 1]

theorem outcome_nil (hz : z.mode = .plain) :
    outcome z i [] = if i < 2 ^ 31 then some (z.lexer i) else none := by
  simp [outcome, overrun, finish, hz]

/-- A line that ends in a comment or a quotation is left one behind its end. -/
theorem outcome_unclosed (hfinish : z.finish = z) (hoverrun : z.overrun = 1) :
    outcome z i [] = outcome { z with mode := .plain } (i + 1) [] := by
  rw [outcome_nil (z := { z with mode := .plain }) rfl]
  unfold outcome
  rw [scan_nil, hfinish, hoverrun]
  rfl

/-- The index only grows: where it overflows now, there is no outcome. -/
theorem next_bind {f : Lexer → Option Lexer} {j : ℕ} (hj : i < j)
    (h : i + 1 < 2 ^ 31 → f (z.lexer (i + 1)) = outcome z' j rest) :
    (z.lexer i).next.bind f = outcome z' j rest := by
  by_cases hi : i + 1 < 2 ^ 31
  · have hnext : (z.lexer i).next = some (z.lexer (i + 1)) := if_pos hi
    rw [hnext]
    exact h hi
  · have hout : ¬j + rest.length + (scan z' rest).overrun < 2 ^ 31 := by omega
    have hnext : (z.lexer i).next = none := if_neg hi
    rw [hnext, outcome, if_neg hout]
    rfl

/-- The rest of the iteration after its branch, with the iterations that follow. -/
def continues (cmd_line : Text) (n : ℕ) (s : Lexer) : Option Lexer := s.next.bind (loop cmd_line n)

/-- The loop with fuel `n` computes what the automaton reads. -/
def Agrees (cmd_line : Text) (n : ℕ) : Prop :=
  ∀ (z : Scanner) (i : ℕ), i < 2 ^ 31 → z.mode = .plain → (cmd_line.drop i).length ≤ n →
    loop cmd_line n (z.lexer i) = outcome z i (cmd_line.drop i)

theorem Agrees.continues {n : ℕ} (ih : Agrees cmd_line n) (hz : z.mode = .plain)
    (hdrop : cmd_line.drop (i + 1) = rest) (hn : rest.length ≤ n) :
    continues cmd_line n (z.lexer i) = outcome z (i + 1) rest := by
  subst hdrop
  exact next_bind i.lt_succ_self fun hi => ih z (i + 1) hi hz hn

theorem drop_succ (hdrop : cmd_line.drop i = c :: rest) : cmd_line.drop (i + 1) = rest := by
  rw [← List.tail_drop, hdrop, List.tail_cons]

theorem getElem?_succ (hdrop : cmd_line.drop i = c :: rest) : cmd_line[i + 1]? = rest.head? := by
  rw [← List.head?_drop, drop_succ hdrop]

/-- What the line does not close takes the index one further. -/
theorem Agrees.unclosed {n : ℕ} (ih : Agrees cmd_line n) (hfinish : z.finish = z)
    (hoverrun : z.overrun = 1) (hdrop : cmd_line.drop i = []) :
    Scanner.continues cmd_line n (z.lexer i) = outcome z i [] := by
  have hend : cmd_line.drop (i + 1) = [] := by rw [← List.tail_drop, hdrop, List.tail_nil]
  rw [outcome_unclosed hfinish hoverrun]
  exact ih.continues (z := { z with mode := .plain }) rfl hend (Nat.zero_le n)

/-- The loop over a comment. -/
theorem comment_agrees {n : ℕ} (ih : Agrees cmd_line n) (hz : z.mode = .comment)
    (hdrop : cmd_line.drop i = rest) (hn : rest.length ≤ n) :
    ((z.lexer i).comment rest).bind (continues cmd_line n) = outcome z i rest := by
  induction rest generalizing i with
  | nil => exact ih.unclosed (by simp [finish, hz]) (by simp [overrun, hz]) hdrop
  | cons c rest ihrest =>
    rw [outcome_cons]
    unfold Lexer.comment
    by_cases hc : c = '#'
    · have hstep : z.step c = { z with mode := .plain } := by simp [step, hz, hc]
      rw [if_pos hc, hstep]
      exact ih.continues (z := { z with mode := .plain }) rfl (drop_succ hdrop) (Nat.le_of_lt hn)
    · have hstep : z.step c = z := by simp [step, hz, hc]
      rw [if_neg hc, hstep, Option.bind_eq_bind, Option.bind_assoc]
      exact next_bind i.lt_succ_self fun _ => (ihrest (drop_succ hdrop) (Nat.le_of_lt hn))

/-- The loop over a quotation. -/
theorem quotation_agrees {n : ℕ} {escape : Bool} (ih : Agrees cmd_line n)
    (hz : z.mode = .quoted escape) (hdrop : cmd_line.drop i = rest) (hn : rest.length ≤ n) :
    ((z.lexer i).quotation escape rest).bind (continues cmd_line n) = outcome z i rest := by
  induction rest generalizing i z escape with
  | nil => exact ih.unclosed (by simp [finish, hz]) (by simp [overrun, hz]) hdrop
  | cons c rest ihrest =>
    rw [outcome_cons]
    unfold Lexer.quotation
    by_cases hquote : c = '\'' ∧ escape = false
    · have hstep : z.step c = { z with mode := .plain } := by simp [step, hz, hquote]
      rw [if_pos hquote, hstep]
      exact ih.continues (z := { z with mode := .plain }) rfl (drop_succ hdrop) (Nat.le_of_lt hn)
    rw [if_neg hquote]
    by_cases hc : c = '\\'
    · have hstep : z.step c = { z with mode := .quoted !escape } := by simp [step, hz, hc]
      rw [if_pos hc, hstep, Option.bind_eq_bind, Option.bind_assoc]
      exact next_bind i.lt_succ_self fun _ =>
        ihrest (z := { z with mode := .quoted !escape }) rfl (drop_succ hdrop) (Nat.le_of_lt hn)
    · have hstep : z.step c = { z.push c with mode := .quoted false } := by
        simp only [step, hz, if_neg hquote, if_neg hc]
      rw [if_neg hc, hstep, append_lexer]
      simp only [Option.bind_eq_bind, Option.bind_some, Option.bind_assoc]
      exact next_bind i.lt_succ_self fun _ =>
        ihrest (z := { z.push c with mode := .quoted false }) rfl (drop_succ hdrop)
          (Nat.le_of_lt hn)

/-- A `>` is the operator `>` unless another one follows. -/
theorem greater_agrees {n : ℕ} (ih : Agrees cmd_line n) (hz : z.mode = .greater)
    (hdrop : cmd_line.drop i = '>' :: rest) (hn : rest.length ≤ n) :
    ((z.lexer i).operator cmd_line '>').bind (continues cmd_line n) = outcome z (i + 1) rest := by
  have hrest := drop_succ hdrop
  have hnext := getElem?_succ hdrop
  cases rest with
  | nil =>
    rw [operator_output (by simp [hnext]), Option.bind_some, ih.continues rfl hrest hn,
      outcome_nil rfl]
    simp [outcome, overrun, finish, hz]
  | cons c rest =>
    rw [outcome_cons]
    by_cases hc : c = '>'
    · subst hc
      have hstep : z.step '>' = z.close .append_output false := by simp [step, hz]
      rw [operator_append (by simp [hnext]), hstep]
      exact next_bind (by omega) fun _ => (ih.continues rfl (drop_succ hrest) (Nat.le_of_lt hn))
    · have hstep : z.step c = (z.close .redir_output false).step c := by simp [step, hz, hc, close]
      rw [operator_output (by simp [hnext, hc]), hstep, ← outcome_cons]
      exact ih.continues rfl hrest hn

/-- The character behind a backslash is read in the same iteration. -/
theorem escaped_agrees {n : ℕ} (ih : Agrees cmd_line n) (hz : z.mode = .escaped)
    (hdrop : cmd_line.drop i = c :: rest) (hn : rest.length ≤ n) :
    ((z.lexer i).next.bind fun s => (s.append (cmd_line[s.i]?.getD (Char.ofNat 0))).bind
      (continues cmd_line n)) = outcome z (i + 1) rest := by
  have hrest := drop_succ hdrop
  refine next_bind i.lt_succ_self fun _ => ?_
  have hnext : cmd_line[(z.lexer (i + 1)).i]? = rest.head? := getElem?_succ hdrop
  rw [hnext, append_lexer, Option.bind_some]
  cases rest with
  | nil =>
    have hend : cmd_line.drop (i + 1 + 1) = [] := by rw [← List.tail_drop, hrest, List.tail_nil]
    rw [ih.continues rfl hend hn, outcome_nil rfl]
    simp [outcome, overrun, finish, hz]
  | cons d rest =>
    have hstep : z.step d = z.push d := by simp [step, hz]
    rw [outcome_cons, hstep]
    exact ih.continues rfl (drop_succ hrest) (Nat.le_of_lt hn)

/-- One iteration. -/
theorem body_agrees {n : ℕ} (ih : Agrees cmd_line n) (hz : z.mode = .plain)
    (hdrop : cmd_line.drop i = c :: rest) (hn : rest.length ≤ n) :
    ((z.lexer i).body cmd_line c).bind (continues cmd_line n) = outcome z i (c :: rest) := by
  have hrest := drop_succ hdrop
  have hstep : z.step c = z.read c := by simp [step, hz]
  rw [outcome_cons, hstep]
  -- the branches in the order in which the source tests for them
  unfold Lexer.body read
  by_cases hvalid : isvalid c
  · rw [if_pos hvalid, if_pos hvalid]
    have happend : ({ z.lexer i with ignorespace := false } : Lexer).append c =
        some (({ z with ignorespace := false } : Scanner).push c |>.lexer i) :=
      append_lexer (z := { z with ignorespace := false })
    rw [happend]
    exact ih.continues rfl hrest hn
  rw [if_neg hvalid, if_neg hvalid]
  by_cases hspace : c = ' '
  · rw [if_pos hspace, if_pos hspace, space_lexer]
    exact ih.continues (by unfold split; split_ifs <;> exact hz) hrest hn
  rw [if_neg hspace, if_neg hspace]
  by_cases hsemicolon : c = ';'
  · subst hsemicolon
    rw [if_pos (Or.inl rfl), if_pos rfl, operator_semicolon]
    exact ih.continues rfl hrest hn
  by_cases hpipe : c = '|'
  · subst hpipe
    rw [if_pos (by decide), if_neg hsemicolon, if_pos rfl, operator_pipe]
    exact ih.continues rfl hrest hn
  by_cases hgreater : c = '>'
  · subst hgreater
    rw [if_pos (by decide), if_neg hsemicolon, if_neg hpipe, if_pos rfl]
    exact greater_agrees (z := { z with mode := .greater }) ih rfl hdrop hn
  by_cases hbackground : c = '&'
  · subst hbackground
    rw [if_pos (by decide), if_neg hsemicolon, if_neg hpipe, if_neg hgreater, if_pos rfl,
      operator_background]
    exact ih.continues rfl hrest hn
  rw [if_neg (by simp [*]), if_neg hsemicolon, if_neg hpipe, if_neg hgreater, if_neg hbackground]
  by_cases hbackslash : c = '\\'
  · rw [if_pos hbackslash, if_pos hbackslash, Option.bind_eq_bind, Option.bind_assoc]
    exact escaped_agrees (z := { z with mode := .escaped }) ih rfl hdrop hn
  rw [if_neg hbackslash, if_neg hbackslash]
  by_cases hquote : c = '\''
  · rw [if_pos hquote, if_pos hquote, Option.bind_eq_bind, Option.bind_assoc]
    refine next_bind (z := { z with mode := .quoted false }) i.lt_succ_self fun _ => ?_
    exact hrest ▸ quotation_agrees (z := { z with mode := .quoted false }) ih rfl rfl (hrest ▸ hn)
  rw [if_neg hquote, if_neg hquote]
  by_cases hcomment : c = '#'
  · rw [if_pos hcomment, if_pos hcomment, Option.bind_eq_bind, Option.bind_assoc]
    refine next_bind (z := { z with mode := .comment }) i.lt_succ_self fun _ => ?_
    exact hrest ▸ comment_agrees (z := { z with mode := .comment }) ih rfl rfl (hrest ▸ hn)
  rw [if_neg hcomment, if_neg hcomment]
  exact ih.continues hz hrest hn

/-- The fuel suffices: the loop computes what the automaton reads. -/
theorem agrees (cmd_line : Text) (n : ℕ) : Agrees cmd_line n := by
  induction n with
  | zero =>
    intro z i hi hz hn
    have hend : cmd_line.drop i = [] := List.length_eq_zero_iff.1 (Nat.le_zero.1 hn)
    have hlen : ¬i < cmd_line.length := by simpa using hend
    rw [hend, outcome_nil hz, if_pos hi]
    simp [loop, lexer, hlen]
  | succ n ih =>
    intro z i hi hz hn
    cases hdrop : cmd_line.drop i with
    | nil =>
      have hlen : cmd_line.length ≤ (z.lexer i).i := List.drop_eq_nil_iff.1 hdrop
      rw [loop, List.getElem?_eq_none hlen, outcome_nil hz, if_pos hi]
    | cons c rest =>
      have hc : cmd_line[(z.lexer i).i]? = some c := by
        rw [← List.head?_drop]
        exact congrArg List.head? hdrop
      rw [loop, hc]
      exact body_agrees ih hz hdrop (by simpa [hdrop] using hn)

/-! ### The lexers -/

/-- The commands that the trimming leaves. -/
def commands (z : Scanner) : List Exec :=
  if z.args = [] then z.done else z.done ++ [{ Exec.first with args := z.args }]

theorem trim_lexer : trim (z.lexer i).cmds = some z.commands := by
  unfold trim lexer commands args
  by_cases hword : z.word = []
  · by_cases hwords : z.words = []
    · simp [hword, hwords]
    · simp [hword, hwords]
  · simp [hword]

end Scanner

open Scanner

/-- The index at the end of the loop. -/
def endIndex (cmd_line : Text) : ℕ := cmd_line.length + (scan start cmd_line).overrun

/-- The loop ends with what the automaton reads, unless the index overflows. -/
theorem lexed_eq (cmd_line : Text) : lexed cmd_line = if endIndex cmd_line < 2 ^ 31 then
    some ((scan start cmd_line).finish.lexer (endIndex cmd_line)) else none := by
  have h := agrees cmd_line cmd_line.length start 0 (by decide) rfl (by simp)
  unfold outcome at h
  rwa [List.drop_zero, Nat.zero_add] at h

/-- A command with the path that the lexer sets. -/
def Exec.named (cmd : Exec) : Exec := { cmd with executable_path := cmd.args.headD [] }

/-- The first argument of a command without arguments is undefined. -/
theorem setPaths_eq (cmds : List Exec) : setPaths cmds =
    if ∀ cmd ∈ cmds, cmd.args ≠ [] then some (cmds.map Exec.named) else none := by
  unfold setPaths
  induction cmds with
  | nil => rfl
  | cons cmd cmds ih =>
    rw [List.mapM_cons, ih]
    cases hargs : cmd.args with
    | nil => simp [hargs]
    | cons path args =>
      have hcons : (∀ cmd' ∈ cmd :: cmds, cmd'.args ≠ []) ↔ ∀ cmd' ∈ cmds, cmd'.args ≠ [] := by
        simp [hargs]
      by_cases hall : ∀ cmd ∈ cmds, cmd.args ≠ []
      · rw [if_pos hall, if_pos (hcons.2 hall)]
        simp [hargs, Exec.named]
      · rw [if_neg hall, if_neg (mt hcons.1 hall)]
        simp

/-- The lexer of `mufash`. -/
theorem lexer_eq (cmd_line : Text) : lexer cmd_line = if endIndex cmd_line < 2 ^ 31 then
    setPaths (scan start cmd_line).finish.commands else none := by
  unfold lexer
  rw [lexed_eq]
  split_ifs with h
  · simp [trim_lexer]
  · rfl

/-- The lexer of the file system's shell: the first command, untrimmed. -/
theorem parseCommands_eq (cmd_line : Text) : parseCommands cmd_line =
    if endIndex cmd_line < 2 ^ 31 then
      some (match (scan start cmd_line).finish.done with
        | [] => (scan start cmd_line).finish.words ++ [(scan start cmd_line).finish.word]
        | cmd :: _ => cmd.args) else none := by
  unfold parseCommands
  rw [lexed_eq]
  split_ifs with h
  · cases hdone : (scan start cmd_line).finish.done with
    | nil => simp [Scanner.lexer, hdone]
    | cons cmd cmds => simp [Scanner.lexer, hdone]
  · rfl

/-! ### Words and spaces -/

namespace Scanner

variable {z : Scanner} {c : Char} {w : Text}

theorem step_plain (hz : z.mode = .plain) : z.step c = z.read c := by simp [step, hz]

theorem read_of_isvalid (hc : isvalid c) : z.read c = { z.push c with ignorespace := false } := by
  unfold read
  rw [if_pos hc]

theorem read_space : z.read ' ' = z.split := rfl

theorem read_semicolon : z.read ';' = z.close .none false := rfl

@[simp] theorem split_mode : z.split.mode = z.mode := by unfold split; split_ifs <;> rfl

@[simp] theorem split_done : z.split.done = z.done := by unfold split; split_ifs <;> rfl

theorem split_of_ignorespace (h : z.ignorespace) : z.split = z := if_pos h

/-- The spaces behind the first one are skipped. -/
theorem split_split : z.split.split = z.split := by
  apply split_of_ignorespace
  unfold split
  split_ifs with h
  · exact h
  · rfl

/-- The split does not change the arguments, but where it makes an empty one. -/
theorem args_split (h : z.word ≠ [] ∨ z.ignorespace) : z.split.args = z.args := by
  unfold split
  split_ifs with hb
  · rfl
  · simp [args, h.resolve_right hb]

theorem scan_spaces (hz : z.mode = .plain) (n : ℕ) :
    scan z (List.replicate (n + 1) ' ') = z.split := by
  induction n with
  | zero => exact step_plain hz
  | succ n ih =>
    rw [List.replicate_succ', scan_append, ih, scan_cons, scan_nil,
      step_plain (split_mode.trans hz), read_space, split_split]

theorem scan_spaces_of_ignorespace (hz : z.mode = .plain) (h : z.ignorespace) (n : ℕ) :
    scan z (List.replicate n ' ') = z := by
  cases n with
  | zero => rfl
  | succ n => rw [scan_spaces hz, split_of_ignorespace h]

theorem args_scan_spaces (hz : z.mode = .plain) (h : z.word ≠ [] ∨ z.ignorespace) (n : ℕ) :
    (scan z (List.replicate n ' ')).args = z.args := by
  cases n with
  | zero => rfl
  | succ n => rw [scan_spaces hz, args_split h]

/-- A word of valid characters. -/
theorem scan_word (hz : z.mode = .plain) (hw : ∀ c ∈ w, isvalid c) (hne : w ≠ []) :
    scan z w = { z with word := z.word ++ w, ignorespace := false } := by
  induction w generalizing z with
  | nil => exact absurd rfl hne
  | cons c w ih =>
    rw [scan_cons, step_plain hz, read_of_isvalid (hw c List.mem_cons_self)]
    cases w with
    | nil => simp [push, hz]
    | cons d w =>
      rw [ih (by rfl) (fun e he => hw e (List.mem_cons_of_mem _ he)) (List.cons_ne_nil _ _)]
      simp [push, hz]

/-- Valid characters and spaces belong to the open command. -/
theorem scan_quiet {text : Text} (hz : z.mode = .plain)
    (htext : ∀ c ∈ text, isvalid c ∨ c = ' ') :
    (scan z text).mode = .plain ∧ (scan z text).done = z.done := by
  induction text generalizing z with
  | nil => exact ⟨hz, rfl⟩
  | cons c text ih =>
    rw [List.forall_mem_cons] at htext
    rw [scan_cons, step_plain hz]
    obtain hc | rfl := htext.1
    · rw [read_of_isvalid hc]
      exact ih rfl htext.2
    · rw [read_space, ← split_done (z := z)]
      exact ih (split_mode.trans hz) htext.2

end Scanner

end Mufash
