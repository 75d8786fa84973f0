import SysProg.Mufash.Scan

/-!
# The line as tokens

What a character is to the lexer depends only on the mode, and so the line can be cut into tokens
before any argument is built: characters of words, spaces and operators.  The lexer then folds the
tokens, and what it counts and collects can be read off them.

* `Token`, `Mode.read`, `tokens`: the tokens of a line;
* `feed`, `fold_tokens`: what the lexer does with a token, and that it does nothing else;
* `AtTop`, `reads`: the states at the top of the loop, and where an iteration reads the line;
* `sound_iff`: the invariant of the loop holds on every line, and the loop ends on all but those that
  run the index over.
-/

namespace Mufash

/-- A part of the line. A character of a word comes with whether it ends the skipping of spaces. -/
inductive Token
  | text (c : Char) (plain : Bool)
  | space
  | operator (redir : Redirection) (background : Bool)
  deriving DecidableEq

namespace Token

/-- The character that is appended to a word. -/
def char? : Token → Option Char
  | text c _ => some c
  | _ => none

def isOperator : Token → Bool
  | operator _ _ => true
  | _ => false

end Token

namespace Mode

/-- A character in the mode `plain`: the next mode, and the tokens that end here. -/
def read (c : Char) : Mode × List Token :=
  if isvalid c then (plain, [.text c true])
  else if c = ' ' then (plain, [.space])
  else if c = ';' then (plain, [.operator .none false])
  else if c = '|' then (plain, [.operator .pipe false])
  else if c = '>' then (greater, [])
  else if c = '&' then (plain, [.operator .none true])
  else if c = '\\' then (escaped, [])
  else if c = '\'' then (quoted false, [])
  else if c = '#' then (comment, [])
  else (plain, [])

/-- A character in any mode. -/
def step (c : Char) : Mode → Mode × List Token
  | plain => read c
  | greater =>
      if c = '>' then (plain, [.operator .append_output false])
      else ((read c).1, .operator .redir_output false :: (read c).2)
  | escaped => (plain, [.text c false])
  | quoted escape =>
      if c = '\'' ∧ escape = false then (plain, [])
      else if c = '\\' then (quoted !escape, [])
      else (quoted false, [.text c false])
  | comment => if c = '#' then (plain, []) else (comment, [])

/-- The token that the end of the line ends. -/
def last : Mode → List Token
  | greater => [.operator .redir_output false]
  | escaped => [.text (Char.ofNat 0) false]
  | _ => []

/-- The mode behind a text. -/
def after (mode : Mode) (text : Text) : Mode := text.foldl (fun mode c => (mode.step c).1) mode

/-- The tokens of a text. -/
def tokens (mode : Mode) : Text → List Token
  | [] => mode.last
  | c :: text => (mode.step c).2 ++ tokens (mode.step c).1 text

end Mode

/-- The tokens of a line. -/
def tokens (cmd_line : Text) : List Token := Mode.plain.tokens cmd_line

/-- The mode at the end of a line. -/
def endMode (cmd_line : Text) : Mode := Mode.plain.after cmd_line

/-! ### The lexer on tokens -/

namespace Scanner

variable {z : Scanner} {c : Char}

/-- What the lexer does with a token. -/
def feed (z : Scanner) : Token → Scanner
  | .text c plain => { z.push c with ignorespace := z.ignorespace && !plain }
  | .space => z.split
  | .operator redir background => z.close redir background

/-- The state without its mode. -/
def rest (z : Scanner) : Scanner := { z with mode := .plain }

theorem rest_split : z.split.rest = z.rest.split := by
  unfold split
  by_cases h : z.ignorespace
  · rw [if_pos h, if_pos (show z.rest.ignorespace from h)]
  · rw [if_neg h, if_neg (show ¬z.rest.ignorespace from h)]
    rfl

/-- A character in the mode `plain`. -/
theorem read_eq (z : Scanner) (hz : z.mode = .plain) (c : Char) :
    (z.read c).mode = (Mode.read c).1 ∧
      (z.read c).rest = (Mode.read c).2.foldl feed z.rest := by
  unfold Scanner.read Mode.read
  split_ifs
  · exact ⟨rfl, by simp [feed, rest, push]⟩
  · exact ⟨split_mode.trans hz, rest_split⟩
  all_goals first
    | exact ⟨rfl, rfl⟩
    | exact ⟨hz, rfl⟩

/-- A character in any mode. -/
theorem step_eq (z : Scanner) (c : Char) : (z.step c).mode = (z.mode.step c).1 ∧
    (z.step c).rest = (z.mode.step c).2.foldl feed z.rest := by
  unfold Scanner.step
  cases hz : z.mode with
  | plain => exact read_eq z hz c
  | greater =>
    dsimp only [Mode.step]
    split_ifs with hc
    · exact ⟨rfl, rfl⟩
    · exact read_eq (z.close .redir_output false) rfl c
  | escaped => exact ⟨rfl, by simp [Mode.step, feed, rest, push]⟩
  | quoted escape =>
    dsimp only [Mode.step]
    split_ifs
    · exact ⟨rfl, rfl⟩
    · exact ⟨rfl, rfl⟩
    · exact ⟨rfl, by simp [feed, rest, push]⟩
  | comment =>
    dsimp only [Mode.step]
    split_ifs
    · exact ⟨rfl, rfl⟩
    · exact ⟨hz, rfl⟩

theorem finish_eq (z : Scanner) : z.finish.rest = z.mode.last.foldl feed z.rest := by
  unfold finish
  cases hz : z.mode with
  | greater => rfl
  | escaped => simp [Mode.last, feed, rest, push]
  | plain => rfl
  | quoted escape => rfl
  | comment => rfl

theorem scan_mode (z : Scanner) (text : Text) : (scan z text).mode = z.mode.after text := by
  induction text generalizing z with
  | nil => rfl
  | cons c text ih => rw [scan_cons, ih, (step_eq z c).1]; rfl

/-- **The lexer folds the tokens of the line.** -/
theorem fold_tokens (z : Scanner) (text : Text) :
    (scan z text).finish.rest = (z.mode.tokens text).foldl feed z.rest := by
  induction text generalizing z with
  | nil => exact finish_eq z
  | cons c text ih =>
    rw [scan_cons, ih, (step_eq z c).1, (step_eq z c).2, ← List.foldl_append]
    rfl

end Scanner

open Scanner

/-! ### Commands and characters -/

/-- All arguments in a row. -/
def contents (cmds : List Exec) : Text := (cmds.flatMap Exec.args).flatten

section Contents

variable {z : Scanner} {i : ℕ}

theorem flatten_args (z : Scanner) : z.args.flatten = z.words.flatten ++ z.word := by
  unfold args
  split_ifs with h <;> simp [h]

theorem contents_lexer (z : Scanner) (i : ℕ) :
    contents (z.lexer i).cmds = contents z.done ++ (z.words.flatten ++ z.word) := by
  simp [contents, Scanner.lexer]

/-- A token adds its character, and nothing else. -/
theorem contents_feed (z : Scanner) (i : ℕ) (t : Token) :
    contents ((z.feed t).lexer i).cmds = contents (z.lexer i).cmds ++ t.char?.toList := by
  rw [contents_lexer, contents_lexer]
  cases t with
  | text c plain => simp [feed, push, Token.char?]
  | space =>
    unfold feed split
    split_ifs <;> simp [Token.char?]
  | operator redir background => simp [feed, close, contents, flatten_args, Token.char?]

theorem contents_foldl (z : Scanner) (i : ℕ) (ts : List Token) :
    contents ((ts.foldl feed z).lexer i).cmds =
      contents (z.lexer i).cmds ++ ts.filterMap Token.char? := by
  induction ts generalizing z with
  | nil => simp
  | cons t ts ih =>
    rw [List.foldl_cons, ih, contents_feed, List.append_assoc]
    cases h : t.char? <;> simp [h]

/-- Each operator closes a command. -/
theorem length_done_foldl (z : Scanner) (ts : List Token) :
    (ts.foldl feed z).done.length = z.done.length + ts.countP Token.isOperator := by
  induction ts generalizing z with
  | nil => rfl
  | cons t ts ih =>
    rw [List.foldl_cons, ih]
    cases t with
    | text c plain => simp [feed, push, Token.isOperator]
    | space => simp [feed, Token.isOperator]
    | operator redir background =>
      simp only [feed, close, Token.isOperator, List.length_append, List.length_singleton,
        List.countP_cons, if_true]
      omega

/-- A character of the line is passed on at most once. -/
theorem char_step (mode : Mode) (c : Char) :
    (mode.step c).2.filterMap Token.char? = [] ∨ (mode.step c).2.filterMap Token.char? = [c] := by
  have hread : (Mode.read c).2.filterMap Token.char? = [] ∨
      (Mode.read c).2.filterMap Token.char? = [c] := by
    unfold Mode.read
    split_ifs <;> simp [Token.char?]
  cases mode with
  | plain => exact hread
  | greater =>
    dsimp only [Mode.step]
    split_ifs
    · exact Or.inl rfl
    · rwa [List.filterMap_cons_none rfl]
  | escaped => exact Or.inr rfl
  | quoted escape =>
    dsimp only [Mode.step]
    split_ifs <;> simp [Token.char?]
  | comment =>
    dsimp only [Mode.step]
    split_ifs <;> simp

/-- The characters of the words stand in the line in this order; a backslash at its end takes the NUL
behind it. -/
theorem chars_tokens (mode : Mode) (text : Text) : ∃ kept : Text, kept.Sublist text ∧
    (mode.tokens text).filterMap Token.char? =
      kept ++ if mode.after text = .escaped then [Char.ofNat 0] else [] := by
  induction text generalizing mode with
  | nil =>
    refine ⟨[], List.Sublist.refl _, ?_⟩
    cases mode <;> simp [Mode.tokens, Mode.after, Mode.last, Token.char?]
  | cons c text ih =>
    obtain ⟨kept, hkept, hchars⟩ := ih (mode.step c).1
    have hafter : mode.after (c :: text) = (mode.step c).1.after text := rfl
    rw [Mode.tokens, List.filterMap_append, hchars, hafter]
    rcases char_step mode c with h | h
    · exact ⟨kept, hkept.cons c, by rw [h, List.nil_append]⟩
    · exact ⟨c :: kept, hkept.cons_cons c, by rw [h]; rfl⟩

end Contents

/-! ### The top of the loop -/

/-- The states at the top of the loop. -/
inductive AtTop (cmd_line : Text) : Lexer → Prop
  | start : AtTop cmd_line Lexer.start
  | next {s t u : Lexer} {cur : Char} : AtTop cmd_line s → cmd_line[s.i]? = some cur →
      s.body cmd_line cur = some t → t.next = some u → AtTop cmd_line u

/-- The indices name the last command and its last argument. -/
structure Lexer.Current (s : Lexer) : Prop where
  cmd : s.currentCMD + 1 = s.cmds.length
  arg : ∃ curCmd, s.cmds[s.currentCMD]? = some curCmd ∧ s.currentArg + 1 = curCmd.args.length

/-- Where the loop over a quotation reads the line. -/
def quotationReads (i : ℕ) (escape : Bool) : Text → List ℕ
  | [] => []
  | cur2 :: rest =>
      i :: if cur2 = '\'' ∧ escape = false then []
        else if cur2 = '\\' then quotationReads (i + 1) (!escape) rest
        else quotationReads (i + 1) false rest

/-- Where the loop over a comment reads the line. -/
def commentReads (i : ℕ) : Text → List ℕ
  | [] => []
  | cur :: rest => i :: if cur = '#' then [] else commentReads (i + 1) rest

/-- Where an iteration reads the line. -/
def Lexer.reads (s : Lexer) (cmd_line : Text) (cur : Char) : List ℕ :=
  s.i :: if isvalid cur then []
    else if cur = '>' then if s.i ≠ cmd_line.length - 1 then [s.i + 1] else []
    else if cur = '\\' then [s.i + 1]
    else if cur = '\'' then quotationReads (s.i + 1) false (cmd_line.drop (s.i + 1))
    else if cur = '#' then commentReads (s.i + 1) (cmd_line.drop (s.i + 1))
    else []

section Iteration

variable {cmd_line : Text} {z : Scanner} {s t : Lexer} {i : ℕ} {c : Char}

theorem current_lexer (z : Scanner) (i : ℕ) : (z.lexer i).Current where
  cmd := by simp [Scanner.lexer]
  arg := ⟨{ Exec.first with args := z.words ++ [z.word] }, by simp [Scanner.lexer],
    by simp [Scanner.lexer]⟩

theorem next_lexer (h : (z.lexer i).next = some t) : t = z.lexer (i + 1) := by
  unfold Lexer.next at h
  split_ifs at h
  exact (Option.some.inj h).symm

theorem quotation_lexer {escape : Bool} {rest : Text}
    (h : (z.lexer i).quotation escape rest = some t) : ∃ z' j, t = Scanner.lexer z' j := by
  induction rest generalizing z i escape with
  | nil => exact ⟨z, i, (Option.some.inj h).symm⟩
  | cons c rest ih =>
    unfold Lexer.quotation at h
    split_ifs at h
    · exact ⟨z, i, (Option.some.inj h).symm⟩
    · obtain ⟨s, hs, h⟩ := Option.bind_eq_some_iff.1 h
      rw [next_lexer hs] at h
      exact ih h
    · rw [append_lexer, Option.bind_eq_bind, Option.bind_some] at h
      obtain ⟨s, hs, h⟩ := Option.bind_eq_some_iff.1 h
      rw [next_lexer hs] at h
      exact ih h

theorem comment_lexer {rest : Text} (h : (z.lexer i).comment rest = some t) :
    ∃ j, t = z.lexer j := by
  induction rest generalizing i with
  | nil => exact ⟨i, (Option.some.inj h).symm⟩
  | cons c rest ih =>
    unfold Lexer.comment at h
    split_ifs at h
    · exact ⟨i, (Option.some.inj h).symm⟩
    · obtain ⟨s, hs, h⟩ := Option.bind_eq_some_iff.1 h
      rw [next_lexer hs] at h
      exact ih h

theorem operator_lexer (hc : c = ';' ∨ c = '|' ∨ c = '>' ∨ c = '&')
    (h : (z.lexer i).operator cmd_line c = some t) : ∃ z' j, t = Scanner.lexer z' j := by
  rcases hc with rfl | rfl | rfl | rfl
  · rw [operator_semicolon] at h
    exact ⟨_, _, (Option.some.inj h).symm⟩
  · rw [operator_pipe] at h
    exact ⟨_, _, (Option.some.inj h).symm⟩
  · by_cases hnext : cmd_line[i + 1]? = some '>'
    · rw [operator_append hnext] at h
      exact ⟨_, _, next_lexer h⟩
    · rw [operator_output hnext] at h
      exact ⟨_, _, (Option.some.inj h).symm⟩
  · rw [operator_background] at h
    exact ⟨_, _, (Option.some.inj h).symm⟩

/-- **One iteration** keeps the form of the state. -/
theorem body_lexer (h : (z.lexer i).body cmd_line c = some t) :
    ∃ z' j, t = Scanner.lexer z' j := by
  unfold Lexer.body at h
  split_ifs at h with hvalid hspace hoperator hbackslash hquote hcomment
  · have happend : ({ z.lexer i with ignorespace := false } : Lexer).append c =
        some (({ z with ignorespace := false } : Scanner).push c |>.lexer i) :=
      append_lexer (z := { z with ignorespace := false })
    rw [happend] at h
    exact ⟨_, _, (Option.some.inj h).symm⟩
  · rw [space_lexer] at h
    exact ⟨_, _, (Option.some.inj h).symm⟩
  · exact operator_lexer hoperator h
  · obtain ⟨s, hs, h⟩ := Option.bind_eq_some_iff.1 h
    rw [next_lexer hs, append_lexer] at h
    exact ⟨_, _, (Option.some.inj h).symm⟩
  · obtain ⟨s, hs, h⟩ := Option.bind_eq_some_iff.1 h
    rw [next_lexer hs] at h
    exact quotation_lexer h
  · obtain ⟨s, hs, h⟩ := Option.bind_eq_some_iff.1 h
    rw [next_lexer hs] at h
    obtain ⟨j, hj⟩ := comment_lexer h
    exact ⟨z, j, hj⟩
  · exact ⟨z, i, (Option.some.inj h).symm⟩

/-- Every state at the top of the loop is one of the automaton. -/
theorem AtTop.lexer (h : AtTop cmd_line s) : ∃ z i, s = Scanner.lexer z i := by
  induction h with
  | start => exact ⟨Scanner.start, 0, rfl⟩
  | next _ _ hbody hnext ih =>
    obtain ⟨z, i, rfl⟩ := ih
    obtain ⟨z', j, rfl⟩ := body_lexer hbody
    exact ⟨z', j + 1, next_lexer hnext⟩

theorem AtTop.current (h : AtTop cmd_line s) : s.Current := by
  obtain ⟨z, i, rfl⟩ := h.lexer
  exact current_lexer z i

theorem lt_of_mem_quotationReads {r : ℕ} {escape : Bool} {rest : Text}
    (h : r ∈ quotationReads i escape rest) : r < i + rest.length := by
  induction rest generalizing i escape with
  | nil => exact absurd h List.not_mem_nil
  | cons c rest ih =>
    rw [List.length_cons]
    rcases List.mem_cons.1 h with rfl | h
    · omega
    split_ifs at h
    · exact absurd h List.not_mem_nil
    · have := ih h
      omega
    · have := ih h
      omega

theorem lt_of_mem_commentReads {r : ℕ} {rest : Text} (h : r ∈ commentReads i rest) :
    r < i + rest.length := by
  induction rest generalizing i with
  | nil => exact absurd h List.not_mem_nil
  | cons c rest ih =>
    rw [List.length_cons]
    rcases List.mem_cons.1 h with rfl | h
    · omega
    split_ifs at h
    · exact absurd h List.not_mem_nil
    · have := ih h
      omega

/-- An iteration reads the line at its length at most, where a NUL stands. -/
theorem Lexer.reads_le (hcur : cmd_line[s.i]? = some c) {r : ℕ} (hr : r ∈ s.reads cmd_line c) :
    r ≤ cmd_line.length := by
  have hi : s.i < cmd_line.length := (List.getElem?_eq_some_iff.1 hcur).1
  rcases List.mem_cons.1 hr with rfl | hr
  · exact hi.le
  split_ifs at hr
  · exact absurd hr List.not_mem_nil
  · rw [List.mem_singleton.1 hr]
    exact hi
  · exact absurd hr List.not_mem_nil
  · rw [List.mem_singleton.1 hr]
    exact hi
  · have := lt_of_mem_quotationReads hr
    rw [List.length_drop] at this
    omega
  · have := lt_of_mem_commentReads hr
    rw [List.length_drop] at this
    omega
  · exact absurd hr List.not_mem_nil

end Iteration

/-! ### The whole line -/

/-- The invariant of the loop, and what it ends with; `lexed` is `none` where an index is out of
range. -/
structure Sound (cmd_line : Text) : Prop where
  current : ∀ s, AtTop cmd_line s → s.Current
  reads : ∀ s cur, AtTop cmd_line s → cmd_line[s.i]? = some cur →
    ∀ r ∈ s.reads cmd_line cur, r ≤ cmd_line.length
  ends : ∃ s, lexed cmd_line = some s ∧
    s.cmds.length = 1 + (tokens cmd_line).countP Token.isOperator ∧
    ∃ kept : Text, kept.Sublist cmd_line ∧
      contents s.cmds = kept ++ if endMode cmd_line = .escaped then [Char.ofNat 0] else []

/-- The line fits the index: it is shorter than `2 ^ 31`, and if it is not shorter by two, then no
quotation, no comment and no backslash is left open at its end. -/
def Fits (cmd_line : Text) : Prop := cmd_line.length < 2 ^ 31 ∧
  (cmd_line.length + 1 < 2 ^ 31 ∨ endMode cmd_line = .plain ∨ endMode cmd_line = .greater)

instance : DecidablePred Fits := fun cmd_line => inferInstanceAs (Decidable (cmd_line.length < 2 ^ 31 ∧
  (cmd_line.length + 1 < 2 ^ 31 ∨ endMode cmd_line = .plain ∨ endMode cmd_line = .greater)))

theorem endIndex_eq (cmd_line : Text) : endIndex cmd_line = cmd_line.length +
    if endMode cmd_line = .plain ∨ endMode cmd_line = .greater then 0 else 1 := by
  have hmode : (scan start cmd_line).mode = endMode cmd_line := scan_mode start cmd_line
  unfold endIndex overrun
  rw [hmode]
  cases endMode cmd_line <;> rfl

theorem fits_iff (cmd_line : Text) : Fits cmd_line ↔ endIndex cmd_line < 2 ^ 31 := by
  rw [endIndex_eq, Fits]
  split_ifs with h
  · simp [h]
  · simp only [h, or_false]
    omega

/-- **The loop invariant.** It holds on every line; the loop ends, and counts and collects what it
should, exactly if the line fits the index. -/
theorem sound_iff (cmd_line : Text) : Sound cmd_line ↔ Fits cmd_line := by
  rw [fits_iff]
  constructor
  · intro h
    obtain ⟨s, hs, -⟩ := h.ends
    rw [lexed_eq] at hs
    split_ifs at hs with hfit
    exact hfit
  · intro hfit
    refine ⟨fun s hs => hs.current, fun s cur _ hcur r hr => Lexer.reads_le hcur hr,
      (scan start cmd_line).finish.lexer (endIndex cmd_line), by rw [lexed_eq, if_pos hfit], ?_, ?_⟩
    · have hdone := congrArg (fun z => z.done.length) (fold_tokens start cmd_line)
      rw [length_done_foldl] at hdone
      have hcmds : ((scan start cmd_line).finish.lexer (endIndex cmd_line)).cmds.length =
          (scan start cmd_line).finish.rest.done.length + 1 := List.length_append
      rw [hcmds, hdone, Nat.add_comm]
      exact congrArg (1 + ·) (Nat.zero_add _)
    · obtain ⟨kept, hkept, hchars⟩ := chars_tokens .plain cmd_line
      have hcontents := congrArg (fun z => contents (z.lexer 0).cmds) (fold_tokens start cmd_line)
      rw [contents_foldl] at hcontents
      exact ⟨kept, hkept, (hcontents.trans (List.nil_append _)).trans hchars⟩

theorem endMode_backslash (n : ℕ) : endMode (List.replicate n 'a' ++ ['\\']) = .escaped := by
  have hword : Mode.plain.after (List.replicate n 'a') = .plain := by
    induction n with
    | zero => rfl
    | succ n ih => exact ih
  rw [endMode, Mode.after, List.foldl_append]
  exact congrArg (fun mode : Mode => (mode.step '\\').1) hword

/-- A line that fills the index and ends in a backslash is not lexed to its end. -/
theorem not_sound_backslash {n : ℕ} (hn : n + 2 = 2 ^ 31) :
    ¬Sound (List.replicate n 'a' ++ ['\\']) := by
  intro h
  obtain ⟨s, hs, -⟩ := h.ends
  have hend : endIndex (List.replicate n 'a' ++ ['\\']) = n + 2 := by
    rw [endIndex_eq, endMode_backslash, List.length_append, List.length_replicate]
    rfl
  rw [lexed_eq, hend, if_neg hn.not_lt] at hs
  exact Option.some_ne_none s hs.symm

/-- The shortest such line, one character shorter than `2 ^ 31`. -/
theorem not_sound_shortest : (List.replicate 2147483646 'a' ++ ['\\']).length < 2 ^ 31 ∧
    ¬Sound (List.replicate 2147483646 'a' ++ ['\\']) := by
  refine ⟨?_, not_sound_backslash (by norm_num)⟩
  rw [List.length_append, List.length_replicate]
  norm_num

end Mufash
