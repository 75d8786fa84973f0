import Mathlib.Data.List.Basic
import Mathlib.Tactic

/-!
# The lexer of `mufash`

One loop over the characters of the command line, with the index of the current command, the index
of its current argument and a flag for the spaces that are skipped.  The file system's shell
`parseCommands` contains a copy of the loop.

* `body`, `loop`: one iteration, and the iterations until the end of the line;
* `lexer`: the commands of `mufash`, after the trimming of the last one;
* `parseCommands`: the arguments that the shell of the file system runs.

Accesses out of range and the overflow of the index, an `int`, are `none`.  The lexer does nothing
with a character but compare it, and so any `Char` stands for a `char`.
-/

namespace Mufash

/-- A command line, or an argument. -/
abbrev Text := List Char

/-- `isvalid(buf)`. -/
def isvalid (buf : Char) : Bool :=
  ('0' ≤ buf && buf ≤ '9') || ('A' ≤ buf && buf ≤ 'Z') || ('a' ≤ buf && buf ≤ 'z') ||
    buf == '/' || buf == '-' || buf == '_' || buf == '.' || buf == ',' || buf == '~'

/-- `enum class redirection`. -/
inductive Redirection
  | none
  | pipe
  | redir_output
  | redir_input
  | append_output
  deriving DecidableEq

/-- `struct exec`. -/
structure Exec where
  pid : ℕ
  executable_path : Text
  built_in : Bool
  args : List Text
  redir : Redirection
  background : Bool
  deriving DecidableEq

/-- The command that is pushed at the start and behind each operator. -/
def Exec.first : Exec := ⟨0, [], false, [[]], .none, false⟩

/-- The variables of the loop. -/
structure Lexer where
  cmds : List Exec
  currentCMD : ℕ
  currentArg : ℕ
  ignorespace : Bool
  i : ℕ

/-- Before the loop. -/
def Lexer.start : Lexer := ⟨[Exec.first], 0, 0, false, 0⟩

namespace Lexer

variable (s : Lexer)

/-- `++i`. -/
def next : Option Lexer := if s.i + 1 < 2 ^ 31 then some { s with i := s.i + 1 } else none

/-- An update of `cmds[currentCMD]`. -/
def modify (f : Exec → Option Exec) : Option Lexer := do
  let curCmd ← s.cmds[s.currentCMD]?
  let curCmd ← f curCmd
  some { s with cmds := s.cmds.set s.currentCMD curCmd }

/-- `curCmd->args[currentArg] += cur`. -/
def append (cur : Char) : Option Lexer :=
  s.modify fun curCmd => do
    let arg ← curCmd.args[s.currentArg]?
    some { curCmd with args := curCmd.args.set s.currentArg (arg ++ [cur]) }

/-- The branch of a space. -/
def space : Option Lexer :=
  if s.ignorespace then some s
  else do
    let s ← s.modify fun curCmd => some { curCmd with args := curCmd.args ++ [[]] }
    some { s with ignorespace := true, currentArg := s.currentArg + 1 }

/-- `curCmd->redir = redir`. -/
def mark (redir : Redirection) : Option Lexer :=
  s.modify fun curCmd => some { curCmd with redir := redir }

/-- `args.pop_back()`, if the current argument is empty. -/
def pop : Option Lexer :=
  s.modify fun curCmd => do
    let arg ← curCmd.args[s.currentArg]?
    some (if arg = [] then { curCmd with args := curCmd.args.dropLast } else curCmd)

/-- `cmds.push_back`, with the indices. -/
def newCMD : Lexer :=
  { s with cmds := s.cmds ++ [Exec.first], currentCMD := s.currentCMD + 1, currentArg := 0 }

/-- The branch of `;`, `|`, `>` and `&`. -/
def operator (cmd_line : Text) (cur : Char) : Option Lexer := do
  let s ← { s with ignorespace := true }.pop
  let s ←
    if cur = ';' then s.mark .none
    else if cur = '|' then s.mark .pipe
    else if cur = '>' then
      if s.i ≠ cmd_line.length - 1 ∧ cmd_line[s.i + 1]? = some '>' then do
        let s ← s.mark .append_output
        s.next
      else s.mark .redir_output
    else if cur = '<' ∧ s.currentCMD ≠ 0 then
      -- never taken: this branch is not entered with a `<`
      some { s with cmds := s.cmds.modify (s.currentCMD - 1) fun cmd =>
                              { cmd with redir := .redir_input } }
    else if cur = '&' then s.modify fun curCmd => some { curCmd with background := true }
    else some s
  some s.newCMD

/-- The loop over a quotation, with the rest of the line from `i` on. -/
def quotation (escape : Bool) (s : Lexer) : Text → Option Lexer
  | [] => some s
  | cur2 :: rest =>
      if cur2 = '\'' ∧ escape = false then some s
      else if cur2 = '\\' then do
        let s ← s.next
        quotation (!escape) s rest
      else do
        let s ← s.append cur2
        let s ← s.next
        quotation false s rest

/-- The loop over a comment, with the rest of the line from `i` on. -/
def comment (s : Lexer) : Text → Option Lexer
  | [] => some s
  | cur :: rest =>
      if cur = '#' then some s
      else do
        let s ← s.next
        comment s rest

/-- The body of the loop. -/
def body (cmd_line : Text) (cur : Char) : Option Lexer :=
  if isvalid cur then { s with ignorespace := false }.append cur
  else if cur = ' ' then s.space
  else if cur = ';' ∨ cur = '|' ∨ cur = '>' ∨ cur = '&' then s.operator cmd_line cur
  else if cur = '\\' then do
    let s ← s.next
    -- at the end of a `std::string` stands a NUL
    s.append (cmd_line[s.i]?.getD (Char.ofNat 0))
  else if cur = '\'' then do
    let s ← s.next
    s.quotation false (cmd_line.drop s.i)
  else if cur = '#' then do
    let s ← s.next
    s.comment (cmd_line.drop s.i)
  else some s

end Lexer

/-- The loop, for as many iterations as the fuel allows. -/
def loop (cmd_line : Text) : ℕ → Lexer → Option Lexer
  | 0, s => if s.i < cmd_line.length then none else some s
  | fuel + 1, s =>
      match cmd_line[s.i]? with
      | none => some s
      | some cur => do
          let s ← s.body cmd_line cur
          let s ← s.next
          loop cmd_line fuel s

/-- The loop from its start; no iteration stays where it is. -/
def lexed (cmd_line : Text) : Option Lexer := loop cmd_line cmd_line.length Lexer.start

/-- The trimming of the last command. -/
def trim (cmds : List Exec) : Option (List Exec) := do
  let lastCMD ← cmds.getLast?
  let arg ← lastCMD.args.getLast?
  let lastCMD := if arg = [] then { lastCMD with args := lastCMD.args.dropLast } else lastCMD
  some (if lastCMD.args = [] then cmds.dropLast else cmds.dropLast ++ [lastCMD])

/-- `cmds[i].executable_path = cmds[i].args[0]`, for each command. -/
def setPaths (cmds : List Exec) : Option (List Exec) :=
  cmds.mapM fun cmd => cmd.args.head?.map fun path => { cmd with executable_path := path }

/-- The lexer of `mufash`. -/
def lexer (cmd_line : Text) : Option (List Exec) := do
  let s ← lexed cmd_line
  let cmds ← trim s.cmds
  setPaths cmds

/-- `cmds[0].args`, with which `parseCommands` calls `built_in_func`. -/
def parseCommands (cmd_line : Text) : Option (List Text) := do
  let s ← lexed cmd_line
  let cmd ← s.cmds[0]?
  some cmd.args

end Mufash
