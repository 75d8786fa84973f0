import SysProg.Mufash.Escape
import SysProg.Mufash.Grammar

/-!
# Quoting

Between quotes every character but two stands for itself.  A backslash takes its meaning from the
quote behind it, and is dropped itself, also where it stands behind another one.  The closing quote
leaves the flag for the spaces as it was, and so the space behind a quoted word is skipped.

* `quote`, `quoted`: words written between quotes, behind the name of a command;
* `kept`: what the lexer keeps of such a word;
* `lexer_quoted_iff`: both shells read the words that were written exactly if there is one at most,
  without a backslash.
-/

namespace Mufash

open Scanner

/-- A word between quotes, with a backslash before each quote and each backslash. -/
def quote (w : Text) : Text :=
  '\'' :: w.flatMap (fun c => if c = '\'' ∨ c = '\\' then ['\\', c] else [c]) ++ ['\'']

/-- A command name and quoted words behind it, with single spaces. -/
def quoted (name : Word) (words : List Argument) : Text :=
  name.text ++ words.flatMap fun w => ' ' :: quote w.text

/-- The characters of a quoted word that the lexer takes over. -/
def kept (w : Text) : Text := w.filter (· ≠ '\\')

variable {z : Scanner} {w : Text} {name : Word} {words : List Argument}

/-- The characters of a quoted word, from inside of the quotation. -/
theorem scan_quotation (hz : z.mode = .quoted false) (w : Text) :
    scan z (w.flatMap fun c => if c = '\'' ∨ c = '\\' then ['\\', c] else [c]) =
      { z with word := z.word ++ kept w } := by
  induction w generalizing z with
  | nil => simp [kept]
  | cons c w ih =>
    rw [List.flatMap_cons, scan_append]
    by_cases hquote : c = '\''
    · -- the backslash before a quote makes it a character of the word
      subst hquote
      have hstep : scan z ['\\', '\''] = { z.push '\'' with mode := .quoted false } := by
        simp [step, hz, push]
      rw [if_pos (Or.inl rfl), hstep, ih rfl]
      simp [push, hz, kept]
    by_cases hbackslash : c = '\\'
    · -- two backslashes set the flag and reset it
      subst hbackslash
      have hstep : scan z ['\\', '\\'] = z := by
        obtain ⟨mode, done, words, word, skip⟩ := z
        obtain rfl : mode = .quoted false := hz
        rfl
      rw [if_pos (Or.inr rfl), hstep, ih hz]
      simp [kept]
    · have hstep : scan z [c] = { z.push c with mode := .quoted false } := by
        simp [step, hz, hquote, hbackslash]
      rw [if_neg (by simp [hquote, hbackslash]), hstep, ih rfl]
      simp [push, hz, kept, hbackslash]

/-- The quotes do not end the skipping of spaces. -/
theorem scan_quote (hz : z.mode = .plain) (w : Text) :
    scan z (quote w) = { z with word := z.word ++ kept w } := by
  have hopen : z.step '\'' = { z with mode := .quoted false } := step_plain hz
  rw [quote, List.cons_append, scan_cons, hopen, scan_append, scan_quotation rfl]
  simp [step, ← hz]

/-- Where spaces are skipped, the words run together. -/
theorem scan_quoted_rest (hz : z.mode = .plain) (hskip : z.ignorespace) (words : List Argument) :
    scan z (words.flatMap fun w => ' ' :: quote w.text) =
      { z with word := z.word ++ words.flatMap fun w => kept w.text } := by
  induction words generalizing z with
  | nil => simp
  | cons w words ih =>
    have hspace : z.step ' ' = z := (step_plain hz).trans (split_of_ignorespace hskip)
    rw [List.flatMap_cons, scan_append, scan_cons, hspace, scan_quote hz,
      ih (z := { z with word := z.word ++ kept w.text }) hz hskip]
    simp

/-- What the automaton holds at the end of the line: the name, and the words as one. -/
theorem scan_quoted (name : Word) (words : List Argument) :
    scan start (quoted name words) =
      if words = [] then { start with word := name.text }
      else ⟨.plain, [], [name.text], words.flatMap fun w => kept w.text, true⟩ := by
  have hname : scan start name.text = { start with word := name.text } :=
    scan_word rfl name.valid name.ne_nil
  rw [quoted, scan_append, hname]
  cases words with
  | nil => simp
  | cons w words =>
    have hspace : ({ start with word := name.text } : Scanner).step ' ' =
        ⟨.plain, [], [name.text], [], true⟩ := rfl
    rw [if_neg (List.cons_ne_nil _ _), List.flatMap_cons, scan_append, scan_cons, hspace,
      scan_quote rfl, scan_quoted_rest rfl rfl]
    simp

/-! ### When the words are read as they were written -/

theorem kept_eq_self_iff : kept w = w ↔ '\\' ∉ w := by
  rw [kept, List.filter_eq_self]
  simp only [decide_eq_true_eq]
  exact ⟨fun h hmem => h _ hmem rfl, fun h c hc e => h (e ▸ hc)⟩

/-- The arguments behind the name: one word at most. -/
def joined (words : List Argument) : List Text :=
  if words = [] then [] else [words.flatMap fun w => kept w.text]

theorem joined_eq_iff : joined words = words.map Argument.text ↔
    words.length ≤ 1 ∧ ∀ w ∈ words, '\\' ∉ w.text := by
  cases words with
  | nil => simp [joined]
  | cons w words =>
    cases words with
    | nil => simp [joined, kept_eq_self_iff]
    | cons w' words => simp [joined]

/-- What the automaton holds at the end of the line, once more. -/
theorem scanner_quoted (name : Word) (words : List Argument) : ∃ z,
    scan start (quoted name words) = z ∧ z.mode = .plain ∧ z.done = [] ∧
      z.words ++ [z.word] = name.text :: joined words ∧
      z.args = name.text :: (joined words).filter (· ≠ []) := by
  rw [scan_quoted]
  split_ifs with hnil
  · exact ⟨_, rfl, rfl, rfl, by simp [joined, hnil, start],
      by simp [joined, hnil, args, name.ne_nil, start]⟩
  · refine ⟨_, rfl, rfl, rfl, by simp [joined, hnil], ?_⟩
    by_cases hempty : (words.flatMap fun w => kept w.text) = []
    · simp [joined, hnil, args, hempty]
    · simp [joined, hnil, args, hempty]

/-- An empty word at the end, which `mufash` trims, stands for words that were written. -/
theorem trimmed_eq_iff : (joined words).filter (· ≠ []) = words.map Argument.text ↔
    joined words = words.map Argument.text := by
  unfold joined
  split_ifs with hnil
  · rfl
  by_cases hempty : (words.flatMap fun w => kept w.text) = []
  · have hleft : [] ≠ words.map Argument.text := fun h => hnil (List.map_eq_nil_iff.1 h.symm)
    have hright : [[]] ≠ words.map Argument.text := fun h => by
      obtain ⟨w, -, hw⟩ := List.mem_map.1 (h ▸ List.mem_singleton_self [])
      exact w.ne_nil hw
    simp [hempty, hleft, hright]
  · simp [hempty]

/-- **Quoted words** behind the name of a command are read in both shells exactly if there is at most
one, and it contains no backslash. -/
theorem lexer_quoted_iff (name : Word) (words : List Argument) :
    (lexer (quoted name words) =
        some [⟨0, name.text, false, name.text :: words.map Argument.text, .none, false⟩] ↔
      words.length ≤ 1 ∧ (∀ w ∈ words, '\\' ∉ w.text) ∧ (quoted name words).length < 2 ^ 31) ∧
    (parseCommands (quoted name words) = some (name.text :: words.map Argument.text) ↔
      words.length ≤ 1 ∧ (∀ w ∈ words, '\\' ∉ w.text) ∧
        (quoted name words).length < 2 ^ 31) := by
  obtain ⟨z, hz, hmode, hdone, hwords, hargs⟩ := scanner_quoted name words
  have hend : endIndex (quoted name words) = (quoted name words).length := by
    simp [endIndex, overrun, hz, hmode]
  have hfinish : z.finish = z := by simp [finish, hmode]
  have hpaths : setPaths z.commands = some [⟨0, name.text, false,
      name.text :: (joined words).filter (· ≠ []), .none, false⟩] := by
    have hcommands : z.commands = [{ Exec.first with args := z.args }] := by
      rw [commands, if_neg (by simp [hargs]), hdone, List.nil_append]
    rw [hcommands, setPaths_eq, if_pos (by simp [hargs]), hargs]
    rfl
  rw [lexer_eq, parseCommands_eq, hend, hz, hfinish, hpaths, hdone, ← and_assoc, ← joined_eq_iff]
  constructor
  · rw [← trimmed_eq_iff, Option.ite_none_right_eq_some, and_comm]
    simp
  · rw [Option.ite_none_right_eq_some, and_comm]
    simp [hwords]

/-- The command name `e`. -/
def nameE : Word := ⟨['e'], by decide, List.forall_mem_singleton.2 rfl⟩

/-- The words `a`, `b` and `\`. -/
def threeWords : List Argument :=
  [⟨['a'], by decide, by decide⟩, ⟨['b'], by decide, by decide⟩, ⟨['\\'], by decide, by decide⟩]

/-- The first two of the words are read as one, and the last one is lost. -/
theorem lexer_quoted_merged :
    quoted nameE threeWords = "e 'a' 'b' '\\\\'".toList ∧
    lexer (quoted nameE threeWords) =
      some [⟨0, ['e'], false, [['e'], ['a', 'b']], .none, false⟩] ∧
    parseCommands (quoted nameE threeWords) = some [['e'], ['a', 'b']] := by
  decide

end Mufash
