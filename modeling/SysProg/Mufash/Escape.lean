import SysProg.Mufash.Scan

/-!
# Escaping

A backslash takes the next character into the word, whatever it is, but it does not end the skipping
of spaces as a valid character does.

* `escape`, `escaped`: arguments written with backslashes, and spaces between them;
* `grouped`: the arguments that the lexer makes of them;
* `lexer_escaped_iff`: these are the ones written, in both shells, exactly if each word between the
  first and the last has a character that needs no backslash.
-/

namespace Mufash

open Scanner

/-- A word, with a backslash before each character that `isvalid` does not accept. -/
def escape (w : Text) : Text := w.flatMap fun c => if isvalid c then [c] else ['\\', c]

/-- A nonempty argument without NUL. -/
structure Argument where
  text : Text
  ne_nil : text ≠ []
  no_nul : Char.ofNat 0 ∉ text

/-- Arguments as a command line, with `n + 1` spaces before an argument that comes with `n`. -/
def escaped (first : Argument) (rest : List (ℕ × Argument)) : Text :=
  escape first.text ++ rest.flatMap fun p => List.replicate (p.1 + 1) ' ' ++ escape p.2.text

/-- The arguments behind the command line. -/
def arguments (first : Argument) (rest : List (ℕ × Argument)) : List Text :=
  first.text :: rest.map fun p => p.2.text

/-- The arguments that the lexer reads: where spaces are skipped, the next word continues the open
one. -/
def grouped (ignorespace : Bool) (word : Text) : List (ℕ × Argument) → List Text
  | [] => [word]
  | p :: rest =>
      if ignorespace then grouped (!p.2.text.any isvalid) (word ++ p.2.text) rest
      else word :: grouped (!p.2.text.any isvalid) p.2.text rest

variable {z : Scanner} {first : Argument} {rest : List (ℕ × Argument)}

/-- Only a character without a backslash ends the skipping of spaces. -/
theorem scan_escape (hz : z.mode = .plain) (w : Text) : scan z (escape w) =
    { z with word := z.word ++ w, ignorespace := z.ignorespace && !w.any isvalid } := by
  induction w generalizing z with
  | nil => simp [escape]
  | cons c w ih =>
    have hcons : escape (c :: w) = (if isvalid c then [c] else ['\\', c]) ++ escape w := rfl
    rw [hcons, scan_append]
    by_cases hc : isvalid c
    · have hstep : scan z [c] = { z.push c with ignorespace := false } := by
        rw [scan_cons, scan_nil, step_plain hz, read_of_isvalid hc]
      rw [if_pos hc, hstep, ih rfl]
      simp [push, hz, hc]
    · have hstep : scan z ['\\', c] = z.push c := by
        rw [scan_cons, step_plain hz]
        rfl
      rw [if_neg hc, hstep, ih rfl]
      simp [push, hz, hc]

/-- The words behind the first. -/
theorem scan_rest (rest : List (ℕ × Argument)) (hz : z.mode = .plain) (hword : z.word ≠ []) :
    ∃ z', scan z (rest.flatMap fun p => List.replicate (p.1 + 1) ' ' ++ escape p.2.text) = z' ∧
      z'.mode = .plain ∧ z'.done = z.done ∧ z'.word ≠ [] ∧
      z'.words ++ [z'.word] = z.words ++ grouped z.ignorespace z.word rest := by
  induction rest generalizing z with
  | nil => exact ⟨z, rfl, hz, rfl, hword, rfl⟩
  | cons p rest ih =>
    rw [List.flatMap_cons, scan_append, scan_append, scan_spaces hz, scan_escape (by simp [hz])]
    unfold split grouped
    by_cases hb : z.ignorespace
    · have hopen : z.word ++ p.2.text ≠ [] := fun h => hword (List.append_eq_nil_iff.1 h).1
      simp only [hb, if_true]
      exact ih hz hopen
    · simp only [if_neg hb, List.nil_append, Bool.true_and]
      obtain ⟨z', hz', hmode, hdone, hword', hwords⟩ := ih (z := { z with
        words := z.words ++ [z.word], word := p.2.text, ignorespace := !p.2.text.any isvalid })
        hz p.2.ne_nil
      refine ⟨z', hz', hmode, hdone, hword', ?_⟩
      rw [hwords, List.append_assoc, List.singleton_append]

/-! ### When the words stay apart -/

theorem length_grouped_le (b : Bool) (word : Text) (rest : List (ℕ × Argument)) :
    (grouped b word rest).length ≤ rest.length + 1 := by
  induction rest generalizing b word with
  | nil => exact Nat.le_refl 1
  | cons p rest ih =>
    unfold grouped
    split_ifs with hb
    · exact Nat.le_succ_of_le (ih _ _)
    · simpa using ih _ _

/-- The words are read as they were written exactly if each word but the last one, and but the one
that comes first, has a character without a backslash. -/
theorem grouped_eq_iff (word : Text) (rest : List (ℕ × Argument)) :
    grouped false word rest = word :: rest.map (fun p => p.2.text) ↔
      ∀ p ∈ rest.dropLast, ∃ c ∈ p.2.text, isvalid c := by
  induction rest generalizing word with
  | nil => simp [grouped]
  | cons p rest ih =>
    unfold grouped
    simp only [Bool.false_eq_true, if_false, List.map_cons, List.cons.injEq, true_and]
    cases rest with
    | nil => simp [grouped]
    | cons q rest =>
      rw [List.dropLast_cons_cons, List.forall_mem_cons]
      by_cases hp : ∃ c ∈ p.2.text, isvalid c
      · have hany : p.2.text.any isvalid = true := List.any_eq_true.2 hp
        rw [hany, Bool.not_true, ih]
        simp [hp]
      · have hany : p.2.text.any isvalid = false := by simpa using hp
        -- the space behind the word is skipped, and one argument is missing
        have hlt : (grouped true p.2.text (q :: rest)).length < (q :: rest).length + 1 := by
          have := length_grouped_le (!q.2.text.any isvalid) (p.2.text ++ q.2.text) rest
          simpa [grouped, Nat.lt_succ_iff] using this
        constructor
        · intro h
          rw [hany, Bool.not_false] at h
          have := congrArg List.length h
          simp only [List.length_cons, List.length_map] at this hlt
          omega
        · exact fun h => absurd h.1 hp

/-! ### Both shells -/

/-- What the automaton holds at the end of the line: one command, with its last word open. -/
theorem scan_escaped (first : Argument) (rest : List (ℕ × Argument)) :
    ∃ z, scan start (escaped first rest) = z ∧ z.mode = .plain ∧ z.done = [] ∧ z.word ≠ [] ∧
      z.words ++ [z.word] = grouped false first.text rest := by
  have hfirst : scan start (escape first.text) = { start with word := first.text } :=
    scan_escape rfl first.text
  obtain ⟨z, hz, hmode, hdone, hword, hwords⟩ :=
    scan_rest (z := { start with word := first.text }) rest rfl first.ne_nil
  refine ⟨z, ?_, hmode, hdone, hword, hwords⟩
  rw [← hz, ← hfirst, ← scan_append]
  rfl

/-- Written with backslashes, the arguments of one command are read exactly if each word between the
first and the last has a character that `isvalid` accepts. -/
theorem lexer_escaped_iff (first : Argument) (rest : List (ℕ × Argument)) :
    (lexer (escaped first rest) =
        some [⟨0, first.text, false, arguments first rest, .none, false⟩] ↔
      (∀ p ∈ rest.dropLast, ∃ c ∈ p.2.text, isvalid c) ∧ (escaped first rest).length < 2 ^ 31) ∧
    (parseCommands (escaped first rest) = some (arguments first rest) ↔
      (∀ p ∈ rest.dropLast, ∃ c ∈ p.2.text, isvalid c) ∧ (escaped first rest).length < 2 ^ 31) := by
  obtain ⟨z, hz, hmode, hdone, hword, hwords⟩ := scan_escaped first rest
  have hend : endIndex (escaped first rest) = (escaped first rest).length := by
    simp [endIndex, overrun, hz, hmode]
  have hfinish : z.finish = z := by simp [finish, hmode]
  have hargs : z.args = grouped false first.text rest := by rw [args, if_neg hword, hwords]
  have hne : grouped false first.text rest ≠ [] := by simp [← hwords]
  have hpaths : setPaths z.commands = some [⟨0, (grouped false first.text rest).headD [], false,
      grouped false first.text rest, .none, false⟩] := by
    have hcommands : z.commands = [{ Exec.first with args := grouped false first.text rest }] := by
      rw [commands, hargs, if_neg hne, hdone, List.nil_append]
    rw [hcommands, setPaths_eq, if_pos (by simpa using hne)]
    rfl
  rw [lexer_eq, parseCommands_eq, hend, hz, hfinish, hpaths, ← grouped_eq_iff]
  constructor
  · constructor
    · intro h
      split_ifs at h with hfit
      have hexec := List.head_eq_of_cons_eq (Option.some.inj h)
      exact ⟨congrArg Exec.args hexec, hfit⟩
    · rintro ⟨hgrouped, hfit⟩
      rw [if_pos hfit, hgrouped]
      rfl
  · rw [hdone, hwords]
    constructor
    · intro h
      split_ifs at h with hfit
      exact ⟨Option.some.inj h, hfit⟩
    · rintro ⟨hgrouped, hfit⟩
      rw [if_pos hfit, hgrouped]
      rfl

/-- Of the words `a`, `+` and `b`, the last two are read as one. -/
theorem lexer_escaped_merged :
    lexer (escaped ⟨['a'], by decide, by decide⟩
      [(0, ⟨['+'], by decide, by decide⟩), (0, ⟨['b'], by decide, by decide⟩)]) =
      some [⟨0, ['a'], false, [['a'], ['+', 'b']], .none, false⟩] ∧
    parseCommands (escaped ⟨['a'], by decide, by decide⟩
      [(0, ⟨['+'], by decide, by decide⟩), (0, ⟨['b'], by decide, by decide⟩)]) =
      some [['a'], ['+', 'b']] ∧
    arguments ⟨['a'], by decide, by decide⟩
      [(0, ⟨['+'], by decide, by decide⟩), (0, ⟨['b'], by decide, by decide⟩)] =
      [['a'], ['+'], ['b']] := by
  decide

end Mufash
