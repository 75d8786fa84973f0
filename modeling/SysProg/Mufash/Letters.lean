import SysProg.Mufash.Scan

/-!
# The characters of the words

The lexer makes no characters up: those of the commands and of the words stand in the line.  Only a
backslash at the end of the line takes the NUL behind it.

* `Scanner.Over`: a property of every character that was read;
* `forall_mem_parseCommands`: the words that the shell of the file system runs.
-/

namespace Mufash

open Scanner

/-- Every character of the commands and of the words has the property. -/
structure Scanner.Over (P : Char → Prop) (z : Scanner) : Prop where
  done : ∀ cmd ∈ z.done, ∀ arg ∈ cmd.args, ∀ c ∈ arg, P c
  words : ∀ arg ∈ z.words, ∀ c ∈ arg, P c
  word : ∀ c ∈ z.word, P c

section Over

variable {P : Char → Prop} {z : Scanner} {c : Char}

theorem Scanner.Over.push (h : z.Over P) (hc : P c) : (z.push c).Over P where
  done := h.done
  words := h.words
  word := by simpa [Scanner.push, or_imp, forall_and] using ⟨h.word, hc⟩

theorem Scanner.Over.of_eq {z' : Scanner} (h : z.Over P) (hdone : z'.done = z.done)
    (hwords : z'.words = z.words) (hword : z'.word = z.word) : z'.Over P :=
  ⟨hdone ▸ h.done, hwords ▸ h.words, hword ▸ h.word⟩

theorem Scanner.Over.snoc (h : z.Over P) : ∀ arg ∈ z.words ++ [z.word], ∀ c ∈ arg, P c := by
  intro arg harg
  rcases List.mem_append.1 harg with harg | harg
  · exact h.words arg harg
  · rw [List.mem_singleton.1 harg]
    exact h.word

theorem Scanner.Over.split (h : z.Over P) : z.split.Over P := by
  rw [Scanner.split]
  split_ifs
  · exact h
  · exact ⟨h.done, h.snoc, fun c hc => absurd hc List.not_mem_nil⟩

theorem Scanner.Over.close (h : z.Over P) (redir : Redirection) (background : Bool) :
    (z.close redir background).Over P where
  done cmd hcmd := by
    rcases List.mem_append.1 hcmd with hcmd | hcmd
    · exact h.done cmd hcmd
    · rw [List.mem_singleton.1 hcmd]
      show ∀ arg ∈ z.args, _
      rw [Scanner.args]
      split_ifs
      · exact h.words
      · exact h.snoc
  words arg harg := absurd harg List.not_mem_nil
  word c hc := absurd hc List.not_mem_nil

theorem Scanner.Over.read (h : z.Over P) (hc : P c) : (z.read c).Over P := by
  rw [Scanner.read]
  split_ifs
  · exact (h.push hc).of_eq rfl rfl rfl
  · exact h.split
  · exact h.close _ _
  · exact h.close _ _
  · exact h.of_eq rfl rfl rfl
  · exact h.close _ _
  · exact h.of_eq rfl rfl rfl
  · exact h.of_eq rfl rfl rfl
  · exact h.of_eq rfl rfl rfl
  · exact h

theorem Scanner.Over.step (h : z.Over P) (hc : P c) : (z.step c).Over P := by
  rw [Scanner.step]
  cases z.mode with
  | plain => exact h.read hc
  | greater =>
    dsimp only
    split_ifs
    · exact h.close _ _
    · exact (h.close _ _).read hc
  | escaped => exact h.push hc
  | quoted escape =>
    dsimp only
    split_ifs
    · exact h.of_eq rfl rfl rfl
    · exact h.of_eq rfl rfl rfl
    · exact (h.push hc).of_eq rfl rfl rfl
  | comment =>
    dsimp only
    split_ifs
    · exact h.of_eq rfl rfl rfl
    · exact h

theorem Scanner.Over.scan {text : Text} (h : z.Over P) (htext : ∀ c ∈ text, P c) :
    (Mufash.scan z text).Over P := by
  induction text generalizing z with
  | nil => exact h
  | cons c text ih =>
    rw [List.forall_mem_cons] at htext
    exact ih (h.step htext.1) htext.2

theorem Scanner.over_start : Scanner.start.Over P where
  done _ hcmd := absurd hcmd List.not_mem_nil
  words _ harg := absurd harg List.not_mem_nil
  word _ hc := absurd hc List.not_mem_nil

/-- The words of the first command are made of the characters of the line, but for a NUL that may
stand at the end. -/
theorem forall_mem_parseCommands {line : Text} {args : List Text}
    (hargs : parseCommands line = some args) (hline : ∀ c ∈ line, P c) :
    ∀ arg ∈ args, (∀ c ∈ arg, P c) ∨ ∃ w, (∀ c ∈ w, P c) ∧ arg = w ++ [Char.ofNat 0] := by
  rw [parseCommands_eq, Option.ite_none_right_eq_some, Option.some_inj] at hargs
  have hover : (Mufash.scan start line).Over P := Scanner.over_start.scan hline
  rw [← hargs.2]
  by_cases hesc : (Mufash.scan start line).mode = .escaped
  · -- a backslash at the end of the line
    have hfinish : (Mufash.scan start line).finish =
        (Mufash.scan start line).push (Char.ofNat 0) := by rw [Scanner.finish, hesc]
    rw [hfinish]
    intro arg harg
    cases hdone : (Mufash.scan start line).done with
    | cons cmd cmds =>
      simp only [Scanner.push, hdone] at harg
      exact Or.inl (hover.done cmd (hdone ▸ List.mem_cons_self) arg harg)
    | nil =>
      simp only [Scanner.push, hdone] at harg
      rcases List.mem_append.1 harg with harg | harg
      · exact Or.inl (hover.words arg harg)
      · exact Or.inr ⟨_, hover.word, List.mem_singleton.1 harg⟩
  · have hfinish : (Mufash.scan start line).finish.Over P := by
      rw [Scanner.finish]
      split
      · exact hover.close _ _
      · exact absurd ‹_› hesc
      · exact hover
    intro arg harg
    cases hdone : (Mufash.scan start line).finish.done with
    | cons cmd cmds =>
      rw [hdone] at harg
      exact Or.inl (hfinish.done cmd (hdone ▸ List.mem_cons_self) arg harg)
    | nil =>
      rw [hdone] at harg
      exact Or.inl (hfinish.snoc arg harg)

end Over

end Mufash
