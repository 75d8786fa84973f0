import SysProg.Mufash.Scan
import Mathlib.Data.List.Induction

/-!
# Lists of commands

Text of words, spaces and separators, and what becomes of several such texts that are read as one.

* `Finished`, `Named`: a text behind which a command starts anyway, and one without empty commands;
* `args_eq_nil_iff`, `named_iff`: what the automaton makes of them;
* `commands_flatten`: texts that bring their own separators are read one after the other;
* `isChain_of_commands`: others are not.
-/

namespace Mufash

open Scanner

/-- The characters of commands without operators but `;`. -/
def IsCode (c : Char) : Prop := isvalid c ∨ c = ' ' ∨ c = ';'

instance : DecidablePred IsCode := fun c =>
  inferInstanceAs (Decidable (isvalid c ∨ c = ' ' ∨ c = ';'))

/-- The next word starts a command: the text is empty, or it ends with a separator and spaces. -/
def Finished (t : Text) : Prop := t = [] ∨ ∃ u n, t = u ++ ';' :: List.replicate n ' '

/-- Each separator has a command before it. -/
def Named (t : Text) : Prop := ∀ u v, t = u ++ ';' :: v → ¬Finished u

variable {z : Scanner} {c : Char} {t u : Text}

/-! ### Code -/

theorem isCode_of_all (h : t.all fun c => decide (IsCode c)) : ∀ c ∈ t, IsCode c :=
  fun c hc => of_decide_eq_true (List.all_eq_true.1 h c hc)

theorem read_isCode (hz : z.mode = .plain) (hc : IsCode c) : (z.read c).mode = .plain := by
  obtain hc | rfl | rfl := hc
  · rw [read_of_isvalid hc]
    rfl
  · rw [read_space, split_mode, hz]
  · rfl

theorem scan_isCode (hz : z.mode = .plain) (ht : ∀ c ∈ t, IsCode c) : (scan z t).mode = .plain := by
  induction t generalizing z with
  | nil => exact hz
  | cons c t ih =>
    rw [List.forall_mem_cons] at ht
    rw [scan_cons, step_plain hz]
    exact ih (read_isCode hz ht.1) ht.2

/-- Other closed commands before. -/
def Scanner.prepend (d : List Exec) (z : Scanner) : Scanner := { z with done := d ++ z.done }

@[simp] theorem args_prepend (d : List Exec) (z : Scanner) : (z.prepend d).args = z.args := rfl

theorem close_prepend (d : List Exec) (z : Scanner) (redir : Redirection) (background : Bool) :
    (z.prepend d).close redir background = (z.close redir background).prepend d := by
  unfold close
  rw [args_prepend]
  simp [prepend]

theorem split_prepend (d : List Exec) (z : Scanner) : (z.prepend d).split = z.split.prepend d := by
  unfold split
  rw [show (z.prepend d).ignorespace = z.ignorespace from rfl]
  split_ifs <;> rfl

theorem read_prepend (d : List Exec) (z : Scanner) (c : Char) :
    (z.prepend d).read c = (z.read c).prepend d := by
  unfold Scanner.read
  simp only [close_prepend, split_prepend, apply_ite (prepend d)]
  rfl

theorem step_prepend (d : List Exec) (z : Scanner) (c : Char) :
    (z.prepend d).step c = (z.step c).prepend d := by
  unfold step
  cases hmode : z.mode with
  | plain => simpa [prepend, hmode] using read_prepend d z c
  | greater =>
    simp only [show (z.prepend d).mode = .greater from hmode, close_prepend, read_prepend]
    split_ifs <;> rfl
  | escaped => simp [prepend, hmode, push]
  | quoted escape =>
    simp only [show (z.prepend d).mode = .quoted escape from hmode]
    split_ifs <;> rfl
  | comment =>
    simp only [show (z.prepend d).mode = .comment from hmode]
    split_ifs <;> rfl

/-- What is read does not depend on the closed commands. -/
theorem scan_prepend (d : List Exec) (z : Scanner) (t : Text) :
    scan (z.prepend d) t = (scan z t).prepend d := by
  induction t generalizing z with
  | nil => rfl
  | cons c t ih => rw [scan_cons, scan_cons, step_prepend, ih]

theorem commands_prepend (d : List Exec) (z : Scanner) :
    (z.prepend d).commands = d ++ z.commands := by
  unfold commands
  rw [args_prepend]
  split_ifs
  · rfl
  · simp [prepend]

/-! ### Where a command is open -/

theorem scan_finished (hz : z.mode = .plain) (hu : ∀ c ∈ u, IsCode c) (n : ℕ) :
    scan z (u ++ ';' :: List.replicate n ' ') = (scan z u).close .none false := by
  rw [scan_append, scan_cons, step_plain (scan_isCode hz hu), read_semicolon,
    scan_spaces_of_ignorespace rfl rfl]

/-- A text leaves a command open exactly if it is not finished. -/
theorem args_eq_nil_iff (ht : ∀ c ∈ t, IsCode c) : (scan start t).args = [] ↔ Finished t := by
  constructor
  · induction t using List.reverseRecOn with
    | nil => exact fun _ => Or.inl rfl
    | append_singleton t c ih =>
      rw [List.forall_mem_append, List.forall_mem_singleton] at ht
      have hmode : (scan start t).mode = .plain := scan_isCode rfl ht.1
      rw [scan_append, scan_cons, scan_nil, step_plain hmode]
      obtain hc | rfl | rfl := ht.2
      · rw [read_of_isvalid hc]
        intro h
        simp [args, push] at h
      · rw [read_space]
        intro h
        by_cases hskip : (scan start t).ignorespace
        · -- a skipped space stands behind a separator or behind another space
          rw [split_of_ignorespace hskip] at h
          obtain rfl | ⟨u, n, rfl⟩ := ih ht.1 h
          · exact absurd hskip (by decide)
          · refine Or.inr ⟨u, n + 1, ?_⟩
            rw [List.replicate_succ', List.append_assoc, List.cons_append]
        · rw [split, if_neg hskip] at h
          simp [args] at h
      · exact fun _ => Or.inr ⟨t, 0, rfl⟩
  · rintro (rfl | ⟨u, n, rfl⟩)
    · rfl
    · rw [scan_finished rfl fun c hc => ht c (List.mem_append_left _ hc)]
      rfl

/-- What a separator adds to the closed commands. -/
theorem done_snoc_semicolon (ht : ∀ c ∈ t, IsCode c) : (scan start (t ++ [';'])).done =
    (scan start t).done ++ [{ Exec.first with args := (scan start t).args }] := by
  rw [scan_append, scan_cons, scan_nil, step_plain (scan_isCode rfl ht), read_semicolon]
  rfl

theorem done_snoc (ht : ∀ c ∈ t, IsCode c) (hc : isvalid c ∨ c = ' ') :
    (scan start (t ++ [c])).done = (scan start t).done := by
  rw [scan_append]
  exact (scan_quiet (scan_isCode rfl ht) (by simpa using hc)).2

theorem named_snoc : Named (t ++ [c]) ↔ Named t ∧ (c = ';' → ¬Finished t) := by
  constructor
  · intro h
    refine ⟨fun u v htext => h u (v ++ [c]) (by simp [htext]), ?_⟩
    rintro rfl
    exact h t [] rfl
  · rintro ⟨hnamed, hlast⟩ u v htext
    obtain rfl | ⟨v, d, rfl⟩ := List.eq_nil_or_concat v
    · obtain ⟨rfl, hc⟩ := List.append_inj' htext rfl
      exact hlast (List.singleton_inj.1 hc)
    · rw [List.concat_eq_append, ← List.cons_append, ← List.append_assoc] at htext
      exact hnamed u v (List.append_inj' htext rfl).1

/-- No closed command is empty exactly if the text is named. -/
theorem named_iff (ht : ∀ c ∈ t, IsCode c) :
    (∀ cmd ∈ (scan start t).done, cmd.args ≠ []) ↔ Named t := by
  induction t using List.reverseRecOn with
  | nil => simp [Named, start]
  | append_singleton t c ih =>
    rw [List.forall_mem_append, List.forall_mem_singleton] at ht
    rw [named_snoc, ← ih ht.1, ← args_eq_nil_iff ht.1]
    by_cases hc : c = ';'
    · subst hc
      rw [done_snoc_semicolon ht.1, List.forall_mem_append, List.forall_mem_singleton]
      simp
    · have hc' : isvalid c ∨ c = ' ' := ht.2.imp_right fun h => h.resolve_right hc
      rw [done_snoc ht.1 hc']
      simp [hc]

theorem named_commands_iff (ht : ∀ c ∈ t, IsCode c) :
    (∀ cmd ∈ (scan start t).commands, cmd.args ≠ []) ↔ Named t := by
  rw [← named_iff ht]
  unfold commands
  split_ifs with hargs
  · rfl
  · rw [List.forall_mem_append, List.forall_mem_singleton]
    exact and_iff_left hargs

/-! ### Counting commands -/

theorem length_done (ht : ∀ c ∈ t, IsCode c) : (scan start t).done.length = t.count ';' := by
  induction t using List.reverseRecOn with
  | nil => rfl
  | append_singleton t c ih =>
    rw [List.forall_mem_append, List.forall_mem_singleton] at ht
    by_cases hc : c = ';'
    · subst hc
      simp [done_snoc_semicolon ht.1, ih ht.1]
    · have hc' : isvalid c ∨ c = ' ' := ht.2.imp_right fun h => h.resolve_right hc
      simp [done_snoc ht.1 hc', ih ht.1, hc]

/-- One command for each separator, and one if the text leaves one open. -/
theorem length_commands (ht : ∀ c ∈ t, IsCode c) : (scan start t).commands.length =
    t.count ';' + if (scan start t).args = [] then 0 else 1 := by
  unfold commands
  split_ifs
  · exact length_done ht
  · simp [length_done ht]

theorem Finished.append (ht : Finished t) (hu : Finished u) : Finished (t ++ u) := by
  obtain rfl | ⟨v, n, rfl⟩ := hu
  · rwa [List.append_nil]
  · exact Or.inr ⟨t ++ v, n, (List.append_assoc ..).symm⟩

theorem Finished.append_left (t : Text) (hu : Finished u) (hne : u ≠ []) : Finished (t ++ u) := by
  obtain rfl | ⟨v, n, rfl⟩ := hu
  · exact absurd rfl hne
  · exact Or.inr ⟨t ++ v, n, (List.append_assoc ..).symm⟩

theorem Finished.eq_nil (ht : Finished t) (hcount : t.count ';' = 0) : t = [] := by
  obtain rfl | ⟨v, n, rfl⟩ := ht
  · rfl
  · simp at hcount

/-! ### Texts one after the other -/

/-- Behind a separator. -/
def Scanner.restart : Scanner := ⟨.plain, [], [], [], true⟩

/-- A finished text is read by itself. -/
theorem commands_append (ht : ∀ c ∈ t, IsCode c) (hfin : Finished t) (hne : t ≠ []) (u : Text) :
    (scan start (t ++ u)).commands = (scan start t).commands ++ (scan restart u).commands := by
  obtain rfl | ⟨v, n, rfl⟩ := hfin
  · exact absurd rfl hne
  · have hscan := scan_finished (z := start) rfl (fun c hc => ht c (List.mem_append_left _ hc)) n
    have hrestart : (scan start v).close .none false =
        restart.prepend ((scan start v).close .none false).done := by
      simp [prepend, restart, close]
    rw [scan_append, hscan, hrestart, scan_prepend, commands_prepend, commands_prepend]
    simp [restart, commands, args]

/-- The first character of a word ends the skipping of spaces. -/
theorem scan_restart (hc : isvalid c) (u : Text) : scan restart (c :: u) = scan start (c :: u) := by
  rw [scan_cons, scan_cons, step_plain rfl, step_plain rfl, read_of_isvalid hc, read_of_isvalid hc]
  rfl

/-- What is kept at each character holds at the end. -/
theorem scan_induction {P : Scanner → Prop}
    (hread : ∀ z c, z.mode = .plain → IsCode c → P z → P (z.read c))
    (hz : z.mode = .plain) (ht : ∀ c ∈ t, IsCode c) (hP : P z) : P (scan z t) := by
  induction t generalizing z with
  | nil => exact hP
  | cons c t ih =>
    rw [List.forall_mem_cons] at ht
    rw [scan_cons, step_plain hz]
    exact ih (read_isCode hz ht.1) ht.2 (hread z c hz ht.1 hP)

theorem mem_args {w : Text} (hw : w ∈ z.args) : w ∈ z.words ∨ w = z.word ∧ z.word ≠ [] := by
  unfold args at hw
  split_ifs at hw with hword
  · exact Or.inl hw
  · rcases List.mem_append.1 hw with hw | hw
    · exact Or.inl hw
    · exact Or.inr ⟨List.mem_singleton.1 hw, hword⟩

/-- No argument is empty, and a space would not make an empty one. -/
def NoneEmpty (z : Scanner) : Prop :=
  (∀ cmd ∈ z.done, [] ∉ cmd.args) ∧ [] ∉ z.words ∧ (z.word = [] → z.ignorespace)

theorem NoneEmpty.notMem_args (h : NoneEmpty z) : [] ∉ z.args := by
  intro hmem
  obtain hmem | ⟨hword, hne⟩ := mem_args hmem
  · exact h.2.1 hmem
  · exact hne hword.symm

theorem NoneEmpty.read (hc : IsCode c) (h : NoneEmpty z) : NoneEmpty (z.read c) := by
  obtain ⟨hdone, hwords, hword⟩ := h
  obtain hc | rfl | rfl := hc
  · rw [read_of_isvalid hc]
    exact ⟨hdone, hwords, fun h => absurd h (by simp [push])⟩
  · rw [read_space]
    unfold split
    split_ifs with hskip
    · exact ⟨hdone, hwords, hword⟩
    · have hne : z.word ≠ [] := fun h => hskip (hword h)
      exact ⟨hdone, by simpa [hwords] using hne.symm, fun _ => rfl⟩
  · refine ⟨List.forall_mem_append.2 ⟨hdone, ?_⟩, List.not_mem_nil, fun _ => rfl⟩
    rw [List.forall_mem_singleton]
    exact NoneEmpty.notMem_args ⟨hdone, hwords, hword⟩

/-- Behind a separator no argument is empty. -/
theorem nil_notMem_args (ht : ∀ c ∈ t, IsCode c) :
    ∀ cmd ∈ (scan restart t).commands, [] ∉ cmd.args := by
  have h : NoneEmpty (scan restart t) := scan_induction (fun z c _ hc hz => hz.read hc) rfl ht
    ⟨by simp [restart], by simp [restart], fun _ => rfl⟩
  unfold commands
  split_ifs
  · exact h.1
  · exact List.forall_mem_append.2 ⟨h.1, by simpa using h.notMem_args⟩

/-- A command has an empty argument. -/
def SomeEmpty (z : Scanner) : Prop := (∃ cmd ∈ z.done, [] ∈ cmd.args) ∨ [] ∈ z.words

theorem SomeEmpty.mem_args (h : [] ∈ z.words) : [] ∈ z.args := by
  unfold args
  split_ifs
  · exact h
  · exact List.mem_append_left _ h

theorem SomeEmpty.read (hc : IsCode c) (h : SomeEmpty z) : SomeEmpty (z.read c) := by
  obtain hc | rfl | rfl := hc
  · rw [read_of_isvalid hc]
    exact h
  · rw [read_space]
    unfold split
    split_ifs
    · exact h
    · exact h.imp_right (List.mem_append_left _)
  · refine Or.inl ?_
    obtain ⟨cmd, hcmd, hargs⟩ | hwords := h
    · exact ⟨cmd, List.mem_append_left _ hcmd, hargs⟩
    · exact ⟨_, List.mem_append_right _ List.mem_cons_self, SomeEmpty.mem_args hwords⟩

/-- A leading space makes an empty argument. -/
theorem nil_mem_args (ht : ∀ c ∈ t, IsCode c) :
    ∃ cmd ∈ (scan start (' ' :: t)).commands, [] ∈ cmd.args := by
  have h : SomeEmpty (scan start.split t) :=
    scan_induction (fun z c _ hc hz => hz.read hc) rfl ht (Or.inr List.mem_cons_self)
  rw [scan_cons, step_plain rfl, read_space]
  unfold commands
  obtain ⟨cmd, hcmd, hargs⟩ | hwords := h
  · split_ifs
    · exact ⟨cmd, hcmd, hargs⟩
    · exact ⟨cmd, List.mem_append_left _ hcmd, hargs⟩
  · have hargs := SomeEmpty.mem_args hwords
    rw [if_neg (List.ne_nil_of_mem hargs)]
    exact ⟨_, List.mem_append_right _ List.mem_cons_self, hargs⟩

/-! ### Several texts -/

/-- The first text needs no separator behind it, and the second one no space before it. -/
def Separate (t u : Text) : Prop := Finished t ∧ u.head? ≠ some ' '

/-- A named text that starts with no space starts with a word. -/
theorem isvalid_head (ht : ∀ d ∈ c :: t, IsCode d) (hnamed : Named (c :: t))
    (hspace : (c :: t).head? ≠ some ' ') : isvalid c := by
  obtain hc | rfl | rfl := ht c List.mem_cons_self
  · exact hc
  · exact absurd rfl hspace
  · exact absurd (Or.inl rfl) (hnamed [] t rfl)

variable {ts : List Text}

/-- Texts with separators between them are read one after the other. -/
theorem commands_flatten (hcode : ∀ t ∈ ts, ∀ c ∈ t, IsCode c) (hnamed : ∀ t ∈ ts, Named t)
    (hne : ∀ t ∈ ts, t ≠ []) (hchain : ts.IsChain Separate) :
    (scan start ts.flatten).commands = (ts.map fun t => (scan start t).commands).flatten := by
  induction ts with
  | nil => rfl
  | cons t ts ih =>
    rw [List.forall_mem_cons] at hcode hnamed hne
    cases ts with
    | nil => simp
    | cons u ts =>
      rw [List.isChain_cons_cons] at hchain
      have hrest := ih hcode.2 hnamed.2 hne.2 hchain.2
      obtain ⟨c, v, rfl⟩ := List.exists_cons_of_ne_nil (hne.2 u List.mem_cons_self)
      have hc := isvalid_head (hcode.2 _ List.mem_cons_self) (hnamed.2 _ List.mem_cons_self)
        hchain.1.2
      rw [List.flatten_cons, commands_append hcode.1 hchain.1.1 hne.1, List.flatten_cons,
        List.cons_append, scan_restart hc, ← List.cons_append, ← List.flatten_cons, hrest]
      rfl

/-- The number of commands that a text leaves open. -/
def opened (t : Text) : ℕ := if (scan start t).args = [] then 0 else 1

theorem opened_le_one (t : Text) : opened t ≤ 1 := by unfold opened; split_ifs <;> decide

theorem opened_eq_zero_iff (ht : ∀ c ∈ t, IsCode c) : opened t = 0 ↔ Finished t := by
  rw [← args_eq_nil_iff ht, opened]
  split_ifs with h <;> simp [h]

theorem isCode_flatten (hcode : ∀ t ∈ ts, ∀ c ∈ t, IsCode c) : ∀ c ∈ ts.flatten, IsCode c := by
  intro c hc
  obtain ⟨t, ht, hct⟩ := List.mem_flatten.1 hc
  exact hcode t ht c hct

theorem finished_flatten (h : ∀ t ∈ ts, Finished t) : Finished ts.flatten := by
  induction ts with
  | nil => exact Or.inl rfl
  | cons t ts ih =>
    rw [List.forall_mem_cons] at h
    exact h.1.append (ih h.2)

/-- Texts that leave nothing open leave nothing open together. -/
theorem finished_of_sum_opened (hcode : ∀ t ∈ ts, ∀ c ∈ t, IsCode c)
    (h : (ts.map opened).sum = 0) : Finished ts.flatten := by
  refine finished_flatten fun t ht => ?_
  rw [← opened_eq_zero_iff (hcode t ht)]
  exact List.sum_eq_zero_iff_forall_eq_nat.1 h _ (List.mem_map_of_mem ht)

theorem opened_flatten_le (hcode : ∀ t ∈ ts, ∀ c ∈ t, IsCode c) :
    opened ts.flatten ≤ (ts.map opened).sum := by
  rcases Nat.eq_zero_or_pos (ts.map opened).sum with h | h
  · have hzero := (opened_eq_zero_iff (isCode_flatten hcode)).2 (finished_of_sum_opened hcode h)
    omega
  · exact Nat.le_trans (opened_le_one _) h

theorem length_flatten_commands (hcode : ∀ t ∈ ts, ∀ c ∈ t, IsCode c) :
    (ts.map fun t => (scan start t).commands).flatten.length =
      ts.flatten.count ';' + (ts.map opened).sum := by
  induction ts with
  | nil => rfl
  | cons t ts ih =>
    rw [List.forall_mem_cons] at hcode
    have hlength : (scan start t).commands.length = t.count ';' + opened t :=
      length_commands hcode.1
    rw [List.map_cons, List.flatten_cons, List.length_append, ih hcode.2, hlength, List.map_cons,
      List.sum_cons, List.flatten_cons, List.count_append]
    omega

/-- A text that leaves a command open swallows what follows, and one command is missing. -/
theorem finished_of_opened (hcode : ∀ u ∈ t :: ts, ∀ c ∈ u, IsCode c) (hne : ts.flatten ≠ [])
    (h : opened (t :: ts).flatten = ((t :: ts).map opened).sum) : Finished t := by
  by_contra hopen
  rw [← opened_eq_zero_iff (hcode t List.mem_cons_self)] at hopen
  have hle := opened_le_one (t :: ts).flatten
  rw [List.map_cons, List.sum_cons] at h
  have hrest : (ts.map opened).sum = 0 := by omega
  have hfin := finished_of_sum_opened (fun u hu => hcode u (List.mem_cons_of_mem _ hu)) hrest
  have hzero := (opened_eq_zero_iff (isCode_flatten hcode)).2 (hfin.append_left t hne)
  omega

/-- Behind a separator, a leading space is lost. -/
theorem head_ne_space (hcode : ∀ t ∈ u :: ts, ∀ c ∈ t, IsCode c)
    (h : (scan restart (u :: ts).flatten).commands.map Exec.args =
      ((u :: ts).map fun t => (scan start t).commands).flatten.map Exec.args) :
    u.head? ≠ some ' ' := by
  intro hspace
  obtain ⟨v, rfl⟩ : ∃ v, u = ' ' :: v := by
    cases u with
    | nil => cases hspace
    | cons c v => exact ⟨v, by rw [Option.some.inj hspace]⟩
  have hv : ∀ c ∈ v, IsCode c := fun c hc => hcode _ List.mem_cons_self c (List.mem_cons_of_mem _ hc)
  obtain ⟨cmd, hcmd, hargs⟩ := nil_mem_args hv
  have hmem : cmd.args ∈ ((' ' :: v) :: ts |>.map fun t => (scan start t).commands).flatten.map
      Exec.args := List.mem_map_of_mem (List.mem_append_left _ hcmd)
  rw [← h] at hmem
  obtain ⟨cmd', hcmd', hargs'⟩ := List.mem_map.1 hmem
  exact nil_notMem_args (isCode_flatten hcode) cmd' hcmd' (hargs' ▸ hargs)

/-- What is read one after the other is separated. -/
theorem isChain_of_commands (hcode : ∀ t ∈ ts, ∀ c ∈ t, IsCode c) (hnamed : ∀ t ∈ ts, Named t)
    (hne : ∀ t ∈ ts, t ≠ []) (h : (scan start ts.flatten).commands.map Exec.args =
      (ts.map fun t => (scan start t).commands).flatten.map Exec.args) : ts.IsChain Separate := by
  induction ts with
  | nil => exact List.IsChain.nil
  | cons t ts ih =>
    cases ts with
    | nil => exact List.IsChain.singleton _
    | cons u ts =>
      have hlength : (scan start (t :: u :: ts).flatten).commands.length =
          (t :: u :: ts).flatten.count ';' + opened (t :: u :: ts).flatten :=
        length_commands (isCode_flatten hcode)
      have hcount := congrArg List.length h
      rw [List.length_map, List.length_map, length_flatten_commands hcode, hlength] at hcount
      rw [List.forall_mem_cons] at hnamed hne
      have hfin := finished_of_opened hcode (by simp [hne.2 u List.mem_cons_self])
        (Nat.add_left_cancel hcount)
      rw [List.forall_mem_cons] at hcode
      -- behind the separator the other texts are read by themselves
      have hsplit : ((t :: u :: ts).map fun t => (scan start t).commands).flatten =
          (scan start t).commands ++ ((u :: ts).map fun t => (scan start t).commands).flatten := rfl
      rw [List.flatten_cons, commands_append hcode.1 hfin hne.1, hsplit, List.map_append,
        List.map_append] at h
      have hrest := List.append_cancel_left h
      have hspace := head_ne_space hcode.2 hrest
      obtain ⟨c, v, rfl⟩ := List.exists_cons_of_ne_nil (hne.2 u List.mem_cons_self)
      have hc := isvalid_head (hcode.2 _ List.mem_cons_self) (hnamed.2 _ List.mem_cons_self) hspace
      rw [List.flatten_cons, List.cons_append, scan_restart hc, ← List.cons_append,
        ← List.flatten_cons] at hrest
      exact List.isChain_cons_cons.2 ⟨⟨hfin, hspace⟩, ih hcode.2 hnamed.2 hne.2 hrest⟩

/-! ### Empty texts -/

/-- Empty texts count for nothing. -/
theorem flatten_commands_filter (ts : List Text) :
    ((ts.filter (· ≠ [])).map fun t => (scan start t).commands).flatten =
      (ts.map fun t => (scan start t).commands).flatten := by
  induction ts with
  | nil => rfl
  | cons t ts ih =>
    by_cases ht : t = []
    · rw [List.filter_cons_of_neg (by simpa using ht), ih, ht]
      rfl
    · rw [List.filter_cons_of_pos (by simpa using ht), List.map_cons, List.flatten_cons, ih]
      rfl

theorem commands_flatten_filter (hcode : ∀ t ∈ ts, ∀ c ∈ t, IsCode c) (hnamed : ∀ t ∈ ts, Named t)
    (hchain : (ts.filter (· ≠ [])).IsChain Separate) :
    (scan start ts.flatten).commands = (ts.map fun t => (scan start t).commands).flatten := by
  rw [← flatten_commands_filter, ← List.flatten_filter_ne_nil]
  exact commands_flatten (fun t ht => hcode t (List.mem_filter.1 ht).1)
    (fun t ht => hnamed t (List.mem_filter.1 ht).1)
    (fun t ht => by simpa using (List.mem_filter.1 ht).2) hchain

variable {us : List Text}

/-- The texts `us` that are not read are empty, and those that are read are separated. -/
theorem isChain_of_commands_append (hcode : ∀ t ∈ ts ++ us, ∀ c ∈ t, IsCode c)
    (hnamed : ∀ t ∈ ts ++ us, Named t) (h : (scan start ts.flatten).commands.map Exec.args =
      ((ts ++ us).map fun t => (scan start t).commands).flatten.map Exec.args) :
    us.flatten = [] ∧ ((ts ++ us).filter (· ≠ [])).IsChain Separate := by
  have hcode' := List.forall_mem_append.1 hcode
  have hlength : (scan start ts.flatten).commands.length =
      ts.flatten.count ';' + opened ts.flatten := length_commands (isCode_flatten hcode'.1)
  have hcount := congrArg List.length h
  rw [List.length_map, List.length_map, length_flatten_commands hcode, hlength,
    List.flatten_append, List.count_append, List.map_append, List.sum_append] at hcount
  have hle := opened_flatten_le hcode'.1
  have hus : us.flatten = [] :=
    (finished_of_sum_opened hcode'.2 (by omega)).eq_nil (by omega)
  have hflatten : ((ts ++ us).filter (· ≠ [])).flatten = ts.flatten := by
    rw [List.flatten_filter_ne_nil, List.flatten_append, hus, List.append_nil]
  rw [← flatten_commands_filter, ← hflatten] at h
  exact ⟨hus, isChain_of_commands (fun t ht => hcode t (List.mem_filter.1 ht).1)
    (fun t ht => hnamed t (List.mem_filter.1 ht).1)
    (fun t ht => by simpa using (List.mem_filter.1 ht).2) h⟩

end Mufash
