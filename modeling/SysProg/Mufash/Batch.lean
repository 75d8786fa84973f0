import SysProg.Mufash.Separators
import Mathlib.Data.List.Forall2
import Mathlib.Data.List.TakeWhile

/-!
# Batch files

In batch mode the whole file is one command line.  To the lexer a newline is nothing: it neither
separates commands nor ends a comment, which runs up to the next `#`.

* `Line`, `batch`: lines of words, spaces, separators and a comment, and their text;
* `visible`: what stands outside of the pairs of `#`, without the newlines;
* `LineIndependent`: the text is read as its lines are;
* `lexer_batch`: so it is if only the code of the lines is visible and the lines bring their own
  separators; with one `#` at most, only then.
-/

namespace Mufash

open Scanner

/-- A line: valid characters, spaces and separators, and from the first `#` on a comment. -/
structure Line where
  text : Text
  no_newline : '\n' ∉ text
  isCode : ∀ c ∈ text.takeWhile (· ≠ '#'), IsCode c

/-- A line with everything from its first `#` removed. -/
def Line.code (l : Line) : Text := l.text.takeWhile (· ≠ '#')

/-- The content of the file. -/
def batch (lines : List Line) : Text := ['\n'].intercalate (lines.map Line.text)

/-- The text is read as its lines are read one by one. -/
def LineIndependent (lines : List Line) : Prop :=
  ∃ parts, List.Forall₂ (fun l part => lexer l.code = some part) lines parts ∧
    lexer (batch lines) = some parts.flatten

/-- What the lexer sees of a text, inside a comment or outside: each `#` begins a comment or ends one,
and newlines are nothing. -/
def visible : Bool → Text → Text
  | _, [] => []
  | true, c :: t => if c = '#' then visible false t else visible true t
  | false, c :: t =>
      if c = '#' then visible true t
      else if c = '\n' then visible false t
      else c :: visible false t

/-- Only the code of the lines is visible, no separator lacks a command, and where a line follows
another one, the first ends with a separator and the second does not start with a space. -/
structure Separated (lines : List Line) : Prop where
  visible : visible false (batch lines) = (lines.map Line.code).flatten
  named : ∀ l ∈ lines, Named l.code
  chain : ((lines.map Line.code).filter (· ≠ [])).IsChain Separate
  fits : (batch lines).length + (batch lines).count '#' % 2 < 2 ^ 31

variable {z : Scanner} {c : Char} {t u : Text} {lines : List Line}

/-! ### What is read -/

/-- The state inside of a comment, or outside. -/
def Scanner.within (z : Scanner) (b : Bool) : Scanner :=
  { z with mode := if b then .comment else .plain }

theorem within_false (hz : z.mode = .plain) : z.within false = z := by
  unfold within
  simp [← hz]

theorem step_within_sharp (b : Bool) : (z.within b).step '#' = z.within !b := by
  cases b <;> rfl

theorem step_within_true (hc : c ≠ '#') : (z.within true).step c = z.within true := by
  simp [step, within, hc]

/-- What the lexer makes of a text is what it makes of the visible part, if that is code. -/
theorem scan_visible {b : Bool} (hz : z.mode = .plain) (ht : ∀ c ∈ visible b t, IsCode c) :
    ∃ b', b'.toNat = (t.count '#' + b.toNat) % 2 ∧
      scan (z.within b) t = (scan z (visible b t)).within b' := by
  induction t generalizing z b with
  | nil => exact ⟨b, by cases b <;> rfl, by cases b <;> rfl⟩
  | cons c t ih =>
    rw [scan_cons]
    by_cases hc : c = '#'
    · have hvisible : visible b (c :: t) = visible (!b) t := by cases b <;> exact if_pos hc
      rw [hvisible] at ht ⊢
      obtain ⟨b', hb', hscan⟩ := ih hz ht
      refine ⟨b', ?_, ?_⟩
      · rw [hb', hc, List.count_cons_self]
        cases b
        · simp
        · simp
          omega
      · rw [hc, step_within_sharp, hscan]
    have hcount : (c :: t).count '#' = t.count '#' := List.count_cons_of_ne hc
    rw [hcount]
    cases b with
    | true =>
      have hvisible : visible true (c :: t) = visible true t := if_neg hc
      rw [hvisible] at ht ⊢
      rw [step_within_true hc]
      exact ih hz ht
    | false =>
      rw [within_false hz, step_plain hz]
      by_cases hnewline : c = '\n'
      · have hvisible : visible false (c :: t) = visible false t := by simp [visible, hnewline]
        have hread : z.read c = z.within false := by rw [hnewline, within_false hz]; rfl
        rw [hvisible] at ht ⊢
        rw [hread]
        exact ih hz ht
      · have hvisible : visible false (c :: t) = c :: visible false t := by
          simp [visible, hc, hnewline]
        rw [hvisible, List.forall_mem_cons] at ht
        have hplain := read_isCode hz ht.1
        have hrest := ih hplain ht.2
        rw [within_false hplain] at hrest
        rw [hvisible, scan_cons, step_plain hz]
        exact hrest

/-! ### Lines -/

theorem Line.code_eq_text {l : Line} (h : '#' ∉ l.text) : l.code = l.text := by
  refine List.takeWhile_eq_self_iff.2 fun c hc => ?_
  have hne : c ≠ '#' := fun hsharp => h (hsharp ▸ hc)
  simpa using hne

theorem Line.text_eq {l : Line} (h : '#' ∈ l.text) :
    ∃ comment, l.text = l.code ++ '#' :: comment := by
  have hne : l.text.dropWhile (· ≠ '#') ≠ [] := by
    intro hnil
    have := List.dropWhile_eq_nil_iff.1 hnil '#' h
    simp at this
  have hhead : (l.text.dropWhile (· ≠ '#')).head hne = '#' := by
    simpa using List.head_dropWhile_not (· ≠ '#') hne
  have hcons := List.cons_head_tail hne
  rw [hhead] at hcons
  refine ⟨(l.text.dropWhile (· ≠ '#')).tail, ?_⟩
  rw [hcons, Line.code, List.takeWhile_append_dropWhile]

theorem map_text_eq (h : ∀ l ∈ lines, '#' ∉ l.text) : lines.map Line.text = lines.map Line.code :=
  List.map_congr_left fun l hl => (Line.code_eq_text (h l hl)).symm

theorem intercalate_append_cons (ts us : List Text) (t u : Text) :
    ∃ rest, ['\n'].intercalate (ts ++ (t ++ u) :: us) =
      ['\n'].intercalate (ts ++ [t]) ++ (u ++ rest) := by
  induction ts with
  | nil =>
    cases us with
    | nil => exact ⟨[], by simp⟩
    | cons v us => exact ⟨'\n' :: ['\n'].intercalate (v :: us), by simp [List.intercalate_cons_cons]⟩
  | cons w ts ih =>
    obtain ⟨rest, hrest⟩ := ih
    refine ⟨rest, ?_⟩
    have hne : ∀ l : List Text, ts ++ l ≠ [] ∨ l = [] := fun l => by cases l <;> simp
    rw [List.cons_append, List.cons_append,
      List.intercalate_cons_of_ne_nil (by simp), List.intercalate_cons_of_ne_nil (by simp), hrest]
    simp

theorem count_batch (lines : List Line) :
    (batch lines).count '#' = (lines.map fun l => l.text.count '#').sum := by
  unfold batch
  induction lines with
  | nil => rfl
  | cons l lines ih =>
    cases lines with
    | nil => simp
    | cons l' lines =>
      have hnewline : ['\n'].count '#' = 0 := rfl
      rw [List.map_cons, List.map_cons, List.intercalate_cons_cons, List.count_append,
        List.count_append, hnewline, ← List.map_cons, ih, Nat.add_zero]
      rfl

theorem isCode_of_mem_map (lines : List Line) : ∀ t ∈ lines.map Line.code, ∀ c ∈ t, IsCode c := by
  intro t ht
  obtain ⟨l, -, rfl⟩ := List.mem_map.1 ht
  exact l.isCode

/-! ### What is visible -/

theorem visible_append (ht : ∀ c ∈ t, IsCode c) (u : Text) :
    visible false (t ++ u) = t ++ visible false u := by
  induction t with
  | nil => rfl
  | cons c t ih =>
    rw [List.forall_mem_cons] at ht
    have hsharp : c ≠ '#' := by
      rintro rfl
      exact absurd ht.1 (by decide)
    have hnewline : c ≠ '\n' := by
      rintro rfl
      exact absurd ht.1 (by decide)
    rw [List.cons_append, visible, if_neg hsharp, if_neg hnewline, ih ht.2, List.cons_append]

theorem visible_intercalate {ts : List Text} (hcode : ∀ t ∈ ts, ∀ c ∈ t, IsCode c) (u : Text) :
    visible false (['\n'].intercalate ts ++ u) = ts.flatten ++ visible false u := by
  induction ts with
  | nil => rfl
  | cons t ts ih =>
    rw [List.forall_mem_cons] at hcode
    cases ts with
    | nil => simpa using visible_append hcode.1 u
    | cons t' ts =>
      have hnewline : ∀ v, visible false ('\n' :: v) = visible false v := fun v => rfl
      rw [List.intercalate_cons_cons, List.append_assoc, List.append_assoc, visible_append hcode.1,
        List.singleton_append, hnewline, ih hcode.2, List.flatten_cons (L := t' :: ts),
        List.append_assoc]

theorem visible_true (ht : '#' ∉ t) : visible true t = [] := by
  induction t with
  | nil => rfl
  | cons c t ih =>
    rw [List.mem_cons, not_or] at ht
    rw [visible, if_neg (Ne.symm ht.1), ih ht.2]

/-- With one `#` at most, the lines up to the comment are visible. -/
theorem visible_batch (hcomment : (batch lines).count '#' ≤ 1) : ∃ live dead,
    lines = live ++ dead ∧ visible false (batch lines) = (live.map Line.code).flatten := by
  by_cases h : ∀ l ∈ lines, '#' ∉ l.text
  · refine ⟨lines, [], (List.append_nil lines).symm, ?_⟩
    have hvisible := visible_intercalate (isCode_of_mem_map lines) []
    rw [batch, map_text_eq h]
    simpa [visible] using hvisible
  · obtain ⟨l, hl, hsharp⟩ : ∃ l ∈ lines, '#' ∈ l.text := by simpa using h
    obtain ⟨pre, post, rfl⟩ := List.append_of_mem hl
    refine ⟨pre ++ [l], post, by simp, ?_⟩
    have hcount := count_batch (pre ++ l :: post)
    rw [List.map_append, List.sum_append, List.map_cons, List.sum_cons] at hcount
    have hpos := List.count_pos_iff.2 hsharp
    have hzero : (pre.map fun l => l.text.count '#').sum = 0 := by omega
    have hpre : ∀ l ∈ pre, '#' ∉ l.text := fun l' hl' => List.count_eq_zero.1
      (List.sum_eq_zero_iff_forall_eq_nat.1 hzero _ (List.mem_map_of_mem hl'))
    -- the lines before the one with the `#` are all code
    obtain ⟨comment, htext⟩ := Line.text_eq hsharp
    obtain ⟨rest, hrest⟩ := intercalate_append_cons (pre.map Line.text) (post.map Line.text) l.code
      ('#' :: comment)
    have hbatch : batch (pre ++ l :: post) =
        ['\n'].intercalate ((pre ++ [l]).map Line.code) ++ '#' :: (comment ++ rest) := by
      rw [batch, List.map_append, List.map_cons, htext, hrest, map_text_eq hpre, List.map_append,
        List.map_singleton, List.cons_append]
    have hnotMem : '#' ∉ comment ++ rest := by
      rw [hbatch, List.count_append, List.count_cons_self] at hcomment
      exact List.count_eq_zero.1 (by omega)
    rw [hbatch, visible_intercalate (isCode_of_mem_map _), visible, if_pos rfl, visible_true hnotMem,
      List.append_nil]

/-! ### Independence of the lines -/

/-- One line by itself. -/
theorem lexer_code_iff {part : List Exec} (ht : ∀ c ∈ t, IsCode c) : lexer t = some part ↔
    (t.length < 2 ^ 31 ∧ Named t) ∧ part = (scan start t).commands.map Exec.named := by
  have hmode := scan_isCode (z := start) rfl ht
  have hend : endIndex t = t.length := by simp [endIndex, Scanner.overrun, hmode]
  have hfinish : (scan start t).finish = scan start t := by rw [finish, hmode]
  rw [lexer_eq, hend, hfinish, setPaths_eq, ← named_commands_iff ht]
  constructor
  · intro h
    split_ifs at h with hfit hnamed
    exact ⟨⟨hfit, hnamed⟩, (Option.some.inj h).symm⟩
  · rintro ⟨⟨hfit, hnamed⟩, rfl⟩
    rw [if_pos hfit, if_pos hnamed]

theorem forall₂_lexer_iff {parts : List (List Exec)} :
    List.Forall₂ (fun l part => lexer (Line.code l) = some part) lines parts ↔
      (∀ l ∈ lines, l.code.length < 2 ^ 31 ∧ Named l.code) ∧
        parts = lines.map fun l => (scan start l.code).commands.map Exec.named := by
  induction lines generalizing parts with
  | nil => simp
  | cons l lines ih =>
    rw [List.forall₂_cons_left_iff, List.forall_mem_cons, List.map_cons]
    constructor
    · rintro ⟨part, parts, hpart, hparts, rfl⟩
      obtain ⟨hl, rfl⟩ := (lexer_code_iff l.isCode).1 hpart
      obtain ⟨hlines, rfl⟩ := ih.1 hparts
      exact ⟨⟨hl, hlines⟩, rfl⟩
    · rintro ⟨⟨hl, hlines⟩, rfl⟩
      exact ⟨_, _, (lexer_code_iff l.isCode).2 ⟨hl, rfl⟩, ih.2 ⟨hlines, rfl⟩, rfl⟩

/-- A line is no longer than the file. -/
theorem length_code_le {l : Line} (hl : l ∈ lines) : l.code.length ≤ (batch lines).length := by
  obtain ⟨pre, post, rfl⟩ := List.append_of_mem hl
  obtain ⟨rest, hrest⟩ := intercalate_append_cons (pre.map Line.text) (post.map Line.text) []
    l.text
  have hcode : l.code.length ≤ l.text.length := (List.takeWhile_prefix _).length_le
  have hbatch : (batch (pre ++ l :: post)).length =
      (['\n'].intercalate (pre.map Line.text ++ [[]])).length + (l.text.length + rest.length) := by
    rw [batch, List.map_append, List.map_cons, ← List.length_append, ← List.length_append]
    exact congrArg List.length hrest
  omega

theorem map_args_named (cmds : List Exec) :
    (cmds.map Exec.named).map Exec.args = cmds.map Exec.args := by
  rw [List.map_map]
  rfl

theorem flatten_named (lines : List Line) :
    (lines.map fun l => (scan start l.code).commands.map Exec.named).flatten =
      ((lines.map Line.code).map fun t => (scan start t).commands).flatten.map Exec.named := by
  simp [List.map_flatten, Function.comp_def]

/-- The whole file, if the code of some lines is visible. -/
theorem lexer_batch_eq {live : List Line}
    (hvisible : visible false (batch lines) = (live.map Line.code).flatten) :
    lexer (batch lines) = if (batch lines).length + (batch lines).count '#' % 2 < 2 ^ 31 then
      setPaths (scan start (live.map Line.code).flatten).commands else none := by
  have hcode : ∀ c ∈ visible false (batch lines), IsCode c := by
    rw [hvisible]
    exact isCode_flatten (isCode_of_mem_map live)
  obtain ⟨b, hb, hscan⟩ := scan_visible (z := start) rfl hcode
  rw [within_false rfl, hvisible] at hscan
  have hend : endIndex (batch lines) = (batch lines).length + (batch lines).count '#' % 2 := by
    rw [endIndex, hscan, ← Nat.add_zero ((batch lines).count '#'), ← Bool.toNat_false, ← hb]
    cases b <;> rfl
  have hcommands : (scan start (batch lines)).finish.commands =
      (scan start (live.map Line.code).flatten).commands := by
    rw [hscan]
    cases b <;> rfl
  rw [lexer_eq, hend, hcommands]

theorem Separated.lineIndependent (h : Separated lines) : LineIndependent lines := by
  obtain ⟨hvisible, hnamed, hchain, hfits⟩ := h
  have hcmds := commands_flatten_filter (isCode_of_mem_map lines) (List.forall_mem_map.2 hnamed)
    hchain
  refine ⟨_, forall₂_lexer_iff.2 ⟨fun l hl => ⟨?_, hnamed l hl⟩, rfl⟩, ?_⟩
  · have := length_code_le hl
    omega
  · rw [lexer_batch_eq hvisible, if_pos hfits, flatten_named, hcmds, setPaths_eq, if_pos]
    intro cmd hcmd
    obtain ⟨cmds, hmem, hcmd⟩ := List.mem_flatten.1 hcmd
    obtain ⟨t, ht, rfl⟩ := List.mem_map.1 hmem
    obtain ⟨l, hl, rfl⟩ := List.mem_map.1 ht
    exact (named_commands_iff l.isCode).2 (hnamed l hl) cmd hcmd

/-- If the code of some first lines is visible, the others have no code. -/
theorem LineIndependent.separated {live dead : List Line} (hlines : lines = live ++ dead)
    (hvisible : visible false (batch lines) = (live.map Line.code).flatten)
    (h : LineIndependent lines) : Separated lines := by
  obtain ⟨parts, hparts, hbatch⟩ := h
  obtain ⟨hnamed, rfl⟩ := forall₂_lexer_iff.1 hparts
  have hcode := isCode_of_mem_map lines
  have hnamed' := List.forall_mem_map.2 fun l hl => (hnamed l hl).2
  have hcodes : lines.map Line.code = live.map Line.code ++ dead.map Line.code := by
    rw [hlines, List.map_append]
  rw [lexer_batch_eq hvisible, setPaths_eq, flatten_named] at hbatch
  split_ifs at hbatch with hfits hargs
  -- a path is the first argument, so the arguments are all that has to agree
  have hcmds := congrArg (List.map Exec.args) (Option.some.inj hbatch)
  rw [map_args_named, map_args_named, hcodes] at hcmds
  rw [hcodes] at hcode hnamed'
  obtain ⟨hdead, hchain⟩ := isChain_of_commands_append hcode hnamed' hcmds
  refine ⟨?_, fun l hl => (hnamed l hl).2, hcodes ▸ hchain, hfits⟩
  rw [hvisible, hcodes, List.flatten_append, hdead, List.append_nil]

/-- Separated lines are read one by one.  Lines that are not separated are not, if the file has one
`#` at most; where it has more, a comment ends at the next `#`, and the visible text may happen to
be read as the code. -/
theorem lexer_batch (lines : List Line) : (Separated lines → LineIndependent lines) ∧
    ((batch lines).count '#' ≤ 1 ∨
        visible false (batch lines) = (lines.map Line.code).flatten →
      LineIndependent lines → Separated lines) := by
  refine ⟨Separated.lineIndependent, ?_⟩
  rintro (hcomment | hvisible) h
  · obtain ⟨live, dead, hlines, hvisible⟩ := visible_batch hcomment
    exact h.separated hlines hvisible
  · exact h.separated (List.append_nil lines).symm hvisible

/-- The lines `a;` and `b#c` are read one by one. -/
theorem lexer_batch_two :
    LineIndependent [⟨['a', ';'], by decide, isCode_of_all rfl⟩,
      ⟨['b', '#', 'c'], by decide, isCode_of_all rfl⟩] := by
  refine (lexer_batch _).1 ⟨by decide, ?_, ?_, by decide⟩
  · rw [List.forall_mem_cons, List.forall_mem_singleton]
    exact ⟨(named_iff (isCode_of_all rfl)).1 (by decide),
      (named_iff (isCode_of_all rfl)).1 (by decide)⟩
  · have hsep : Separate ['a', ';'] ['b'] := ⟨Or.inr ⟨['a'], 0, rfl⟩, by decide⟩
    exact List.isChain_cons_cons.2 ⟨hsep, List.IsChain.singleton ['b']⟩

/-- The lines `a` and `b` are read as the command `ab`. -/
theorem lexer_batch_merged :
    ¬LineIndependent [⟨['a'], by decide, isCode_of_all rfl⟩, ⟨['b'], by decide, isCode_of_all rfl⟩] := by
  rintro ⟨parts, hparts, hbatch⟩
  have hab : lexer ['a', '\n', 'b'] = some [⟨0, ['a', 'b'], false, [['a', 'b']], .none, false⟩] := by
    decide
  have ha : lexer ['a'] = some [⟨0, ['a'], false, [['a']], .none, false⟩] := by decide
  have hb : lexer ['b'] = some [⟨0, ['b'], false, [['b']], .none, false⟩] := by decide
  cases hparts with
  | cons hfirst hrest =>
    cases hrest with
    | cons hsecond hnil =>
      cases hnil
      obtain rfl := Option.some.inj (ha.symm.trans hfirst)
      obtain rfl := Option.some.inj (hb.symm.trans hsecond)
      exact absurd (hab.symm.trans hbatch) (by decide)

end Mufash
