import SysProg.Lib.Fields
import SysProg.Mufash.Separators
import SysProg.Mufash.Stream

/-!
# The first argument of each command

The operators cut the tokens of a line into segments, one for each command, and the spaces cut a
segment into words.  The executor runs the first argument of each command, which is the first word
only as long as the flag for the spaces is right: it is down at the beginning of the line, where a
space then makes an empty argument, and stays up behind an operator until a character without a
quote or a backslash.

* `segments`, `wordsOf`, `firstWord`: what a line says;
* `argsOf`, `map_args_commands`: the arguments of each command, from its segment alone;
* `head_argsOf_iff`: when the first of them is the first word;
* `executable_iff`: every command has its first word as first argument exactly if each segment is well
  spaced.
-/

namespace Mufash

open Scanner Fields

namespace Token

def isSpace : Token → Bool
  | space => true
  | _ => false

/-- A character that ends the skipping of spaces. -/
def isPlain : Token → Bool
  | text _ plain => plain
  | _ => false

end Token

/-- The tokens of each command. -/
def segments (cmd_line : Text) : List (List Token) := (tokens cmd_line).splitOnP Token.isOperator

/-- The words of a command. -/
def wordsOf (segment : List Token) : List (List Token) := fields Token.isSpace segment

/-- The characters of a word. -/
def textOf (word : List Token) : Text := word.filterMap Token.char?

/-- The first word of a command. -/
def firstWord (segment : List Token) : Option Text := (wordsOf segment).head?.map textOf

/-- Every command that the trimming leaves has a first argument, and this is its first word. -/
def Executable (cmd_line : Text) : Prop :=
  ∃ cmds, ((lexed cmd_line).bind fun s => trim s.cmds) = some cmds ∧
    ∀ (i : ℕ) (cmd : Exec), cmds[i]? = some cmd → ∃ w, w ≠ [] ∧
      (segments cmd_line)[i]?.bind firstWord = some w ∧ cmd.args.head? = some w

/-- The first command does not begin with a space, only the last one may be without words, and in a
command behind an operator the first word has a character that needs no quotes, or no word follows
it. -/
def WellSpaced (first last : Prop) (segment : List Token) : Prop :=
  match wordsOf segment with
  | [] => last ∧ (first → segment = [])
  | word :: words => (first → segment.head? ≠ some .space) ∧
      (¬first → words = [] ∨ ∃ t ∈ word, t.isPlain)

/-! ### One command -/

/-- The arguments that the lexer makes of a segment. -/
def argsOf (skip : Bool) (segment : List Token) : List Text :=
  (segment.foldl feed ⟨.plain, [], [], [], skip⟩).args

section Segment

variable {z : Scanner} {ts : List Token} {skip : Bool}

theorem feed_space (h : z.ignorespace) : z.feed .space = z := split_of_ignorespace h

/-- The characters of a word, up to a space. -/
theorem foldl_word (hz : z.mode = .plain) (hts : ∀ t ∈ ts, ¬t.isOperator)
    (hword : ∀ t ∈ ts, ¬t.isSpace) : ts.foldl feed z =
      { z with
        word := z.word ++ textOf ts
        ignorespace := z.ignorespace && !ts.any Token.isPlain } := by
  induction ts generalizing z with
  | nil => simp [textOf]
  | cons t ts ih =>
    rw [List.forall_mem_cons] at hts hword
    cases t with
    | text c plain =>
      rw [List.foldl_cons, ih rfl hts.2 hword.2]
      simp [feed, push, hz, textOf, Token.char?, Token.isPlain, Bool.and_assoc]
    | space => exact absurd rfl hword.1
    | operator redir background => exact absurd rfl hts.1

/-- A closed first word stays the first argument. -/
theorem head_foldl (hts : ∀ t ∈ ts, ¬t.isOperator) (hz : z.words ≠ []) :
    (ts.foldl feed z).args.head? = z.words.head? := by
  obtain ⟨w, ws, hw⟩ := List.exists_cons_of_ne_nil hz
  induction ts generalizing z ws with
  | nil =>
    rw [List.foldl_nil, args, hw]
    split_ifs <;> rfl
  | cons t ts ih =>
    rw [List.forall_mem_cons] at hts
    rw [List.foldl_cons]
    cases t with
    | text c plain => exact ih hts.2 (z := z.feed (.text c plain)) hz ws hw
    | space =>
      have hsplit : ∃ ws', z.split.words = w :: ws' := by
        unfold split
        split_ifs
        · exact ⟨ws, hw⟩
        · exact ⟨ws ++ [z.word], by simp [hw]⟩
      obtain ⟨ws', hw'⟩ := hsplit
      have hhead := ih hts.2 (z := z.split) (by simp [hw']) ws' hw'
      rw [hw'] at hhead
      rw [hw]
      exact hhead
    | operator redir background => exact absurd rfl hts.1

/-- An open first word begins the first argument. -/
theorem prefix_head_foldl (hts : ∀ t ∈ ts, ¬t.isOperator) (hz : z.words = []) (hword : z.word ≠ []) :
    ∃ a, (ts.foldl feed z).args.head? = some a ∧ z.word <+: a := by
  induction ts generalizing z with
  | nil => exact ⟨z.word, by simp [args, hz, hword], List.prefix_refl _⟩
  | cons t ts ih =>
    rw [List.forall_mem_cons] at hts
    rw [List.foldl_cons]
    cases t with
    | text c plain =>
      obtain ⟨a, ha, hpre⟩ := ih hts.2 (z := z.feed (.text c plain)) hz (by simp [feed, push])
      exact ⟨a, ha, (List.prefix_append _ _).trans hpre⟩
    | space =>
      by_cases hskip : z.ignorespace
      · rw [feed_space hskip]
        exact ih hts.2 hz hword
      · have hwords : (z.feed .space).words = [z.word] := by simp [feed, split, hskip, hz]
        refine ⟨z.word, ?_, List.prefix_refl _⟩
        rw [head_foldl hts.2 (by simp [hwords]), hwords]
        rfl
    | operator redir background => exact absurd rfl hts.1

/-- Where spaces are skipped, a second word lengthens the first argument. -/
theorem longer_head_foldl (hts : ∀ t ∈ ts, ¬t.isOperator) (hz : z.words = [])
    (hskip : z.ignorespace) (hne : wordsOf ts ≠ []) :
    ∃ a, (ts.foldl feed z).args.head? = some a ∧ z.word.length < a.length := by
  induction ts generalizing z with
  | nil => exact absurd rfl hne
  | cons t ts ih =>
    rw [List.forall_mem_cons] at hts
    rw [List.foldl_cons]
    cases t with
    | text c plain =>
      obtain ⟨a, ha, hpre⟩ := prefix_head_foldl (z := z.feed (.text c plain)) hts.2 hz
        (by simp [feed, push])
      refine ⟨a, ha, ?_⟩
      have hlen := hpre.length_le
      simp only [feed, push, List.length_append, List.length_singleton] at hlen
      omega
    | space =>
      rw [feed_space hskip]
      exact ih hts.2 hz hskip (by rwa [wordsOf, fields_cons_of_pos rfl] at hne)
    | operator redir background => exact absurd rfl hts.1

/-- Spaces that are skipped. -/
theorem foldl_spaces (hts : ∀ t ∈ ts, t.isSpace) (hskip : z.ignorespace) : ts.foldl feed z = z := by
  induction ts with
  | nil => rfl
  | cons t ts ih =>
    rw [List.forall_mem_cons] at hts
    cases t with
    | space => rw [List.foldl_cons, feed_space hskip, ih hts.2]
    | text c plain => exact Bool.noConfusion hts.1
    | operator redir background => exact Bool.noConfusion hts.1

/-- An open first word stays the first argument if the space behind it is read, or if no word
follows it. -/
theorem head_foldl_iff (hts : ∀ t ∈ ts, ¬t.isOperator) (hz : z.words = []) (hword : z.word ≠ [])
    (hhead : ∀ t ∈ ts.head?, t.isSpace) : (ts.foldl feed z).args.head? = some z.word ↔
      z.ignorespace = false ∨ wordsOf ts = [] := by
  have hopen : z.args = [z.word] := by simp [args, hz, hword]
  cases ts with
  | nil => simp [hopen, wordsOf]
  | cons t ts =>
    cases t with
    | space =>
      cases hskip : z.ignorespace with
      | false =>
        have hwords : (z.feed .space).words = [z.word] := by simp [feed, split, hskip, hz]
        rw [List.foldl_cons, head_foldl (List.forall_mem_cons.1 hts).2 (by simp [hwords]), hwords]
        simp
      | true =>
        by_cases hwords : wordsOf (.space :: ts) = []
        · rw [foldl_spaces (fields_eq_nil_iff.1 hwords) hskip, hopen]
          simp [hwords]
        · obtain ⟨a, ha, hlt⟩ := longer_head_foldl hts hz hskip hwords
          rw [ha]
          simp only [Option.some.injEq, hwords, Bool.true_eq_false, or_self, iff_false]
          exact fun e => hlt.ne (e ▸ rfl)
    | text c plain => exact absurd (hhead _ rfl) Bool.false_ne_true
    | operator redir background => exact absurd (hhead _ rfl) Bool.false_ne_true

/-- A first word without a space before it. -/
theorem head_argsOf_word (skip : Bool) (c : Char) (plain : Bool) (hts : ∀ t ∈ ts, ¬t.isOperator) :
    (argsOf skip (.text c plain :: ts)).head? =
        some (textOf (.text c plain :: ts.takeWhile (!Token.isSpace ·))) ↔
      skip = false ∨ wordsOf (ts.dropWhile (!Token.isSpace ·)) = [] ∨
        ∃ t ∈ Token.text c plain :: ts.takeWhile (!Token.isSpace ·), t.isPlain := by
  set run := Token.text c plain :: ts.takeWhile (!Token.isSpace ·) with hrun
  set tail := ts.dropWhile (!Token.isSpace ·) with htail
  have hsplit : Token.text c plain :: ts = run ++ tail := by
    rw [hrun, htail, List.cons_append, List.takeWhile_append_dropWhile]
  have hoperator : ∀ t ∈ run ++ tail, ¬t.isOperator := by
    rw [← hsplit, List.forall_mem_cons]
    exact ⟨Bool.false_ne_true, hts⟩
  rw [List.forall_mem_append] at hoperator
  have hspace : ∀ t ∈ run, ¬t.isSpace := by
    rw [hrun, List.forall_mem_cons]
    refine ⟨Bool.false_ne_true, fun t ht => ?_⟩
    simpa using List.mem_takeWhile_imp ht
  have hhead : ∀ t ∈ tail.head?, t.isSpace := by
    intro t ht
    have := List.head?_dropWhile_not (!Token.isSpace ·) ts
    rw [← htail, ht] at this
    simpa using this
  rw [hsplit, argsOf, List.foldl_append, foldl_word rfl hoperator.1 hspace]
  refine (head_foldl_iff hoperator.2 rfl (by simp [hrun, textOf, Token.char?]) hhead).trans ?_
  simp only [Bool.and_eq_false_iff, Bool.not_eq_false', List.any_eq_true]
  exact or_assoc.trans (or_congr_right or_comm)

/-- A command with a word has an argument. -/
theorem argsOf_ne_nil (skip : Bool) (c : Char) (plain : Bool) (hts : ∀ t ∈ ts, ¬t.isOperator) :
    argsOf skip (.text c plain :: ts) ≠ [] := by
  obtain ⟨a, ha, -⟩ := prefix_head_foldl (z := feed ⟨.plain, [], [], [], skip⟩ (.text c plain)) hts
    rfl (by simp [feed, push])
  intro h
  rw [argsOf, List.foldl_cons] at h
  rw [h] at ha
  exact Option.some_ne_none a ha.symm

/-- A space at the beginning of the line makes an empty argument. -/
theorem head_argsOf_space (hts : ∀ t ∈ ts, ¬t.isOperator) :
    (argsOf false (.space :: ts)).head? = some [] :=
  head_foldl (z := feed ⟨.plain, [], [], [], false⟩ .space) hts (List.cons_ne_nil _ _)

/-- At the beginning of any other segment a space is skipped. -/
theorem argsOf_space (ts : List Token) : argsOf true (.space :: ts) = argsOf true ts := by
  rw [argsOf, List.foldl_cons, feed_space rfl]
  rfl

theorem wordsOf_space (ts : List Token) : wordsOf (.space :: ts) = wordsOf ts :=
  fields_cons_of_pos rfl

theorem firstWord_space (ts : List Token) : firstWord (.space :: ts) = firstWord ts := by
  rw [firstWord, wordsOf_space]
  rfl

section WellSpaced

variable {first last : Prop}

theorem not_wellSpaced_space (hfirst : first) (ts : List Token) :
    ¬WellSpaced first last (.space :: ts) := by
  unfold WellSpaced
  cases wordsOf (.space :: ts) with
  | nil => simp [hfirst]
  | cons word words => simp [hfirst]

theorem wellSpaced_space_iff (hfirst : ¬first) (ts : List Token) :
    WellSpaced first last (.space :: ts) ↔ WellSpaced first last ts := by
  unfold WellSpaced
  rw [wordsOf_space]
  simp [hfirst]

end WellSpaced

/-- **One command** is trimmed away or has its first word as first argument exactly if its segment is
well spaced. -/
theorem head_argsOf_iff (first last : Prop) [Decidable first] {segment : List Token}
    (hts : ∀ t ∈ segment, ¬t.isOperator) :
    (last ∧ argsOf (decide ¬first) segment = [] ∨ ∃ w, w ≠ [] ∧ firstWord segment = some w ∧
      (argsOf (decide ¬first) segment).head? = some w) ↔ WellSpaced first last segment := by
  induction segment with
  | nil => simp [argsOf, args, firstWord, wordsOf, WellSpaced]
  | cons t ts ih =>
    rw [List.forall_mem_cons] at hts
    cases t with
    | text c plain =>
      have hwords : wordsOf (.text c plain :: ts) =
          (.text c plain :: ts.takeWhile (!Token.isSpace ·)) ::
            wordsOf (ts.dropWhile (!Token.isSpace ·)) := fields_cons_of_neg Bool.false_ne_true
      have hne : textOf (.text c plain :: ts.takeWhile (!Token.isSpace ·)) ≠ [] := by
        simp [textOf, Token.char?]
      have hargs := argsOf_ne_nil (decide ¬first) c plain hts.2
      have hhead := head_argsOf_word (decide ¬first) c plain hts.2
      simp only [WellSpaced, firstWord, hwords, hargs, and_false, false_or, List.head?_cons,
        Option.map_some, Option.some.injEq]
      constructor
      · rintro ⟨w, -, rfl, hw⟩
        refine ⟨fun _ => by simp, fun hfirst => ?_⟩
        simpa [hfirst] using hhead.1 hw
      · rintro ⟨-, h⟩
        refine ⟨_, hne, rfl, hhead.2 ?_⟩
        by_cases hfirst : first
        · exact Or.inl (by simp [hfirst])
        · exact Or.inr (h hfirst)
    | space =>
      by_cases hfirst : first
      · -- the first argument is empty, and no first word is
        have hhead := head_argsOf_space hts.2
        have hargs : argsOf false (.space :: ts) ≠ [] := fun h => by simp [h] at hhead
        refine iff_of_false ?_ (not_wellSpaced_space hfirst ts)
        simp only [hfirst, not_true_eq_false, decide_false, hargs, and_false, false_or, hhead,
          Option.some.injEq]
        rintro ⟨w, hw, -, rfl⟩
        exact hw rfl
      · have hskip : decide (¬first) = true := decide_eq_true hfirst
        rw [hskip, argsOf_space, firstWord_space, wellSpaced_space_iff hfirst, ← hskip]
        exact ih hts.2
    | operator redir background => exact absurd rfl hts.1

end Segment

/-! ### All commands -/

section Commands

variable {z : Scanner} {ts : List Token} {cmd_line : Text}

theorem feed_prepend (d : List Exec) (z : Scanner) (t : Token) :
    (z.prepend d).feed t = (z.feed t).prepend d := by
  cases t with
  | text c plain => rfl
  | space => exact split_prepend d z
  | operator redir background => exact close_prepend d z redir background

theorem foldl_feed_prepend (d : List Exec) (z : Scanner) (ts : List Token) :
    ts.foldl feed (z.prepend d) = (ts.foldl feed z).prepend d := by
  induction ts generalizing z with
  | nil => rfl
  | cons t ts ih => rw [List.foldl_cons, feed_prepend, ih]; rfl

/-- The arguments of the closed commands, and those of the open one. -/
def allArgs (z : Scanner) : List (List Text) := z.done.map Exec.args ++ [z.args]

/-- The arguments of each command are those of its segment. -/
theorem allArgs_foldl (z : Scanner) (ts : List Token) : ∃ segment rest,
    ts.splitOnP Token.isOperator = segment :: rest ∧ allArgs (ts.foldl feed z) =
      z.done.map Exec.args ++ (segment.foldl feed z).args :: rest.map (argsOf true) := by
  induction ts generalizing z with
  | nil => exact ⟨[], [], rfl, rfl⟩
  | cons t ts ih =>
    obtain ⟨segment, rest, hsplit, hargs⟩ := ih (z.feed t)
    rw [List.splitOnP_cons_eq_if_modifyHead, hsplit, List.foldl_cons, hargs]
    have hkept : ∀ t' : Token, t'.isOperator = false → (z.feed t').done = z.done := by
      intro t' ht'
      cases t' with
      | text c plain => rfl
      | space => exact split_done
      | operator redir background => exact Bool.noConfusion ht'
    by_cases ht : t.isOperator
    · cases t with
      | operator redir background =>
        -- behind an operator the closed commands play no part
        have hclose : z.feed (.operator redir background) =
            restart.prepend (z.feed (.operator redir background)).done := by
          simp [prepend, restart, feed, close]
        refine ⟨[], segment :: rest, if_pos rfl, ?_⟩
        rw [hclose, foldl_feed_prepend, args_prepend]
        simp [feed, close, argsOf, restart, prepend]
      | text c plain => exact Bool.noConfusion ht
      | space => exact Bool.noConfusion ht
    · exact ⟨t :: segment, rest, if_neg ht, by rw [hkept t (by simpa using ht)]; rfl⟩

theorem allArgs_scan (cmd_line : Text) : ∃ segment rest, segments cmd_line = segment :: rest ∧
    allArgs (scan start cmd_line).finish = argsOf false segment :: rest.map (argsOf true) := by
  obtain ⟨segment, rest, hsplit, hargs⟩ := allArgs_foldl start (tokens cmd_line)
  have hfold : allArgs (scan start cmd_line).finish.rest =
      allArgs ((tokens cmd_line).foldl feed start) := congrArg allArgs (fold_tokens start cmd_line)
  exact ⟨segment, rest, hsplit, hfold.trans hargs⟩

/-- The arguments of the command at each place. -/
theorem allArgs_getElem? (cmd_line : Text) (i : ℕ) :
    (allArgs (scan start cmd_line).finish)[i]? =
      (segments cmd_line)[i]?.map (argsOf (decide ¬i = 0)) := by
  obtain ⟨segment, rest, hsegments, hargs⟩ := allArgs_scan cmd_line
  rw [hargs, hsegments]
  cases i with
  | zero => rfl
  | succ i => exact List.getElem?_map

theorem segments_length (cmd_line : Text) :
    (segments cmd_line).length = (scan start cmd_line).finish.done.length + 1 := by
  obtain ⟨segment, rest, hsegments, hargs⟩ := allArgs_scan cmd_line
  have hlen := congrArg List.length hargs
  simp only [allArgs, List.length_append, List.length_map, List.length_cons,
    List.length_nil] at hlen
  rw [hsegments, List.length_cons]
  omega

/-- The trimming leaves out the last command if it has no arguments. -/
theorem map_args_commands (z : Scanner) : z.commands.map Exec.args =
    if z.args = [] then z.done.map Exec.args else allArgs z := by
  unfold commands allArgs
  split_ifs <;> simp

/-- What is left of a list after its last element is taken away if it is empty. -/
theorem forall_trimmed {α : Type*} {P : ℕ → List α → Prop} (D : List (List α)) (last : List α) :
    (∀ i a, (if last = [] then D else D ++ [last])[i]? = some a → P i a) ↔
      ∀ i a, (D ++ [last])[i]? = some a → (i = D.length ∧ a = []) ∨ P i a := by
  have hlast : (D ++ [last])[D.length]? = some last := List.getElem?_concat_length
  constructor
  · intro h i a ha
    by_cases hi : i = D.length
    · obtain rfl : last = a := Option.some.inj (hlast.symm.trans (hi ▸ ha))
      by_cases hnil : last = []
      · exact Or.inl ⟨hi, hnil⟩
      · exact Or.inr (h i last (by rw [if_neg hnil, hi, hlast]))
    · have hlt : i < D.length := by
        have := (List.getElem?_eq_some_iff.1 ha).1
        simp only [List.length_append, List.length_singleton] at this
        omega
      refine Or.inr (h i a ?_)
      split_ifs
      · rwa [List.getElem?_append_left hlt] at ha
      · exact ha
  · intro h i a ha
    split_ifs at ha with hnil
    · have hlt := (List.getElem?_eq_some_iff.1 ha).1
      rcases h i a (by rwa [List.getElem?_append_left hlt]) with ⟨hi, -⟩ | hP
      · omega
      · exact hP
    · rcases h i a ha with ⟨hi, rfl⟩ | hP
      · exact absurd (Option.some.inj (hlast.symm.trans (hi ▸ ha))) hnil
      · exact hP

/-- **The first argument of each command** that the trimming leaves is its first word exactly if the
line fits the index and each segment is well spaced. -/
theorem executable_iff (cmd_line : Text) : Executable cmd_line ↔ Fits cmd_line ∧
    ∀ i segment, (segments cmd_line)[i]? = some segment →
      WellSpaced (i = 0) (i + 1 = (segments cmd_line).length) segment := by
  set z := (scan start cmd_line).finish with hz
  have hlexed : ((lexed cmd_line).bind fun s => trim s.cmds) =
      if Fits cmd_line then some z.commands else none := by
    rw [lexed_eq, if_congr (fits_iff cmd_line) rfl rfl]
    split_ifs
    · exact trim_lexer
    · rfl
  -- what is left of the commands, at the level of their arguments
  have hcommands : (∀ (i : ℕ) (cmd : Exec), z.commands[i]? = some cmd → ∃ w, w ≠ [] ∧
        (segments cmd_line)[i]?.bind firstWord = some w ∧ cmd.args.head? = some w) ↔
      ∀ i args, (allArgs z)[i]? = some args → (i = z.done.length ∧ args = []) ∨ ∃ w, w ≠ [] ∧
        (segments cmd_line)[i]?.bind firstWord = some w ∧ args.head? = some w := by
    rw [allArgs, ← List.length_map (f := Exec.args), ← forall_trimmed, ← allArgs,
      ← map_args_commands]
    simp only [List.getElem?_map, Option.map_eq_some_iff]
    constructor
    · rintro h i _ ⟨cmd, hcmd, rfl⟩
      exact h i cmd hcmd
    · exact fun h i cmd hcmd => h i cmd.args ⟨cmd, hcmd, rfl⟩
  have hsegments : (∀ i args, (allArgs z)[i]? = some args →
        (i = z.done.length ∧ args = []) ∨ ∃ w, w ≠ [] ∧
          (segments cmd_line)[i]?.bind firstWord = some w ∧ args.head? = some w) ↔
      ∀ i segment, (segments cmd_line)[i]? = some segment →
        WellSpaced (i = 0) (i + 1 = (segments cmd_line).length) segment := by
    refine forall_congr' fun i => ?_
    rw [allArgs_getElem?, segments_length, ← hz]
    cases hi : (segments cmd_line)[i]? with
    | none => simp
    | some segment =>
      have hoperator : ∀ t ∈ segment, ¬t.isOperator :=
        fun t ht => not_of_mem_splitOnP (List.mem_of_getElem? hi) ht
      simp only [Option.map_some, Option.some.injEq, forall_eq', Option.bind_some,
        Nat.add_right_cancel_iff]
      exact head_argsOf_iff (i = 0) (i = z.done.length) hoperator
  rw [Executable, hlexed, ← hsegments, ← hcommands]
  by_cases hfits : Fits cmd_line
  · simp [hfits]
  · simp [hfits]

/-- A space at the beginning of the line makes the executable an empty string. -/
theorem not_executable_space : ¬Executable " ls".toList ∧
    lexer " ls".toList = some [⟨0, [], false, [[], "ls".toList], .none, false⟩] := by
  refine ⟨?_, by decide⟩
  rintro ⟨cmds, hcmds, h⟩
  have htrim : ((lexed " ls".toList).bind fun s => trim s.cmds) =
      some [⟨0, [], false, [[], "ls".toList], .none, false⟩] := by decide
  obtain rfl := Option.some.inj (htrim.symm.trans hcmds)
  obtain ⟨w, hw, -, hhead⟩ := h 0 _ rfl
  exact hw (Option.some.inj hhead).symm

end Commands

end Mufash
