import SysProg.Lib.CInt
import SysProg.Lib.CString
import SysProg.Lib.Fields

/-!
# The configuration file

`readConf` cuts the text into lines and each line into words, both with `str_split`.  It counts the
delimiters first, and then asserts that `strtok`, which takes delimiters in a row for one, has found as
many tokens.

* `strSplit`, `fillConf`, `readConf`: the functions; a failed assertion is `none`;
* `strSplit_eq`: when the two counts agree;
* `ConfLine`, `ConfText`: texts of lines that are blank or a key with a number;
* `readConf_iff`: such a text is read as it says exactly if no line is blank, and no space is there
  that need not be, but for one at the end of a line.
-/

namespace Simulation

open ByteFile CInt CString Fields

/-! ### `str_split` -/

/-- The variables of the first loop of `str_split`; `last_comma` is a position. -/
structure Delims where
  tmp : ℕ
  count : ℕ
  lastComma : Option ℕ

/-- One turn of the first loop. -/
def Delims.step (delim : Byte) (s : Delims) (c : Byte) : Delims where
  tmp := s.tmp + 1
  count := if delim = c then s.count + 1 else s.count
  lastComma := if delim = c then some s.tmp else s.lastComma

/-- `str_split`.  The tokens are what the calls of `strtok` return, one after another; a null pointer
is less than any position. -/
def strSplit (str : List Byte) (delim : Byte) : Option (List (List Byte)) :=
  let delims := str.foldl (Delims.step delim) ⟨0, 0, none⟩
  let count := delims.count + (if delims.lastComma.all (· < str.length - 1) then 1 else 0)
  let count := count + 1
  let tokens := fields (· = delim) str
  -- `idx < count` before each token, `idx == count - 1` behind the last one
  if tokens.length ≤ count ∧ tokens.length = count - 1 then some tokens else none

theorem delims_eq (delim : Byte) (str : List Byte) : ∃ last : Option ℕ,
    str.foldl (Delims.step delim) ⟨0, 0, none⟩ = ⟨str.length, str.count delim, last⟩ ∧
      (∀ k ∈ last, k < str.length) ∧
      (last.all (· < str.length - 1) ↔ str.getLast? ≠ some delim) := by
  induction str using List.reverseRecOn with
  | nil => exact ⟨none, rfl, by simp, by simp⟩
  | append_singleton str c ih =>
    obtain ⟨last, hfold, hlt, -⟩ := ih
    rw [List.foldl_append, hfold]
    by_cases hc : delim = c
    · subst hc
      exact ⟨some str.length, by simp [Delims.step], by simp, by simp⟩
    · refine ⟨last, by simp [Delims.step, hc, Ne.symm hc], fun k hk => ?_, ?_⟩
      · have := hlt k hk
        rw [List.length_append]
        omega
      · cases last with
        | none => simp [Ne.symm hc]
        | some k => simpa [Ne.symm hc] using hlt k rfl

/-- **When the two counts agree.** -/
theorem strSplit_eq (str : List Byte) (delim : Byte) : strSplit str delim =
    if (fields (· = delim) str).length =
      str.count delim + (if str.getLast? = some delim then 0 else 1) then
    some (fields (· = delim) str) else none := by
  obtain ⟨last, hfold, -, hlast⟩ := delims_eq delim str
  unfold strSplit
  simp only [hfold]
  by_cases hend : str.getLast? = some delim
  · have hall : ¬last.all (· < str.length - 1) := fun h => hlast.1 h hend
    simp only [hall, hend, if_true, Bool.false_eq_true, if_false, Nat.add_sub_cancel, Nat.add_zero]
    exact if_congr (and_iff_right_of_imp fun h => by omega) rfl rfl
  · have hall : last.all (· < str.length - 1) := hlast.2 hend
    simp only [hall, hend, if_true, if_false, Nat.add_sub_cancel]
    exact if_congr (and_iff_right_of_imp fun h => by omega) rfl rfl

/-! ### `readConf` -/

/-- The fields of `struct Conf`. -/
inductive Key
  | seed
  | initTime
  | finTime
  | arriveMin
  | arriveMax
  | quitProb
  | cpuMin
  | cpuMax
  | disk1Min
  | disk1Max
  | disk2Min
  | disk2Max
  deriving DecidableEq

namespace Key

/-- The keys in the order in which `fillConf` compares with them. -/
def all : List Key :=
  [seed, initTime, finTime, arriveMin, arriveMax, quitProb, cpuMin, cpuMax, disk1Min, disk1Max,
    disk2Min, disk2Max]

/-- The key as it stands in the file. -/
def name (k : Key) : List Byte :=
  (match k with
    | seed => "SEED"
    | initTime => "INIT_TIME"
    | finTime => "FIN_TIME"
    | arriveMin => "ARRIVE_MIN"
    | arriveMax => "ARRIVE_MAX"
    | quitProb => "QUIT_PROB"
    | cpuMin => "CPU_MIN"
    | cpuMax => "CPU_MAX"
    | disk1Min => "DISK1_MIN"
    | disk1Max => "DISK1_MAX"
    | disk2Min => "DISK2_MIN"
    | disk2Max => "DISK2_MAX").toList.map Char.toUInt8

theorem find_name (k : Key) : all.find? (fun k' => k'.name = k.name) = some k := by
  cases k <;> decide

theorem name_ne_nil (k : Key) : k.name ≠ [] := by
  cases k <;> decide

/-- A key contains no delimiters. -/
theorem not_delim_of_mem_name (k : Key) : ∀ c ∈ k.name, c ≠ 32 ∧ c ≠ 10 := by
  cases k <;> decide +kernel

end Key

/-- A `struct Conf`. -/
abbrev Settings := Key → ℕ

/-- `atoi`; a value that is no `int` is undefined. -/
def atoi (str : List Byte) : Option ℤ :=
  let (minus, str) := splitSign (str.dropWhile isSpace)
  let v : ℤ := digitsValue (str.takeWhile isDigit)
  let v := if minus then -v else v
  if -2 ^ 31 ≤ v ∧ v < 2 ^ 31 then some v else none

/-- `fillConf`. -/
def fillConf (conf : Settings) (key val : List Byte) : Option Settings :=
  match Key.all.find? (fun k => k.name = key) with
  | some k => (atoi val).map fun v => Function.update conf k (toUInt v)
  | none => some conf

/-- The body of the loop of `readConf`. -/
def readLine (conf : Settings) (str : List Byte) : Option Settings := do
  let kv ← strSplit str 32
  match kv with
  | key :: val :: _ => fillConf conf key val
  | _ => some conf

/-- `readConf`, from the text of the file on. -/
def readConf (confText : List Byte) : Option Settings := do
  let lines ← strSplit confText 10
  lines.foldlM readLine fun _ => 0

/-! ### Configuration texts -/

/-- A sign before a number, or none. -/
inductive Sign
  | unsigned
  | plus
  | minus

def Sign.text : Sign → List Byte
  | unsigned => []
  | plus => [43]
  | minus => [45]

def Sign.isMinus : Sign → Bool
  | minus => true
  | _ => false

/-- The value of the digits behind a sign. -/
def Sign.value (v : ℕ) (sign : Sign) : ℤ := if sign.isMinus then -v else v

/-- A decimal number within the range of `int`. -/
structure Numeral where
  sign : Sign
  digits : List Byte
  ne_nil : digits ≠ []
  isDigit : ∀ c ∈ digits, CString.isDigit c = true
  range : -2 ^ 31 ≤ sign.value (digitsValue digits) ∧ sign.value (digitsValue digits) < 2 ^ 31

namespace Numeral

def text (n : Numeral) : List Byte := n.sign.text ++ n.digits

def value (n : Numeral) : ℤ := n.sign.value (digitsValue n.digits)

end Numeral

/-- A line of spaces, or a key and a number with `gap + 1` spaces between and `trailing` spaces
behind. -/
inductive ConfLine
  | blank (spaces : ℕ)
  | entry (key : Key) (gap : ℕ) (number : Numeral) (trailing : ℕ)

namespace ConfLine

def text : ConfLine → List Byte
  | blank spaces => List.replicate spaces 32
  | entry key gap number trailing =>
      key.name ++ 32 :: (List.replicate gap 32 ++ (number.text ++ List.replicate trailing 32))

/-- The number that a line gives to a key. -/
def value? (k : Key) : ConfLine → Option ℤ
  | blank _ => none
  | entry key _ number _ => if key = k then some number.value else none

/-- The line is an entry with one space in it, and at most one behind. -/
def Tidy : ConfLine → Prop
  | blank _ => False
  | entry _ gap _ trailing => gap = 0 ∧ trailing ≤ 1

end ConfLine

/-- The lines of a text, and the one that no newline ends, if it is not empty. -/
structure ConfText where
  lines : List ConfLine
  last : Option ConfLine
  last_ne : ∀ l ∈ last, l.text ≠ []

namespace ConfText

def all (t : ConfText) : List ConfLine := t.lines ++ t.last.toList

def text (t : ConfText) : List Byte :=
  t.lines.flatMap (fun l => l.text ++ [10]) ++ t.last.toList.flatMap ConfLine.text

end ConfText

/-- Each field with the value of the last line that names its key, or `0`. -/
def settings (lines : List ConfLine) : Settings := fun k =>
  (lines.filterMap (ConfLine.value? k)).getLast?.elim 0 toUInt

/-! ### One line -/

theorem isDigit_not_delim {c : Byte} (h : isDigit c = true) : c ≠ 32 ∧ c ≠ 10 := by
  constructor <;> rintro rfl <;> exact absurd h (by decide)

theorem Numeral.not_delim (n : Numeral) : ∀ c ∈ n.text, c ≠ 32 ∧ c ≠ 10 := by
  intro c hc
  rcases List.mem_append.1 hc with hc | hc
  · cases hsign : n.sign with
    | unsigned => simp [hsign, Sign.text] at hc
    | plus =>
      rw [hsign] at hc
      rw [List.mem_singleton.1 hc]
      decide
    | minus =>
      rw [hsign] at hc
      rw [List.mem_singleton.1 hc]
      decide
  · exact isDigit_not_delim (n.isDigit c hc)

theorem Numeral.text_ne_nil (n : Numeral) : n.text ≠ [] := fun h =>
  n.ne_nil (List.append_eq_nil_iff.1 h).2

/-- `atoi` reads the value of a number. -/
theorem atoi_text (n : Numeral) : atoi n.text = some n.value := by
  have htake : n.digits.takeWhile isDigit = n.digits := List.takeWhile_eq_self_iff.2 n.isDigit
  have hsplit : splitSign (n.text.dropWhile isSpace) = (n.sign.isMinus, n.digits) := by
    unfold Numeral.text
    cases n.sign with
    | unsigned => exact splitSign_of_digits n.isDigit
    | plus => rfl
    | minus => rfl
  unfold atoi
  rw [hsplit]
  simp only [htake]
  exact if_pos n.range

theorem fillConf_name (conf : Settings) (k : Key) (n : Numeral) :
    fillConf conf k.name n.text = some (Function.update conf k (toUInt n.value)) := by
  unfold fillConf
  rw [Key.find_name, atoi_text]
  rfl

theorem strSplit_blank (spaces : ℕ) : strSplit (List.replicate spaces 32) 32 = none := by
  have hfields : fields (· = 32) (List.replicate spaces (32 : Byte)) = [] := by
    rw [fields_eq_nil_iff]
    exact fun c hc => decide_eq_true (List.eq_of_mem_replicate hc)
  rw [strSplit_eq, hfields, List.count_replicate_self]
  cases spaces with
  | zero => rfl
  | succ n => exact if_neg (Nat.ne_of_lt (Nat.lt_of_lt_of_le n.succ_pos (Nat.le_add_right _ _)))

theorem count_eq_zero_of_ne {str : List Byte} {delim : Byte} (h : ∀ c ∈ str, c ≠ delim) :
    str.count delim = 0 := List.count_eq_zero.2 fun hmem => h delim hmem rfl

theorem fields_eq_self {str : List Byte} {delim : Byte} (h : ∀ c ∈ str, c ≠ delim)
    (hne : str ≠ []) : fields (· = delim) str = [str] :=
  fields_eq_singleton (fun c hc => by simpa using h c hc) hne

/-- The words of an entry are counted right if no space is there that need not be, but for one at the
end. -/
theorem strSplit_entry (key : Key) (gap : ℕ) (number : Numeral) (trailing : ℕ) :
    strSplit (ConfLine.entry key gap number trailing).text 32 =
      if gap = 0 ∧ trailing ≤ 1 then some [key.name, number.text] else none := by
  have hkey : ∀ c ∈ key.name, c ≠ 32 := fun c hc => (key.not_delim_of_mem_name c hc).1
  have hnumber : ∀ c ∈ number.text, c ≠ 32 := fun c hc => (number.not_delim c hc).1
  have hfields : fields (· = 32) (ConfLine.entry key gap number trailing).text =
      [key.name, number.text] := by
    rw [ConfLine.text, fields_append (by rfl), fields_replicate_append (by rfl),
      fields_append_replicate (by rfl), fields_eq_self hkey key.name_ne_nil,
      fields_eq_self hnumber number.text_ne_nil]
    rfl
  have hcount : (ConfLine.entry key gap number trailing).text.count 32 = gap + trailing + 1 := by
    simp only [ConfLine.text, List.count_append, List.count_cons_self, List.count_replicate_self,
      count_eq_zero_of_ne hkey, count_eq_zero_of_ne hnumber]
    omega
  have hlast : (ConfLine.entry key gap number trailing).text.getLast? = some 32 ↔
      trailing ≠ 0 := by
    have hne : number.text ++ List.replicate trailing 32 ≠ [] :=
      List.append_ne_nil_of_left_ne_nil number.text_ne_nil _
    rw [ConfLine.text, List.append_cons, ← List.append_assoc, List.getLast?_append_of_ne_nil _ hne]
    cases trailing with
    | zero =>
      rw [List.replicate_zero, List.append_nil]
      exact iff_of_false (fun h => hnumber 32 (List.mem_of_getLast? h) rfl) fun h => h rfl
    | succ n =>
      rw [List.replicate_succ', ← List.append_assoc]
      simp
  rw [strSplit_eq, hfields, hcount]
  by_cases htrailing : trailing = 0
  · rw [if_neg (fun h => hlast.1 h htrailing)]
    exact if_congr (by simp only [List.length_cons, List.length_nil]; omega) rfl rfl
  · rw [if_pos (hlast.2 htrailing)]
    exact if_congr (by simp only [List.length_cons, List.length_nil]; omega) rfl rfl

/-- A tidy line is read as it says. -/
theorem readLine_of_tidy {l : ConfLine} (h : l.Tidy) (conf : Settings) :
    readLine conf l.text = some fun k => (l.value? k).elim (conf k) toUInt := by
  cases l with
  | blank spaces => exact absurd h id
  | entry key gap number trailing =>
    have hspaces : gap = 0 ∧ trailing ≤ 1 := h
    unfold readLine
    rw [strSplit_entry, if_pos hspaces]
    refine (fillConf_name conf key number).trans (congrArg some (funext fun k => ?_))
    dsimp only [ConfLine.value?]
    by_cases hk : key = k
    · subst hk
      rw [Function.update_self, if_pos rfl]
      rfl
    · rw [Function.update_of_ne (Ne.symm hk), if_neg hk]
      rfl

/-- On any other line an assertion fails. -/
theorem readLine_of_not_tidy {l : ConfLine} (h : ¬l.Tidy) (conf : Settings) :
    readLine conf l.text = none := by
  unfold readLine
  cases l with
  | blank spaces =>
    rw [ConfLine.text, strSplit_blank]
    rfl
  | entry key gap number trailing =>
    have hspaces : ¬(gap = 0 ∧ trailing ≤ 1) := h
    rw [strSplit_entry, if_neg hspaces]
    rfl

/-! ### All lines -/

theorem ConfLine.not_newline (l : ConfLine) : ∀ c ∈ l.text, c ≠ 10 := by
  cases l with
  | blank spaces =>
    intro c hc
    rw [List.eq_of_mem_replicate hc]
    decide
  | entry key gap number trailing =>
    have hspaces : ∀ n, ∀ c ∈ List.replicate n (32 : Byte), c ≠ 10 := by
      intro n c hc
      rw [List.eq_of_mem_replicate hc]
      decide
    simp only [ConfLine.text, List.forall_mem_append, List.forall_mem_cons]
    exact ⟨fun c hc => (key.not_delim_of_mem_name c hc).2, by decide, hspaces gap,
      fun c hc => (number.not_delim c hc).2, hspaces trailing⟩

theorem ConfLine.Tidy.text_ne_nil {l : ConfLine} (h : l.Tidy) : l.text ≠ [] := by
  cases l with
  | blank spaces => exact absurd h id
  | entry key gap number trailing =>
    exact List.append_ne_nil_of_left_ne_nil key.name_ne_nil _

/-- What the lines leave of a field. -/
theorem foldlM_readLine {lines : List ConfLine} (h : ∀ l ∈ lines, l.Tidy) (conf : Settings) :
    (lines.map ConfLine.text).foldlM readLine conf = some fun k =>
      (lines.filterMap (ConfLine.value? k)).getLast?.elim (conf k) toUInt := by
  induction lines generalizing conf with
  | nil => rfl
  | cons l lines ih =>
    rw [List.forall_mem_cons] at h
    rw [List.map_cons, List.foldlM_cons, readLine_of_tidy h.1, Option.bind_eq_bind,
      Option.bind_some, ih h.2]
    refine congrArg some (funext fun k => ?_)
    cases hv : l.value? k with
    | none => rw [List.filterMap_cons_none hv]; rfl
    | some v =>
      rw [List.filterMap_cons_some hv, List.getLast?_cons]
      cases (lines.filterMap (ConfLine.value? k)).getLast? <;> rfl

theorem foldlM_readLine_eq_none {lines : List ConfLine} {l : ConfLine} (hl : l ∈ lines)
    (h : ¬l.Tidy) (conf : Settings) : (lines.map ConfLine.text).foldlM readLine conf = none := by
  induction lines generalizing conf with
  | nil => exact absurd hl List.not_mem_nil
  | cons l' lines ih =>
    rw [List.map_cons, List.foldlM_cons]
    rcases List.mem_cons.1 hl with rfl | hl
    · rw [readLine_of_not_tidy h]
      rfl
    · cases readLine conf l'.text with
      | none => rfl
      | some conf' => exact ih hl conf'

/-- The lines of a text that are not empty. -/
theorem fields_confText (t : ConfText) :
    fields (· = 10) t.text = (t.all.map ConfLine.text).filter (!·.isEmpty) := by
  have hone : ∀ l : ConfLine, fields (· = 10) l.text = [l.text].filter (!·.isEmpty) := by
    intro l
    rw [fields, List.splitOnP_eq_singleton fun c hc => by simpa using l.not_newline c hc]
  obtain ⟨lines, last, hlast⟩ := t
  unfold ConfText.text ConfText.all
  dsimp only
  induction lines with
  | nil =>
    cases last with
    | none => rfl
    | some l => simpa using hone l
  | cons l lines ih =>
    rw [List.flatMap_cons, List.append_assoc, List.append_assoc, List.singleton_append,
      fields_append (by rfl), ih, hone]
    rw [List.cons_append, List.map_cons, ← List.singleton_append (l := List.map _ _),
      List.filter_append]

theorem count_confText (t : ConfText) : t.text.count 10 = t.lines.length := by
  obtain ⟨lines, last, hlast⟩ := t
  unfold ConfText.text
  dsimp only
  have hend : (last.toList.flatMap ConfLine.text).count 10 = 0 := by
    cases last with
    | none => rfl
    | some l => simpa using count_eq_zero_of_ne l.not_newline
  rw [List.count_append, hend]
  induction lines with
  | nil => rfl
  | cons l lines ih =>
    rw [List.flatMap_cons, List.append_assoc, List.count_append,
      count_eq_zero_of_ne l.not_newline, Nat.zero_add, List.singleton_append, List.count_cons_self]
    rw [List.length_cons]
    omega

/-- The text ends with a newline if each of its lines does, and there is one. -/
theorem getLast_confText (t : ConfText) :
    t.text.getLast? = some 10 ↔ t.last = none ∧ t.lines ≠ [] := by
  obtain ⟨lines, last, hlast⟩ := t
  unfold ConfText.text
  dsimp only
  cases last with
  | none =>
    rw [Option.toList_none, List.flatMap_nil, List.append_nil]
    cases lines using List.reverseRecOn with
    | nil => simp
    | append_singleton lines l =>
      rw [List.flatMap_append, List.flatMap_singleton, ← List.append_assoc]
      simp
  | some l =>
    have hne : (some l).toList.flatMap ConfLine.text ≠ [] := by simpa using hlast l rfl
    rw [List.getLast?_append_of_ne_nil _ hne]
    refine iff_of_false (fun h => ?_) fun h => Option.some_ne_none l h.1
    exact l.not_newline 10 (by simpa using List.mem_of_getLast? h) rfl

/-- The lines of a text are counted right if none is empty. -/
theorem strSplit_confText (t : ConfText) : strSplit t.text 10 =
    if t.all ≠ [] ∧ ∀ l ∈ t.all, l.text ≠ [] then some (t.all.map ConfLine.text) else none := by
  have hlen : ((t.all.map ConfLine.text).filter (!·.isEmpty)).length = t.all.length ↔
      ∀ l ∈ t.all, l.text ≠ [] := by
    have hmap : t.all.length = (t.all.map ConfLine.text).length := List.length_map _ |>.symm
    rw [hmap, List.length_filter_eq_length_iff]
    simp
  have hcount : ((t.all.map ConfLine.text).filter (!·.isEmpty)).length =
      t.lines.length + (if t.text.getLast? = some 10 then 0 else 1) ↔
        t.all ≠ [] ∧ ∀ l ∈ t.all, l.text ≠ [] := by
    rw [← hlen, if_congr (getLast_confText t) rfl rfl]
    unfold ConfText.all
    cases hlast : t.last with
    | none =>
      cases hlines : t.lines with
      | nil => simp
      | cons l lines => simp
    | some l => simp
  rw [strSplit_eq, fields_confText, count_confText]
  by_cases h : t.all ≠ [] ∧ ∀ l ∈ t.all, l.text ≠ []
  · have hall : (t.all.map ConfLine.text).filter (!·.isEmpty) = t.all.map ConfLine.text :=
      List.filter_eq_self.2 fun s hs => by
        obtain ⟨l, hl, rfl⟩ := List.mem_map.1 hs
        simpa using h.2 l hl
    rw [if_pos h, if_pos (hcount.2 h), hall]
  · rw [if_neg h, if_neg (mt hcount.1 h)]

/-- **The configuration file** is read as it says exactly if it has a line, no line of it is blank,
and each has one space between the key and the number and at most one behind. -/
theorem readConf_iff (t : ConfText) :
    readConf t.text = some (settings t.all) ↔ t.all ≠ [] ∧ ∀ l ∈ t.all, l.Tidy := by
  unfold readConf
  rw [strSplit_confText]
  constructor
  · intro h
    split_ifs at h with hlines
    · refine ⟨hlines.1, fun l hl => by_contra fun htidy => ?_⟩
      have hnone := foldlM_readLine_eq_none hl htidy fun _ => 0
      exact Option.some_ne_none _ (h.symm.trans hnone)
    · exact absurd h.symm (Option.some_ne_none _)
  · rintro ⟨hne, htidy⟩
    rw [if_pos ⟨hne, fun l hl => (htidy l hl).text_ne_nil⟩]
    exact foldlM_readLine htidy fun _ => 0

/-- `SEED 1` and an empty line. -/
def blankText : ConfText where
  lines := [.entry .seed 0
    ⟨.unsigned, [49], by decide, List.forall_mem_singleton.2 rfl, by decide⟩ 0, .blank 0]
  last := none
  last_ne := fun _ h => absurd h.symm (Option.some_ne_none _)

/-- The assertion on the number of lines fails. -/
theorem readConf_blank : blankText.text = "SEED 1\n\n".toList.map Char.toUInt8 ∧
    readConf blankText.text = none ∧ readConf blankText.text ≠ some (settings blankText.all) := by
  have hnone : readConf blankText.text = none := by
    have hsplit : strSplit blankText.text 10 = none := by decide
    rw [readConf, hsplit]
    rfl
  exact ⟨by decide, hnone, fun h => Option.some_ne_none _ (h.symm.trans hnone)⟩

end Simulation
