import SysProg.Lib.CInt
import SysProg.Lib.CString

/-!
# The log buffer of `misc.c`

All lines of the log are concatenated in one string.  `appendLog` enlarges its memory by ten times the
length of the new string when the two strings, without the NUL behind them, no longer fit.

* `LogBuffer`: the string and the size of its memory;
* `appendLog`, `log`, `logEvent`: the functions; what `strcat` writes behind the memory is `none`;
* `Room`: what is left before a call, or what the call adds, has room for the NUL;
* `kept_iff`: the log is kept, and stays within its memory, exactly if there is room at each call;
* `logged_iff`: the same for the lines that `log` and `log_event` write.
-/

namespace Simulation

open ByteFile CInt CString

/-- A C string: text without NUL. -/
abbrev CText := {s : List Byte // 0 ∉ s}

/-- `log_buffer` and `log_buffer_allocated_size`. -/
structure LogBuffer where
  text : CText
  allocated : ℕ
  allocated_lt : allocated < 2 ^ 64

theorem nul_not_mem_append (s t : CText) : 0 ∉ s.1 ++ t.1 := by
  rw [List.mem_append, not_or]
  exact ⟨s.2, t.2⟩

theorem sizeAdd_lt (a b : ℕ) : sizeAdd a b < 2 ^ 64 := Nat.mod_lt _ (by norm_num)

/-- `strcat` of two strings. -/
def CText.append (s t : CText) : CText := ⟨s.1 ++ t.1, nul_not_mem_append s t⟩

/-- `initLog`. -/
def initLog : LogBuffer := ⟨⟨[], List.not_mem_nil⟩, 300, by norm_num⟩

/-- `log_buffer_multiplier`. -/
def logBufferMultiplier : ℕ := 10

/-- `realloc`, if it is necessary. -/
def LogBuffer.grown (b : LogBuffer) (len : ℕ) : LogBuffer :=
  if sizeAdd len b.text.1.length > b.allocated then
    { b with
      allocated := sizeAdd b.allocated (logBufferMultiplier * len % 2 ^ 64)
      allocated_lt := sizeAdd_lt _ _ }
  else b

/-- `appendLog`.  The NUL that `strcat` moves behind the text has to be within the memory. -/
def appendLog (b : LogBuffer) (str : CText) : Option LogBuffer :=
  let b := b.grown str.1.length
  if b.text.1.length + str.1.length + 1 ≤ b.allocated then
    some { b with text := b.text.append str }
  else none

/-- `"%s\n"`. -/
def line (event : CText) : CText := event.append ⟨"\n".toList.map Char.toUInt8, by decide⟩

/-- `"[at time %lu]: %s\n"`. -/
def lineAt (time : ℕ) (event : CText) : CText :=
  CText.append ⟨"[at time ".toList.map Char.toUInt8, by decide⟩
    (CText.append ⟨decimal time, nul_not_mem_decimal time⟩
      (CText.append ⟨"]: ".toList.map Char.toUInt8, by decide⟩ (line event)))

/-- A line that is printed into a buffer with 30 bytes more than the event has. -/
def logLine (b : LogBuffer) (event line : CText) : Option LogBuffer :=
  if line.1.length + 1 ≤ event.1.length + 30 then appendLog b line else none

/-- `log`. -/
def log (b : LogBuffer) (event : CText) : Option LogBuffer := logLine b event (line event)

/-- `log_event`. -/
def logEvent (b : LogBuffer) (time : ℕ) (event : CText) : Option LogBuffer :=
  logLine b event (lineAt time event)

/-- The calls by which the simulation writes its log. -/
inductive LogCall
  | log (event : CText)
  | logEvent (time : ℕ) (event : CText)

def LogCall.run (b : LogBuffer) : LogCall → Option LogBuffer
  | .log event => Simulation.log b event
  | .logEvent time event => Simulation.logEvent b time event

/-- The line that a call writes. -/
def LogCall.line : LogCall → CText
  | .log event => Simulation.line event
  | .logEvent time event => lineAt time event

/-- The time has at most 16 digits. -/
def LogCall.Dated : LogCall → Prop
  | .log _ => True
  | .logEvent time _ => time < 10 ^ 16

theorem CText.length_append (s t : CText) : (s.append t).1.length = s.1.length + t.1.length :=
  List.length_append

theorem length_line (event : CText) : (line event).1.length = event.1.length + 1 :=
  CText.length_append _ _

theorem length_lineAt (time : ℕ) (event : CText) :
    (lineAt time event).1.length = event.1.length + (decimal time).length + 13 := by
  have hfront : ("[at time ".toList.map Char.toUInt8).length = 9 := rfl
  have hback : ("]: ".toList.map Char.toUInt8).length = 3 := rfl
  unfold lineAt
  rw [CText.length_append, CText.length_append, CText.length_append, length_line]
  dsimp only
  rw [hfront, hback]
  omega

/-- `log` appends its line. -/
theorem log_eq (b : LogBuffer) (event : CText) : log b event = appendLog b (line event) := by
  refine if_pos ?_
  rw [length_line]
  omega

/-- `log_event` appends its line if the time has at most 16 digits. -/
theorem logEvent_eq (b : LogBuffer) {time : ℕ} (event : CText) (htime : time < 10 ^ 16) :
    logEvent b time event = appendLog b (lineAt time event) := by
  have hdigits : (decimal time).length ≤ 16 := by
    rw [decimal, List.length_map]
    exact (Nat.length_toDigits_le_iff (by norm_num) (by norm_num)).2 htime
  refine if_pos ?_
  rw [length_lineAt]
  omega

/-- The calls append their lines. -/
theorem LogCall.run_eq {call : LogCall} (h : call.Dated) (b : LogBuffer) :
    call.run b = appendLog b call.line := by
  cases call with
  | log event => exact log_eq b event
  | logEvent time event => exact logEvent_eq b event h

/-! ### When the buffer is kept -/

/-- Before a call with the string `str`: it leaves a byte of the memory free, or it does not fit and
the memory that is added has room for it. -/
def Room (b : LogBuffer) (str : CText) : Prop :=
  b.text.1.length + str.1.length < b.allocated ∨
    b.allocated < b.text.1.length + str.1.length ∧
      b.text.1.length + str.1.length < (b.allocated + logBufferMultiplier * str.1.length) % 2 ^ 64

/-- There is room at each call. -/
def Roomy (b : LogBuffer) : List CText → Prop
  | [] => True
  | str :: strs => Room b str ∧ ∀ b', appendLog b str = some b' → Roomy b' strs

/-- The text is the concatenation of the strings, and is within its memory. -/
structure Holds (strs : List CText) (b : LogBuffer) : Prop where
  text : b.text.1 = (strs.map Subtype.val).flatten
  fits : b.text.1.length + 1 ≤ b.allocated

/-- After each call the log is what has been passed to it. -/
def Kept (strs : List CText) : Prop :=
  ∀ n ≤ strs.length, ∃ b, (strs.take n).foldlM appendLog initLog = some b ∧ Holds (strs.take n) b

variable {b b' : LogBuffer} {str : CText} {strs : List CText}

/-- Where the sizes stay below `2 ^ 64`, only a string that fills the memory exactly has no room. -/
theorem room_iff_ne (hfits : b.text.1.length + 1 ≤ b.allocated)
    (hlt : b.allocated + 10 * str.1.length < 2 ^ 64) :
    Room b str ↔ b.text.1.length + str.1.length ≠ b.allocated := by
  rw [Room, logBufferMultiplier, Nat.mod_eq_of_lt hlt]
  omega

theorem LogBuffer.grown_text (b : LogBuffer) (len : ℕ) : (b.grown len).text = b.text := by
  unfold LogBuffer.grown
  split_ifs <;> rfl

/-- The memory after `realloc` is large enough exactly if there is room. -/
theorem grown_fits_iff : b.text.1.length + str.1.length + 1 ≤ (b.grown str.1.length).allocated ↔
    Room b str := by
  have hlt := b.allocated_lt
  have hgrown := (b.grown str.1.length).allocated_lt
  have hmod := Nat.mod_lt (b.allocated + logBufferMultiplier * str.1.length)
    (by norm_num : 0 < 2 ^ 64)
  have hsum : sizeAdd b.allocated (logBufferMultiplier * str.1.length % 2 ^ 64) =
      (b.allocated + logBufferMultiplier * str.1.length) % 2 ^ 64 := by
    rw [sizeAdd, Nat.add_mod_mod]
  rw [Room]
  by_cases hmem : b.text.1.length + str.1.length < 2 ^ 64
  · unfold LogBuffer.grown
    rw [sizeAdd, Nat.add_comm str.1.length, Nat.mod_eq_of_lt hmem]
    split_ifs with hgrow
    · show _ ≤ sizeAdd b.allocated _ ↔ _
      rw [hsum]
      omega
    · omega
  · -- no memory is as large
    omega

theorem appendLog_eq_some_iff : appendLog b str = some b' ↔
    Room b str ∧ b' = { b.grown str.1.length with text := b.text.append str } := by
  rw [appendLog, ← grown_fits_iff, LogBuffer.grown_text]
  split_ifs with h
  · rw [Option.some.injEq, and_iff_right h, eq_comm]
  · simp [h]

/-- **The step lemma.** A call with room keeps the log, with one more string. -/
theorem Holds.appendLog (h : Holds strs b) (hb : appendLog b str = some b') :
    Holds (strs ++ [str]) b' := by
  obtain ⟨hroom, rfl⟩ := appendLog_eq_some_iff.1 hb
  constructor
  · show b.text.1 ++ str.1 = _
    rw [h.text]
    simp
  · show (b.text.1 ++ str.1).length + 1 ≤ (b.grown str.1.length).allocated
    rw [List.length_append]
    exact grown_fits_iff.2 hroom

/-- **The run lemma.** The calls complete exactly if there is room at each one. -/
theorem foldlM_appendLog_isSome : (strs.foldlM Simulation.appendLog b).isSome ↔ Roomy b strs := by
  induction strs generalizing b with
  | nil => exact ⟨fun _ => trivial, fun _ => rfl⟩
  | cons str strs ih =>
    rw [List.foldlM_cons, Roomy]
    cases hb : Simulation.appendLog b str with
    | none =>
      refine ⟨fun h => Bool.noConfusion h, fun h => ?_⟩
      rw [appendLog_eq_some_iff.2 ⟨h.1, rfl⟩] at hb
      cases hb
    | some b' =>
      have hroom := (appendLog_eq_some_iff.1 hb).1
      simp only [Option.bind_eq_bind, Option.bind_some, Option.some.injEq, forall_eq', hroom,
        true_and]
      exact ih

theorem holds_foldlM {seen : List CText} (h : Holds seen b)
    (hb : strs.foldlM Simulation.appendLog b = some b') : Holds (seen ++ strs) b' := by
  induction strs generalizing b seen with
  | nil =>
    obtain rfl := Option.some.inj hb
    rwa [List.append_nil]
  | cons str strs ih =>
    rw [List.foldlM_cons] at hb
    obtain ⟨b₁, hb₁, hb⟩ := Option.bind_eq_some_iff.1 hb
    rw [List.append_cons]
    exact ih (h.appendLog hb₁) hb

theorem holds_initLog : Holds [] initLog := ⟨rfl, by decide⟩

/-- What completes as a whole completes up to each call. -/
theorem foldlM_take_isSome (h : (strs.foldlM Simulation.appendLog b).isSome) (n : ℕ) :
    ((strs.take n).foldlM Simulation.appendLog b).isSome := by
  rw [← List.take_append_drop n strs, List.foldlM_append] at h
  cases hb : (strs.take n).foldlM Simulation.appendLog b with
  | none => rw [hb] at h; exact h
  | some b' => rfl

/-- **The log buffer**: after each call it holds what has been passed to it, with its NUL, exactly if
there is room at each call. -/
theorem kept_iff (strs : List CText) : Kept strs ↔ Roomy initLog strs := by
  rw [← foldlM_appendLog_isSome]
  constructor
  · intro h
    obtain ⟨b, hb, -⟩ := h strs.length le_rfl
    rw [List.take_length] at hb
    rw [hb]
    rfl
  · intro h n _
    obtain ⟨b, hb⟩ := Option.isSome_iff_exists.1 (foldlM_take_isSome h n)
    exact ⟨b, hb, holds_foldlM holds_initLog hb⟩

/-- Two strings, with room for both. -/
theorem kept_two : Kept [⟨[97], by decide⟩, ⟨[98, 99], by decide⟩] := by
  rw [kept_iff]
  refine ⟨Or.inl (by decide), fun b hb => ⟨?_, fun _ _ => trivial⟩⟩
  obtain ⟨-, rfl⟩ := appendLog_eq_some_iff.1 hb
  exact Or.inl (by decide)

/-- A first string of 300 bytes, which fill the memory of `initLog`. -/
def fullText : CText := ⟨List.replicate 300 97, fun h => absurd (List.eq_of_mem_replicate h) (by decide)⟩

theorem fullText_length : fullText.1.length = 300 := List.length_replicate

/-- The NUL is written behind the memory. -/
theorem appendLog_full : appendLog initLog fullText = none ∧ ¬Kept [fullText] := by
  have hroom : ¬Room initLog fullText := by
    rw [room_iff_ne (by decide) (by rw [fullText_length]; decide), fullText_length]
    exact fun h => h rfl
  have hnone : appendLog initLog fullText = none := by
    rw [Option.eq_none_iff_forall_ne_some]
    exact fun b hb => hroom (appendLog_eq_some_iff.1 hb).1
  refine ⟨hnone, fun h => ?_⟩
  obtain ⟨b, hb, -⟩ := h 1 le_rfl
  have hone : [fullText].foldlM appendLog initLog = none := by
    rw [List.foldlM_cons, hnone]
    rfl
  rw [List.take_of_length_le (by decide), hone] at hb
  cases hb

/-- **The log of a simulation**: the calls complete, and the log is their lines one after another,
exactly if there is room for each line. -/
theorem logged_iff {calls : List LogCall} (hcalls : ∀ call ∈ calls, call.Dated) :
    (∃ b, calls.foldlM LogCall.run initLog = some b ∧ Holds (calls.map LogCall.line) b) ↔
      Roomy initLog (calls.map LogCall.line) := by
  have hrun : ∀ b, calls.foldlM LogCall.run b =
      (calls.map LogCall.line).foldlM Simulation.appendLog b := by
    induction calls with
    | nil => exact fun b => rfl
    | cons call calls ih =>
      intro b
      rw [List.map_cons, List.foldlM_cons, List.foldlM_cons,
        LogCall.run_eq (hcalls call List.mem_cons_self)]
      exact congrArg _ (funext (ih fun c hc => hcalls c (List.mem_cons_of_mem call hc)))
  rw [hrun, ← foldlM_appendLog_isSome]
  constructor
  · rintro ⟨b, hb, -⟩
    rw [hb]
    rfl
  · intro h
    obtain ⟨b, hb⟩ := Option.isSome_iff_exists.1 h
    exact ⟨b, hb, holds_foldlM holds_initLog hb⟩

end Simulation
