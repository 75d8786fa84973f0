import SysProg.Lib.ByteFile
import Mathlib.Data.List.TakeWhile

/-!
# NUL-terminated strings in a buffer, and decimal numbers

* `zstrings b`: the C strings that lie one after another in the buffer `b`.  A scan that starts at
  the first of them and skips each string with its NUL meets exactly these; when they are used up,
  the next `strlen` runs past the end of the buffer.
* `decimal n`: the digits that `std::to_string` writes for a natural number;
* `readUInt64 s`: the number that `operator>>` of a 64-bit unsigned reads from `s`, with its
  treatment of white space, signs, overflow and text that is no number;
* `readUInt64_decimal`: below `2 ^ 64` the number read is the number written.
-/

namespace CString

open ByteFile

/-! ### Strings in a buffer -/

/-- The C strings of a buffer, in order; an unterminated rest is not among them. -/
def zstrings : List Byte → List (List Byte)
  | [] => []
  | c :: cs =>
      if c = 0 then [] :: zstrings cs
      else match zstrings cs with
        | [] => []
        | s :: ss => (c :: s) :: ss

@[simp] theorem zstrings_nil : zstrings [] = [] := rfl

@[simp] theorem zstrings_nul (cs : List Byte) : zstrings (0 :: cs) = [] :: zstrings cs := rfl

/-- Text without a NUL only lengthens the string that follows it. -/
theorem zstrings_append_of_not_mem {s : List Byte} (hs : 0 ∉ s) (t : List Byte) :
    zstrings (s ++ t) = match zstrings t with
      | [] => []
      | u :: us => (s ++ u) :: us := by
  induction s with
  | nil => cases h : zstrings t <;> simp [h]
  | cons c s ih =>
    have hc : c ≠ 0 := fun h => hs (by simp [h])
    rw [List.cons_append, zstrings, if_neg hc, ih (fun h => hs (List.mem_cons_of_mem _ h))]
    cases zstrings t <;> rfl

/-- A string followed by its NUL is the first string of the buffer. -/
theorem zstrings_append_nul {s : List Byte} (hs : 0 ∉ s) (t : List Byte) :
    zstrings (s ++ 0 :: t) = s :: zstrings t := by
  simp [zstrings_append_of_not_mem hs]

theorem zstrings_of_not_mem {s : List Byte} (hs : 0 ∉ s) : zstrings s = [] := by
  simpa using zstrings_append_of_not_mem hs []

@[simp] theorem zstrings_replicate (k : ℕ) :
    zstrings (List.replicate k 0) = List.replicate k [] := by
  induction k with
  | zero => rfl
  | succ k ih => simp [List.replicate_succ, ih]

/-- Cutting a buffer off cuts its list of strings off. -/
theorem zstrings_prefix (a b : List Byte) : zstrings a <+: zstrings (a ++ b) := by
  induction a with
  | nil => simp
  | cons c a ih =>
    rw [List.cons_append, zstrings, zstrings]
    split_ifs with hc
    · exact (List.prefix_cons_inj []).2 ih
    · cases h : zstrings a with
      | nil => simp
      | cons s ss =>
        rw [h] at ih
        obtain ⟨r, hr⟩ := ih
        rw [← hr]
        exact ⟨r, rfl⟩

theorem zstrings_take (n : ℕ) (b : List Byte) : zstrings (b.take n) <+: zstrings b := by
  simpa using zstrings_prefix (b.take n) (b.drop n)

/-! ### Decimal numbers -/

/-- The decimal digits of `n`, as `to_string` writes them. -/
def decimal (n : ℕ) : List Byte := (Nat.toDigits 10 n).map Char.toUInt8

/-- White space of the C locale. -/
def isSpace (c : Byte) : Bool := c = 32 || (9 ≤ c && c ≤ 13)

/-- A decimal digit. -/
def isDigit (c : Byte) : Bool := 48 ≤ c && c ≤ 57

/-- The value of a string of digits. -/
def digitsValue (cs : List Byte) : ℕ := cs.foldl (fun v c => 10 * v + (c.toNat - 48)) 0

/-- Split a leading sign off: whether it is a minus, and the rest. -/
def splitSign : List Byte → Bool × List Byte
  | [] => (false, [])
  | c :: cs => if c = 45 then (true, cs) else if c = 43 then (false, cs) else (false, c :: cs)

/-- The value `operator>>` stores into a 64-bit unsigned: `0` when there is no number, the largest
value on overflow, and the negation modulo `2 ^ 64` after a minus sign. -/
def readUInt64 (s : List Byte) : ℕ :=
  let (neg, s) := splitSign (s.dropWhile isSpace)
  let v := digitsValue (s.takeWhile isDigit)
  if 2 ^ 64 ≤ v then 2 ^ 64 - 1 else if neg then (2 ^ 64 - v) % 2 ^ 64 else v

theorem decimal_ne_nil (n : ℕ) : decimal n ≠ [] := by simp [decimal]

theorem toNat_toUInt8_of_isDigit {c : Char} (h : c.isDigit) : c.toUInt8.toNat = c.toNat := by
  have := Char.isDigit_iff_toNat.1 h
  have h9 : c.toNat ≤ 57 := this.2
  simp only [Char.toUInt8, UInt32.toNat_toUInt8, Char.toNat_val]
  omega

theorem isDigit_of_mem_decimal {n : ℕ} {c : Byte} (h : c ∈ decimal n) : isDigit c = true := by
  obtain ⟨d, hd, rfl⟩ := List.mem_map.1 h
  have hdig := Nat.isDigit_of_mem_toDigits (by decide) (by decide) hd
  have hrange := Char.isDigit_iff_toNat.1 hdig
  have h0 : 48 ≤ d.toNat := hrange.1
  have h9 : d.toNat ≤ 57 := hrange.2
  simp only [isDigit, Bool.and_eq_true, decide_eq_true_eq, UInt8.le_iff_toNat_le,
    toNat_toUInt8_of_isDigit hdig]
  exact ⟨h0, h9⟩

theorem nul_not_mem_decimal (n : ℕ) : 0 ∉ decimal n := fun h =>
  absurd (isDigit_of_mem_decimal h) (by decide)

theorem digitsValue_decimal (n : ℕ) : digitsValue (decimal n) = n := by
  have key : ∀ (ds : List Char) (v : ℕ), (∀ d ∈ ds, d.isDigit) →
      (ds.map Char.toUInt8).foldl (fun v c => 10 * v + (c.toNat - 48)) v =
        Nat.ofDigitChars 10 ds v := by
    intro ds
    induction ds with
    | nil => intro v _; simp
    | cons d ds ih =>
      intro v hds
      rw [List.map_cons, List.foldl_cons, Nat.ofDigitChars_cons,
        toNat_toUInt8_of_isDigit (hds d List.mem_cons_self),
        ih _ (fun e he => hds e (List.mem_cons_of_mem _ he))]
      rfl
  rw [digitsValue, decimal,
    key _ 0 (fun d hd => Nat.isDigit_of_mem_toDigits (by decide) (by decide) hd)]
  exact Nat.ofDigitChars_ten_toDigits

/-- A string of digits has no leading white space and no sign. -/
theorem splitSign_of_digits {s : List Byte} (h : ∀ c ∈ s, isDigit c = true) :
    splitSign (s.dropWhile isSpace) = (false, s) := by
  cases s with
  | nil => rfl
  | cons c s =>
    have hc := h c List.mem_cons_self
    simp only [isDigit, Bool.and_eq_true, decide_eq_true_eq, UInt8.le_iff_toNat_le] at hc
    have h48 : 48 ≤ c.toNat := hc.1
    have hsp : isSpace c = false := by
      simp only [isSpace, Bool.or_eq_false_iff, Bool.and_eq_false_iff, decide_eq_false_iff_not,
        UInt8.le_iff_toNat_le, ← UInt8.toNat_inj]
      exact ⟨fun h => by have h32 : c.toNat = 32 := h; omega,
        Or.inr fun h => by have h13 : c.toNat ≤ 13 := h; omega⟩
    have h45 : c ≠ 45 := fun e => by
      have : c.toNat = 45 := by rw [e]; rfl
      omega
    have h43 : c ≠ 43 := fun e => by
      have : c.toNat = 43 := by rw [e]; rfl
      omega
    rw [List.dropWhile_cons, hsp]
    simp [splitSign, h45, h43]

/-- **Below `2 ^ 64` the number read back is the number written.** -/
theorem readUInt64_decimal {n : ℕ} (h : n < 2 ^ 64) : readUInt64 (decimal n) = n := by
  have hd : ∀ c ∈ decimal n, isDigit c = true := fun c hc => isDigit_of_mem_decimal hc
  have htake : (decimal n).takeWhile isDigit = decimal n := List.takeWhile_eq_self_iff.2 hd
  simp only [readUInt64, splitSign_of_digits hd, htake, digitsValue_decimal]
  rw [if_neg (by omega)]
  rfl

end CString
