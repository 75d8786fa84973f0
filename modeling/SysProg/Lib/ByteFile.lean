import Mathlib.Data.List.Basic
import Mathlib.Data.List.GetD
import Mathlib.Tactic

/-!
# Byte files with a position

A file as `stdio` shows it: a length, the bytes, and a position that `fseek`, `fread` and `fwrite`
move.  The bytes are a total function; beyond the length they stand for what a write past the end
leaves in the gap (zeros, in a file that started empty).

* `fseek`, `fseekCur`, `fread`, `fwrite`: the operations, all assumed to succeed;
* `slice f a n`: the `n` bytes from offset `a`;
* `byte_fwrite_of_lt`, `slice_fwrite_disjoint`, `slice_fwrite_self`: a write changes the bytes it
  covers to the bytes written, and no others.
-/

namespace ByteFile

/-- A byte. -/
abbrev Byte := UInt8

/-- A file: its length, its bytes, and the position of the next read or write. -/
structure File where
  size : ℕ
  byte : ℕ → Byte
  pos : ℕ

namespace File

/-- A file that was created or truncated. -/
def empty : File := ⟨0, fun _ => 0, 0⟩

/-- `fseek(f, p, SEEK_SET)`. -/
def fseek (f : File) (p : ℕ) : File := { f with pos := p }

/-- `fseek(f, d, SEEK_CUR)`. -/
def fseekCur (f : File) (d : ℤ) : File := { f with pos := ((f.pos : ℤ) + d).toNat }

/-- The bytes `fread` delivers when `n` bytes are asked for: fewer at the end of the file. -/
def fread (f : File) (n : ℕ) : List Byte :=
  (List.range (min n (f.size - f.pos))).map fun k => f.byte (f.pos + k)

/-- `fwrite` of the bytes `bs` at the position. -/
def fwrite (f : File) (bs : List Byte) : File where
  size := if bs = [] then f.size else max f.size (f.pos + bs.length)
  byte p := if f.pos ≤ p ∧ p < f.pos + bs.length then bs.getD (p - f.pos) 0 else f.byte p
  pos := f.pos + bs.length

/-- The `n` bytes of the file from offset `a`. -/
def slice (f : File) (a n : ℕ) : List Byte := (List.range n).map fun k => f.byte (a + k)

variable (f : File) (bs : List Byte) (a n p : ℕ) (d : ℤ)

@[simp] theorem fseek_size : (f.fseek p).size = f.size := rfl
@[simp] theorem fseek_byte : (f.fseek p).byte = f.byte := rfl
@[simp] theorem fseek_pos : (f.fseek p).pos = p := rfl
@[simp] theorem fseekCur_size : (f.fseekCur d).size = f.size := rfl
@[simp] theorem fseekCur_byte : (f.fseekCur d).byte = f.byte := rfl
@[simp] theorem fwrite_pos : (f.fwrite bs).pos = f.pos + bs.length := rfl

@[simp] theorem fread_length : (f.fread n).length = min n (f.size - f.pos) := by simp [fread]

@[simp] theorem slice_length : (f.slice a n).length = n := by simp [slice]

theorem slice_getD {k : ℕ} (h : k < n) : (f.slice a n).getD k 0 = f.byte (a + k) := by
  simp [slice, h]

theorem slice_congr {f g : File} {a n : ℕ} (h : ∀ k < n, f.byte (a + k) = g.byte (a + k)) :
    f.slice a n = g.slice a n :=
  List.map_congr_left fun k hk => h k (List.mem_range.1 hk)

/-- A list is a slice as soon as it has its length and its bytes. -/
theorem slice_eq_of_getD {f : File} {a : ℕ} {bs : List Byte}
    (h : ∀ k < bs.length, f.byte (a + k) = bs.getD k 0) : f.slice a bs.length = bs := by
  apply List.ext_getElem (by simp)
  intro k h1 h2
  have hk := h k h2
  rw [List.getD_eq_getElem _ _ h2] at hk
  simpa [slice] using hk

theorem slice_take {m : ℕ} (h : m ≤ n) : (f.slice a n).take m = f.slice a m := by
  simp [slice, ← List.map_take, List.take_range, h]

/-- A read that does not run into the end of the file delivers the slice at the position. -/
theorem fread_of_le (h : p + n ≤ f.size) : (f.fseek p).fread n = f.slice p n := by
  have : min n (f.size - p) = n := by omega
  simp [fread, slice, this]

theorem fwrite_size_ge : f.size ≤ (f.fwrite bs).size := by
  simp only [fwrite]
  split_ifs <;> omega

theorem fseek_fwrite_size_ge : f.size ≤ ((f.fseek p).fwrite bs).size :=
  (f.fseek p).fwrite_size_ge bs

/-- A byte outside the written range is kept. -/
theorem byte_fwrite_of_not_mem (h : p < f.pos ∨ f.pos + bs.length ≤ p) :
    (f.fwrite bs).byte p = f.byte p := by
  simp only [fwrite]
  rw [if_neg (by omega)]

/-- A byte in the written range is the one written. -/
theorem byte_fwrite_of_lt {k : ℕ} (h : k < bs.length) :
    (f.fwrite bs).byte (f.pos + k) = bs.getD k 0 := by
  simp only [fwrite]
  rw [if_pos (by omega), Nat.add_sub_cancel_left]

theorem slice_fwrite_disjoint (h : a + n ≤ f.pos ∨ f.pos + bs.length ≤ a) :
    (f.fwrite bs).slice a n = f.slice a n :=
  slice_congr fun k hk => f.byte_fwrite_of_not_mem bs _ (by omega)

theorem slice_fwrite_self : (f.fwrite bs).slice f.pos bs.length = bs :=
  slice_eq_of_getD fun _ hk => f.byte_fwrite_of_lt bs hk

end File

end ByteFile
