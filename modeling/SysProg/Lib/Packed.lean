import SysProg.Lib.ByteFile

/-!
# Packed records of little-endian numbers

The bytes of a `packed` structure on a little-endian machine: its fields one after another, without
padding, each least significant byte first.

* `leBytes w n`, `leNat bs`: a number in `w` bytes, and back;
* `pack ws vs`: the record with field widths `ws` and values `vs`;
* `unpack ws bs`: the fields of the record at the beginning of `bs`;
* `unpack_pack`, `pack_unpack`: the two are inverse to each other.
-/

namespace Packed

open ByteFile

/-- The `w` low bytes of `n`, least significant first. -/
def leBytes : ℕ → ℕ → List Byte
  | 0, _ => []
  | w + 1, n => UInt8.ofNat (n % 256) :: leBytes w (n / 256)

/-- The number with the given bytes, least significant first. -/
def leNat : List Byte → ℕ
  | [] => 0
  | b :: bs => b.toNat + 256 * leNat bs

/-- The record with the given field widths and field values. -/
def pack : List ℕ → List ℕ → List Byte
  | w :: ws, v :: vs => leBytes w v ++ pack ws vs
  | _, _ => []

/-- The fields of the record that the bytes begin with. -/
def unpack : List ℕ → List Byte → List ℕ
  | [], _ => []
  | w :: ws, bs => leNat (bs.take w) :: unpack ws (bs.drop w)

@[simp] theorem leBytes_length (w n : ℕ) : (leBytes w n).length = w := by
  induction w generalizing n with
  | zero => rfl
  | succ w ih => simp [leBytes, ih]

theorem leNat_leBytes {w n : ℕ} (h : n < 256 ^ w) : leNat (leBytes w n) = n := by
  induction w generalizing n with
  | zero =>
    have : n = 0 := by simpa using h
    simp [leBytes, leNat, this]
  | succ w ih =>
    have hdiv : n / 256 < 256 ^ w := by
      rw [Nat.div_lt_iff_lt_mul (by norm_num)]
      rwa [pow_succ] at h
    have hmod : (UInt8.ofNat (n % 256)).toNat = n % 256 := by
      simp
    rw [leBytes, leNat, ih hdiv, hmod]
    omega

theorem leBytes_leNat (bs : List Byte) : leBytes bs.length (leNat bs) = bs := by
  induction bs with
  | nil => rfl
  | cons b bs ih =>
    have hb : b.toNat < 256 := b.toNat_lt
    have hmod : (b.toNat + 256 * leNat bs) % 256 = b.toNat := by omega
    have hdiv : (b.toNat + 256 * leNat bs) / 256 = leNat bs := by omega
    rw [List.length_cons, leBytes, leNat, hmod, hdiv, ih, UInt8.ofNat_toNat]

theorem pack_length {ws vs : List ℕ} (h : vs.length = ws.length) :
    (pack ws vs).length = ws.sum := by
  induction ws generalizing vs with
  | nil => rfl
  | cons w ws ih =>
    cases vs with
    | nil => simp at h
    | cons v vs => simp [pack, ih (by simpa using h)]

@[simp] theorem unpack_length (ws : List ℕ) (bs : List Byte) :
    (unpack ws bs).length = ws.length := by
  induction ws generalizing bs with
  | nil => rfl
  | cons w ws ih => simp [unpack, ih]

/-- The fields of a record are the values it was made of, if they fit. -/
theorem unpack_pack {ws vs : List ℕ} (h : List.Forall₂ (fun w v => v < 256 ^ w) ws vs)
    (rest : List Byte) : unpack ws (pack ws vs ++ rest) = vs := by
  induction h with
  | nil => rfl
  | @cons w v ws vs hv _ ih =>
    have hlen := leBytes_length w v
    rw [pack, unpack, List.append_assoc, List.take_append_of_le_length hlen.ge,
      List.take_of_length_le hlen.le, leNat_leBytes hv, List.drop_append_of_le_length hlen.ge,
      List.drop_of_length_le hlen.le, List.nil_append, ih]

/-- A record is determined by its fields. -/
theorem pack_unpack {ws : List ℕ} {bs : List Byte} (h : bs.length = ws.sum) :
    pack ws (unpack ws bs) = bs := by
  induction ws generalizing bs with
  | nil =>
    have : bs = [] := List.eq_nil_of_length_eq_zero (by simpa using h)
    simp [this, pack]
  | cons w ws ih =>
    rw [List.sum_cons] at h
    have htake : (bs.take w).length = w := by simp [h]
    have hle := leBytes_leNat (bs.take w)
    rw [htake] at hle
    rw [unpack, pack, hle, ih (by simp [h]), List.take_append_drop]

end Packed
