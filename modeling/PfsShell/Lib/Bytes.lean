/-
# Bytes: C strings and little-endian integers

A C string is the list of its bytes before the terminating NUL (`CStr`).  An integer that is
written through a pointer leaves its bytes least significant first (`leBytes`); reading them
back is `ofLeBytes`.
-/
import Mathlib.Data.List.Basic
import Mathlib.Data.List.TakeWhile
import Mathlib.Data.Nat.ModEq
import Mathlib.Tactic.Common

namespace PfsShell.Lib

/-- The bytes of a C string, without the terminating NUL. -/
abbrev CStr := List UInt8

/-- The ASCII text of a string literal. -/
def ascii (cs : List Char) : CStr := cs.map fun c => UInt8.ofNat c.toNat

/-- `sprintf("%d", i)` for `i ≥ 0`. -/
def decimal (i : ℕ) : CStr := ascii (Nat.toDigits 10 i)

/-- `p = strchr(s, c); if (p) *p = 0;`: the text before the first `c`. -/
def cutAt (c : UInt8) (s : CStr) : CStr := s.takeWhile (· ≠ c)

@[simp] theorem cutAt_cons_self (c : UInt8) (s : CStr) : cutAt c (c :: s) = [] := by
  simp [cutAt]

theorem cutAt_cons_of_ne {c x : UInt8} (h : x ≠ c) (s : CStr) :
    cutAt c (x :: s) = x :: cutAt c s := by
  simp [cutAt, h]

/-- What follows the first `c` does not matter. -/
theorem cutAt_append_of_mem {c : UInt8} (r : CStr) {s : CStr} (h : c ∈ s) :
    cutAt c (s ++ r) = cutAt c s := by
  induction s with
  | nil => cases h
  | cons x s ih =>
    by_cases hx : x = c
    · subst hx
      rw [List.cons_append, cutAt_cons_self, cutAt_cons_self]
    · have hs : c ∈ s := (List.mem_cons.mp h).resolve_left (Ne.symm hx)
      rw [List.cons_append, cutAt_cons_of_ne hx, cutAt_cons_of_ne hx, ih hs]

/-- The text up to and including the first `c` begins the text. -/
theorem cutAt_concat_prefix {c : UInt8} {s : CStr} (h : c ∈ s) : cutAt c s ++ [c] <+: s := by
  induction s with
  | nil => cases h
  | cons x s ih =>
    by_cases hx : x = c
    · subst hx
      exact ⟨s, by rw [cutAt_cons_self]; rfl⟩
    · have hs : c ∈ s := (List.mem_cons.mp h).resolve_left (Ne.symm hx)
      rw [cutAt_cons_of_ne hx, List.cons_append]
      exact List.cons_prefix_cons.mpr ⟨rfl, ih hs⟩

/-- A text without `c` ends in front of the `c` that follows it. -/
theorem cutAt_append_cons {c : UInt8} {s : CStr} (hs : c ∉ s) (r : CStr) :
    cutAt c (s ++ c :: r) = s := by
  induction s with
  | nil => exact cutAt_cons_self c r
  | cons x s ih =>
    rw [List.mem_cons, not_or] at hs
    rw [List.cons_append, cutAt_cons_of_ne (Ne.symm hs.1), ih hs.2]

theorem cutAt_of_notMem {c : UInt8} {s : CStr} (hs : c ∉ s) : cutAt c s = s :=
  List.takeWhile_eq_self_iff.mpr fun x hx => by simpa using ne_of_mem_of_not_mem hx hs

/-- `strncpy`: the text up to its NUL, at most `n` bytes, filled up with NULs. -/
def strncpy (n : ℕ) (src : List UInt8) : List UInt8 :=
  (cutAt 0 src).take n ++ List.replicate (n - (cutAt 0 src).length) 0

/-- `snprintf(buf, n, "%s", s)`: what is written to `buf`. -/
def snprintf (n : ℕ) (s : CStr) : List UInt8 := s.take (n - 1) ++ [0]

/-- The `n` low bytes of `v`, least significant first. -/
def leBytes : ℕ → ℕ → List UInt8
  | 0, _ => []
  | n + 1, v => UInt8.ofNat v :: leBytes n (v / 256)

/-- The number a little-endian byte sequence stands for. -/
def ofLeBytes : List UInt8 → ℕ
  | [] => 0
  | b :: bs => b.toNat + 256 * ofLeBytes bs

@[simp] theorem length_leBytes (n v : ℕ) : (leBytes n v).length = n := by
  induction n generalizing v with
  | zero => rfl
  | succ n ih => rw [leBytes, List.length_cons, ih]

/-- Reading back what was written gives the number, up to the width. -/
theorem ofLeBytes_leBytes (n v : ℕ) : ofLeBytes (leBytes n v) = v % 256 ^ n := by
  induction n generalizing v with
  | zero => simp [leBytes, ofLeBytes, Nat.mod_one]
  | succ n ih =>
    have hb : (UInt8.ofNat v).toNat = v % 256 := by simp
    rw [leBytes, ofLeBytes, ih, hb, Nat.pow_succ, Nat.mul_comm (256 ^ n) 256, Nat.mod_mul]

theorem ofLeBytes_lt (bs : List UInt8) : ofLeBytes bs < 256 ^ bs.length := by
  induction bs with
  | nil => simp [ofLeBytes]
  | cons b bs ih =>
    have hb : b.toNat < 256 := b.toNat_lt
    rw [ofLeBytes, List.length_cons, Nat.pow_succ]
    omega

/-- Writing what was read gives the bytes again. -/
theorem leBytes_ofLeBytes (bs : List UInt8) : leBytes bs.length (ofLeBytes bs) = bs := by
  induction bs with
  | nil => rfl
  | cons b bs ih =>
    have hb : b.toNat < 256 := b.toNat_lt
    have hdiv : (b.toNat + 256 * ofLeBytes bs) / 256 = ofLeBytes bs := by omega
    have hmod : UInt8.ofNat (b.toNat + 256 * ofLeBytes bs) = b := by
      rw [← UInt8.toNat_inj, UInt8.toNat_ofNat']
      omega
    rw [ofLeBytes, List.length_cons, leBytes, hdiv, hmod, ih]

/-- The conversion to `unsigned int`. -/
def u32 (z : ℤ) : ℕ := (z % 4294967296).toNat

/-- The bytes of an `int`. -/
def int32Bytes (v : Int32) : List UInt8 := leBytes 4 v.toBitVec.toNat

/-- The `int` that four bytes hold. -/
def int32OfBytes (bs : List UInt8) : Int32 := Int32.ofBitVec (BitVec.ofNat 32 (ofLeBytes bs))

/-- The bytes of an `int64_t`. -/
def int64Bytes (v : Int64) : List UInt8 := leBytes 8 v.toBitVec.toNat

/-- The `int64_t` that eight bytes hold. -/
def int64OfBytes (bs : List UInt8) : Int64 := Int64.ofBitVec (BitVec.ofNat 64 (ofLeBytes bs))

@[simp] theorem length_int32Bytes (v : Int32) : (int32Bytes v).length = 4 := length_leBytes _ _

@[simp] theorem length_int64Bytes (v : Int64) : (int64Bytes v).length = 8 := length_leBytes _ _

@[simp] theorem int32OfBytes_int32Bytes (v : Int32) : int32OfBytes (int32Bytes v) = v := by
  have hlt : v.toBitVec.toNat < 256 ^ 4 := v.toBitVec.isLt
  rw [int32OfBytes, int32Bytes, ofLeBytes_leBytes, Nat.mod_eq_of_lt hlt, BitVec.ofNat_toNat,
    BitVec.setWidth_eq, Int32.ofBitVec_toBitVec]

@[simp] theorem int64OfBytes_int64Bytes (v : Int64) : int64OfBytes (int64Bytes v) = v := by
  have hlt : v.toBitVec.toNat < 256 ^ 8 := v.toBitVec.isLt
  rw [int64OfBytes, int64Bytes, ofLeBytes_leBytes, Nat.mod_eq_of_lt hlt, BitVec.ofNat_toNat,
    BitVec.setWidth_eq, Int64.ofBitVec_toBitVec]

theorem int32Bytes_int32OfBytes {bs : List UInt8} (h : bs.length = 4) :
    int32Bytes (int32OfBytes bs) = bs := by
  have hlt : ofLeBytes bs < 2 ^ 32 := by simpa [h] using ofLeBytes_lt bs
  rw [int32Bytes, int32OfBytes, Int32.toBitVec_ofBitVec, BitVec.toNat_ofNat, Nat.mod_eq_of_lt hlt,
    ← h, leBytes_ofLeBytes]

theorem int64Bytes_int64OfBytes {bs : List UInt8} (h : bs.length = 8) :
    int64Bytes (int64OfBytes bs) = bs := by
  have hlt : ofLeBytes bs < 2 ^ 64 := by simpa [h] using ofLeBytes_lt bs
  rw [int64Bytes, int64OfBytes, Int64.toBitVec_ofBitVec, BitVec.toNat_ofNat, Nat.mod_eq_of_lt hlt,
    ← h, leBytes_ofLeBytes]

end PfsShell.Lib
