/-
# Octal numbers as text

`printf` writes an unsigned number with `"%.*o"` (`octal`), and `strtol` with base 8 reads one
back (`strtol8`).  A precision of `p` digits is a minimum: a number that needs more digits gets
more.  Below `8 ^ p` the text has exactly `p` digits, and reading it gives the number.
-/
import Mathlib.Data.Nat.Digits.Lemmas
import PfsShell.Lib.Bytes

namespace PfsShell.Lib

/-! ## 1. Writing -/

/-- The last `k` octal digits of `n`. -/
def octalDigits : ℕ → ℕ → CStr
  | 0, _ => []
  | k + 1, n => octalDigits k (n / 8) ++ [UInt8.ofNat (48 + n % 8)]

/-- `sprintf("%.*o", p, n)`. -/
def octal (p n : ℕ) : CStr := octalDigits (max p (Nat.digits 8 n).length) n

/-- The test for an octal digit. -/
def isOctal (c : UInt8) : Bool := 48 ≤ c && c ≤ 55

@[simp] theorem length_octalDigits (k n : ℕ) : (octalDigits k n).length = k := by
  induction k generalizing n with
  | zero => rfl
  | succ k ih => rw [octalDigits, List.length_append, ih, List.length_singleton]

theorem octal_eq {p n : ℕ} (h : n < 8 ^ p) : octal p n = octalDigits p n := by
  have hlen : (Nat.digits 8 n).length ≤ p := (Nat.digits_length_le_iff (by omega) n).mpr h
  rw [octal, Nat.max_eq_left hlen]

/-- The first digit, and the others. -/
theorem octalDigits_eq_cons (k n : ℕ) :
    octalDigits (k + 1) n = UInt8.ofNat (48 + n / 8 ^ k % 8) :: octalDigits k n := by
  induction k generalizing n with
  | zero => rw [octalDigits, octalDigits, octalDigits, pow_zero, Nat.div_one, List.nil_append]
  | succ k ih =>
    rw [octalDigits, ih, List.cons_append, octalDigits, Nat.div_div_eq_div_mul,
      Nat.pow_succ']

/-- A digit is written as an octal digit, and has its value. -/
theorem isOctal_digit (n : ℕ) : isOctal (UInt8.ofNat (48 + n % 8)) = true ∧
    (UInt8.ofNat (48 + n % 8)).toNat = 48 + n % 8 := by
  have hdigit : ∀ d, d < 8 → isOctal (UInt8.ofNat (48 + d)) = true ∧
      (UInt8.ofNat (48 + d)).toNat = 48 + d := by decide
  exact hdigit _ (Nat.mod_lt _ (by omega))

theorem isOctal_of_mem {k n : ℕ} {c : UInt8} (h : c ∈ octalDigits k n) : isOctal c = true := by
  induction k generalizing n with
  | zero => exact absurd h List.not_mem_nil
  | succ k ih =>
    rcases List.mem_append.mp h with h | h
    · exact ih h
    · rw [List.mem_singleton.mp h]
      exact (isOctal_digit n).1

theorem zero_notMem_octalDigits (k n : ℕ) : (0 : UInt8) ∉ octalDigits k n :=
  fun h => absurd (isOctal_of_mem h) (by decide)

/-! ## 2. Reading -/

/-- The white space `strtol` skips. -/
def isSpace (c : UInt8) : Bool := c = 32 || 9 ≤ c && c ≤ 13

/-- The value of the octal digits at the start of a text, on top of those read so far. -/
def readOctal : ℕ → CStr → ℕ
  | acc, [] => acc
  | acc, c :: s => if isOctal c then readOctal (acc * 8 + (c.toNat - 48)) s else acc

/-- `strtol(s, NULL, 8)`, for a text too short to overflow a `long`: white space, a sign, and
the digits up to the first character that is none. -/
def strtol8 (s : CStr) : ℤ :=
  let t := s.dropWhile isSpace
  if t.head? = some 45 then -(readOctal 0 t.tail : ℤ)
  else if t.head? = some 43 then readOctal 0 t.tail
  else readOctal 0 t

theorem readOctal_append {s : CStr} (hs : ∀ c ∈ s, isOctal c = true) (t : CStr) :
    ∀ acc, readOctal acc (s ++ t) = readOctal (readOctal acc s) t := by
  induction s with
  | nil => exact fun acc => rfl
  | cons c s ih =>
    intro acc
    have hc : isOctal c = true := hs c List.mem_cons_self
    have hrest : ∀ c ∈ s, isOctal c = true := fun d hd => hs d (List.mem_cons_of_mem _ hd)
    rw [List.cons_append, readOctal, if_pos hc, readOctal, if_pos hc, ih hrest]

theorem readOctal_octalDigits (k n acc : ℕ) :
    readOctal acc (octalDigits k n) = acc * 8 ^ k + n % 8 ^ k := by
  induction k generalizing n with
  | zero => simp [octalDigits, readOctal, Nat.mod_one]
  | succ k ih =>
    obtain ⟨hoct, hval⟩ := isOctal_digit n
    have hmod : n % 8 ^ (k + 1) = n % 8 + 8 * (n / 8 % 8 ^ k) := by
      rw [Nat.pow_succ, Nat.mul_comm, Nat.mod_mul]
    rw [octalDigits, readOctal_append (fun c => isOctal_of_mem), ih, readOctal, if_pos hoct,
      readOctal, hval, hmod, Nat.pow_succ]
    ring_nf
    omega

/-- **Reading back the digits of a number gives the number**, up to the width. -/
theorem strtol8_octalDigits {k : ℕ} (hk : 0 < k) (n : ℕ) :
    strtol8 (octalDigits k n) = ((n % 8 ^ k : ℕ) : ℤ) := by
  obtain ⟨c, s, hcs⟩ : ∃ c s, octalDigits k n = c :: s := by
    cases h : octalDigits k n with
    | nil =>
      have hlen := length_octalDigits k n
      rw [h, List.length_nil] at hlen
      omega
    | cons c s => exact ⟨c, s, rfl⟩
  have hc : isOctal c = true := isOctal_of_mem (k := k) (n := n) (by rw [hcs]; simp)
  -- a digit is neither white space nor a sign
  have hplain : isSpace c = false ∧ c ≠ 45 ∧ c ≠ 43 := by
    simp only [isOctal, isSpace, Bool.and_eq_true, decide_eq_true_eq, UInt8.le_iff_toNat_le,
      Bool.or_eq_false_iff, Bool.and_eq_false_iff, decide_eq_false_iff_not, ne_eq,
      ← UInt8.toNat_inj] at hc ⊢
    have h48 : (48 : UInt8).toNat = 48 := rfl
    have h55 : (55 : UInt8).toNat = 55 := rfl
    have h32 : (32 : UInt8).toNat = 32 := rfl
    have h13 : (13 : UInt8).toNat = 13 := rfl
    have h45 : (45 : UInt8).toNat = 45 := rfl
    have h43 : (43 : UInt8).toNat = 43 := rfl
    omega
  have hdrop : (octalDigits k n).dropWhile isSpace = octalDigits k n := by
    rw [hcs, List.dropWhile_cons_of_neg (by simp [hplain.1])]
  have hread := readOctal_octalDigits k n 0
  rw [Nat.zero_mul, Nat.zero_add] at hread
  simp only [strtol8, hdrop]
  rw [if_neg (by simp [hcs, hplain.2.1]), if_neg (by simp [hcs, hplain.2.2]), hread]

end PfsShell.Lib
