/-
# Arrays scanned by first match and closed up by shifting

A C table of fixed capacity is usually handled by two loops.  One walks up the indices until
a test succeeds,

    for (i = 0; i < n && !p(i); i += 1)
        ;

and leaves in `i` the first match, or `n` when there is none (`scan`).  The other removes an
entry by copying every later entry one place down (`shiftDown`).

The array itself is its memory, a function from the index.  What a table with a count holds
is the list of its first `n` cells (`live`); the two loops are specified on that list:
`scan` is the first match, and shifting down from a match is `List.eraseP`.
-/
import Mathlib.Data.List.Basic
import Mathlib.Logic.Function.Basic
import Mathlib.Order.Lattice
import Mathlib.Tactic.Common

namespace PfsShell.Lib

/-! ## 1. The first match -/

/-- The loop from index `i` with `n` indices left: it stops at the first match. -/
def scanFrom (p : ℕ → Prop) [DecidablePred p] : ℕ → ℕ → ℕ
  | i, 0 => i
  | i, n + 1 => if p i then i else scanFrom p (i + 1) n

/-- `for (i = 0; i < n && !p(i); i += 1);`, and the value it leaves in `i`. -/
def scan (p : ℕ → Prop) [DecidablePred p] (n : ℕ) : ℕ := scanFrom p 0 n

section Scan

variable {p q : ℕ → Prop} [DecidablePred p] [DecidablePred q]

theorem scanFrom_spec : ∀ n i : ℕ, i ≤ scanFrom p i n ∧ scanFrom p i n ≤ i + n ∧
    (∀ j, i ≤ j → j < scanFrom p i n → ¬ p j) ∧ (scanFrom p i n < i + n → p (scanFrom p i n))
  | 0, i => by
    refine ⟨Nat.le_refl _, Nat.le_refl _, fun j h1 h2 => ?_, fun h => ?_⟩
    · exact absurd h2 (Nat.not_lt.mpr h1)
    · exact absurd h (Nat.lt_irrefl _)
  | n + 1, i => by
    unfold scanFrom
    split
    · rename_i hp
      exact ⟨Nat.le_refl _, Nat.le_add_right _ _,
        fun j h1 h2 => absurd h2 (Nat.not_lt.mpr h1), fun _ => hp⟩
    · rename_i hp
      obtain ⟨h1, h2, h3, h4⟩ := scanFrom_spec n (i + 1)
      refine ⟨by omega, by omega, fun j hij hj => ?_, fun h => h4 (by omega)⟩
      rcases Nat.eq_or_lt_of_le hij with rfl | hlt
      · exact hp
      · exact h3 j hlt hj

theorem scan_le (n : ℕ) : scan p n ≤ n := by
  have h := (scanFrom_spec (p := p) n 0).2.1
  rwa [Nat.zero_add] at h

/-- No index before the one the loop stops at matches. -/
theorem not_of_lt_scan {n j : ℕ} (h : j < scan p n) : ¬ p j :=
  (scanFrom_spec (p := p) n 0).2.2.1 j (Nat.zero_le _) h

/-- When the loop stops before the end, it stops at a match. -/
theorem scan_holds {n : ℕ} (h : scan p n < n) : p (scan p n) :=
  (scanFrom_spec (p := p) n 0).2.2.2 (by rwa [Nat.zero_add])

/-- The loop runs to the end exactly when nothing matches. -/
theorem scan_lt_iff {n : ℕ} : scan p n < n ↔ ∃ i, i < n ∧ p i := by
  constructor
  · exact fun h => ⟨_, h, scan_holds h⟩
  · rintro ⟨i, hi, hp⟩
    rcases Nat.lt_or_ge (scan p n) n with h | h
    · exact h
    · exact absurd hp (not_of_lt_scan (Nat.lt_of_lt_of_le hi h))

theorem scan_eq_self_iff {n : ℕ} : scan p n = n ↔ ∀ i, i < n → ¬ p i := by
  have h := scan_lt_iff (p := p) (n := n)
  have hle := scan_le (p := p) n
  constructor
  · intro he i hi hp
    have := h.mpr ⟨i, hi, hp⟩
    omega
  · intro hn
    by_contra hne
    obtain ⟨i, hi, hp⟩ := h.mp (by omega)
    exact hn i hi hp

/-- The loop stops at `i` when `i` is the first match. -/
theorem scan_eq_of_first {n i : ℕ} (hi : i < n) (hp : p i) (hfirst : ∀ j, j < i → ¬ p j) :
    scan p n = i := by
  have hlt : scan p n < n := scan_lt_iff.mpr ⟨i, hi, hp⟩
  rcases Nat.lt_trichotomy (scan p n) i with h | h | h
  · exact absurd (scan_holds hlt) (hfirst _ h)
  · exact h
  · exact absurd hp (not_of_lt_scan h)

/-- Tests that agree on the table stop the loop at the same index. -/
theorem scan_congr {n : ℕ} (h : ∀ i, i < n → (p i ↔ q i)) : scan p n = scan q n := by
  by_cases hp : scan p n < n
  · refine (scan_eq_of_first hp ((h _ hp).mp (scan_holds hp)) fun j hj hq => ?_).symm
    exact not_of_lt_scan hj ((h j (by omega)).mpr hq)
  · have hp' : scan p n = n := Nat.le_antisymm (scan_le n) (Nat.not_lt.mp hp)
    rw [hp']
    refine (scan_eq_self_iff.mpr fun i hi hq => ?_).symm
    exact scan_eq_self_iff.mp hp' i hi ((h i hi).mpr hq)

/-- Looking for the end of the interval that `d` lies in: the loop stops at that interval. -/
theorem scan_between {α : Type*} [LinearOrder α] {f : ℕ → α} {d : α} {n : ℕ}
    (hp : ∀ k, p k ↔ d < f (k + 1)) (h0 : f 0 ≤ d) (hn : d < f n) :
    scan p n < n ∧ f (scan p n) ≤ d ∧ d < f (scan p n + 1) := by
  have hlt : scan p n < n := by
    cases n with
    | zero => exact absurd hn (not_lt.mpr h0)
    | succ m => exact scan_lt_iff.mpr ⟨m, Nat.lt_succ_self m, (hp m).mpr hn⟩
  refine ⟨hlt, ?_, (hp _).mp (scan_holds hlt)⟩
  cases hk : scan p n with
  | zero => exact h0
  | succ k =>
    have hnot : ¬ p k := not_of_lt_scan (by rw [hk]; exact Nat.lt_succ_self k)
    exact not_lt.mp fun h => hnot ((hp k).mpr h)

end Scan

/-! ## 2. The live part of an array, and removal by shifting -/

variable {α : Type*}

/-- The first `n` cells of an array, in order. -/
def live (a : ℕ → α) (n : ℕ) : List α := (List.range n).map a

@[simp] theorem live_zero (a : ℕ → α) : live a 0 = [] := rfl

@[simp] theorem length_live (a : ℕ → α) (n : ℕ) : (live a n).length = n := by
  simp [live]

theorem mem_live {a : ℕ → α} {n : ℕ} {x : α} : x ∈ live a n ↔ ∃ i, i < n ∧ a i = x := by
  simp [live]

theorem live_succ (a : ℕ → α) (n : ℕ) : live a (n + 1) = live a n ++ [a n] := by
  simp [live, List.range_succ]

theorem live_congr {a b : ℕ → α} {n : ℕ} (h : ∀ i, i < n → a i = b i) : live a n = live b n :=
  List.map_congr_left fun i hi => h i (List.mem_range.mp hi)

theorem live_sublist (a : ℕ → α) {m n : ℕ} (h : m ≤ n) : (live a m).Sublist (live a n) :=
  (List.range_sublist.mpr h).map a

/-- Writing the first free cell and counting it in appends. -/
theorem live_update_succ (a : ℕ → α) (n : ℕ) (x : α) :
    live (Function.update a n x) (n + 1) = live a n ++ [x] := by
  rw [live_succ, Function.update_self]
  congr 1
  exact live_congr fun i hi => Function.update_of_ne (Nat.ne_of_lt hi) x a

/-- `for (; k > 0; i += 1, k -= 1) a[i] = a[i + 1];` -/
def shiftDown (a : ℕ → α) : ℕ → ℕ → (ℕ → α)
  | _, 0 => a
  | i, k + 1 => shiftDown (Function.update a i (a (i + 1))) (i + 1) k

theorem shiftDown_apply : ∀ (k i : ℕ) (a : ℕ → α) (j : ℕ),
    shiftDown a i k j = if i ≤ j ∧ j < i + k then a (j + 1) else a j
  | 0, i, a, j => by
    rw [if_neg (by omega)]
    rfl
  | k + 1, i, a, j => by
    unfold shiftDown
    rw [shiftDown_apply k (i + 1)]
    by_cases h1 : i + 1 ≤ j ∧ j < i + 1 + k
    · rw [if_pos h1, if_pos (by omega), Function.update_of_ne (by omega)]
    · rw [if_neg h1]
      by_cases h2 : j = i
      · subst h2
        rw [if_pos (by omega), Function.update_self]
      · rw [if_neg (by omega), Function.update_of_ne h2]

/-- Shifting down onto cell `i` removes the `i`-th element. -/
theorem live_shiftDown {a : ℕ → α} {n i : ℕ} (hi : i < n) :
    live (shiftDown a i (n - 1 - i)) (n - 1) = (live a n).eraseIdx i := by
  apply List.ext_getElem
  · simp [List.length_eraseIdx, hi]
  · intro j h1 h2
    simp only [live, List.getElem_map, List.getElem_range, List.getElem_eraseIdx,
      shiftDown_apply]
    simp only [length_live] at h1
    by_cases hj : j < i
    · rw [if_neg (by omega), dif_pos hj]
    · rw [if_pos (by omega), dif_neg hj]

/-- Erasing the first match by its index is `List.eraseP`. -/
theorem eraseIdx_scan (p : α → Bool) (a : ℕ → α) (n : ℕ) :
    (live a n).eraseIdx (scan (fun i => p (a i) = true) n) = (live a n).eraseP p := by
  by_cases h : scan (fun i => p (a i) = true) n < n
  · rw [List.eraseP_eq_eraseIdx]
    have hfind : (live a n).findIdx? p = some (scan (fun i => p (a i) = true) n) := by
      rw [List.findIdx?_eq_some_iff_getElem]
      refine ⟨by simpa using h, ?_, fun j hj => ?_⟩
      · simpa [live] using scan_holds h
      · simpa [live] using not_of_lt_scan hj
    rw [hfind]
  · have hn : scan (fun i => p (a i) = true) n = n :=
      Nat.le_antisymm (scan_le n) (Nat.not_lt.mp h)
    rw [List.eraseIdx_of_length_le (by simp [hn]), List.eraseP_of_forall_not]
    intro x hx
    obtain ⟨i, hi, rfl⟩ := mem_live.mp hx
    exact scan_eq_self_iff.mp hn i hi

end PfsShell.Lib
