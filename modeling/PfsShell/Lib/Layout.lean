/-
# Structures in memory

A C structure is filled field by field, and what lies between the fields keeps what was there.
A field is its offset and its bytes; `store` writes a list of them, and `Laid` says that a memory
holds them.

* `laid_store`: fields that do not overlap are all there after the last one was written;
* `Laid.mono`: they are there in a copy of the memory.

A C string is read with `cText`: its bytes up to the first NUL, within a bound.
-/
import PfsShell.Lib.Bytes
import PfsShell.Lib.Tiling

namespace PfsShell.Lib

section Fields

variable {α : Type*}

/-! ## 1. Fields -/

/-- The memory after the fields are written, one after the other. -/
def store (d : ℕ → α) (fs : List (ℕ × List α)) : ℕ → α :=
  fs.foldl (fun d f => overlay d f.1 f.2) d

/-- The memory holds the fields. -/
def Laid (d : ℕ → α) (fs : List (ℕ × List α)) : Prop :=
  ∀ f ∈ fs, window d f.1 f.2.length = f.2

/-- The first field ends before the second begins. -/
def Before (f g : ℕ × List α) : Prop := f.1 + f.2.length ≤ g.1

variable {d e : ℕ → α} {fs : List (ℕ × List α)}

theorem store_cons (d : ℕ → α) (f : ℕ × List α) (fs : List (ℕ × List α)) :
    store d (f :: fs) = store (overlay d f.1 f.2) fs := rfl

/-- Fields behind a range leave it alone. -/
theorem window_store {a n : ℕ} {fs : List (ℕ × List α)} {d : ℕ → α}
    (h : ∀ f ∈ fs, a + n ≤ f.1) : window (store d fs) a n = window d a n := by
  induction fs generalizing d with
  | nil => rfl
  | cons f fs ih =>
    rw [store_cons, ih fun g hg => h g (List.mem_cons_of_mem _ hg),
      window_overlay_of_disjoint d (.inl (h f List.mem_cons_self))]

theorem window_overlay_self (d : ℕ → α) (a : ℕ) (data : List α) :
    window (overlay d a data) a data.length = data := by
  rw [window_overlay_take d a (Nat.le_refl _), List.take_length]

/-- **Fields that do not overlap are all there after the last one was written.** -/
theorem laid_store {fs : List (ℕ × List α)} (d : ℕ → α) (h : fs.Pairwise Before) :
    Laid (store d fs) fs := by
  induction fs generalizing d with
  | nil => exact fun _ hf => absurd hf List.not_mem_nil
  | cons f fs ih =>
    obtain ⟨hf, hrest⟩ := List.pairwise_cons.mp h
    intro g hg
    rcases List.mem_cons.mp hg with rfl | hg
    · rw [store_cons, window_store fun k hk => hf k hk, window_overlay_self]
    · rw [store_cons]
      exact ih _ hrest g hg

/-- They are there in another memory that agrees up to `n`. -/
theorem Laid.mono {n : ℕ} (h : Laid d fs) (hsame : ∀ i < n, e i = d i)
    (hn : ∀ f ∈ fs, f.1 + f.2.length ≤ n) : Laid e fs := by
  intro f hf
  have hle := hn f hf
  rw [window_congr (b := f.1) fun i hi => hsame (f.1 + i) (by omega), h f hf]

/-- The same write to memories that agree where it is read. -/
theorem window_overlay_congr {a b n : ℕ} {data : List α} (h : window d b n = window e b n) :
    window (overlay d a data) b n = window (overlay e a data) b n := by
  refine window_congr fun i hi => ?_
  by_cases hin : a ≤ b + i ∧ b + i - a < data.length
  · rw [overlay_of_mem hin.1 hin.2, overlay_of_mem hin.1 hin.2]
  · have hsame : d (b + i) = e (b + i) := by simpa [window, live, hi] using congrArg (·[i]?) h
    rw [overlay_of_notMem (by omega), overlay_of_notMem (by omega), hsame]

/-- Writing what is there changes nothing. -/
theorem overlay_eq_self {a : ℕ} {data : List α} (h : window d a data.length = data) :
    overlay d a data = d := by
  funext b
  by_cases hb : a ≤ b ∧ b - a < data.length
  · have hget : data[b - a]? = some (d b) := by
      rw [← h, window, live, List.getElem?_map, List.getElem?_range hb.2, Option.map_some]
      congr 2
      omega
    rw [overlay, if_pos hb.1, hget, Option.getD_some]
  · exact overlay_of_notMem (by omega)

/-- Two writes to different places can be exchanged. -/
theorem overlay_comm (d : ℕ → α) {a b : ℕ} {xs ys : List α} (h : a + xs.length ≤ b) :
    overlay (overlay d b ys) a xs = overlay (overlay d a xs) b ys := by
  funext c
  by_cases hc : c < b
  · rw [overlay_of_notMem (a := b) (.inl hc)]
    simp only [overlay, Nat.not_le.mpr hc, if_false]
  · rw [overlay_of_notMem (a := a) (by omega)]
    simp only [overlay]
    rw [List.getElem?_eq_none (l := xs) (by omega)]
    simp

end Fields

/-! ## 2. Texts -/

/-- The C string at `o`, in a memory of `n` bytes. -/
def cText (d : ℕ → UInt8) (o n : ℕ) : CStr := cutAt 0 (window d o (n - o))

section Texts

variable {d : ℕ → UInt8} {o n : ℕ} {s : CStr}

/-- A string with its NUL reads back. -/
theorem cText_of_window (h : window d o (s ++ [0]).length = s ++ [0]) (hs : 0 ∉ s)
    (hn : o + s.length < n) : cText d o n = s := by
  rw [List.length_append, List.length_singleton] at h
  have hsplit : n - o = (s.length + 1) + (n - o - (s.length + 1)) := by omega
  rw [cText, hsplit, window_add, h, List.append_assoc]
  exact cutAt_append_cons hs _

/-- What is written over a string and its NUL is the string now. -/
theorem cText_overlay (d : ℕ → UInt8) (hs : 0 ∉ s) (hn : o + s.length < n) :
    cText (overlay d o (s ++ [0])) o n = s :=
  cText_of_window (window_overlay_self d o (s ++ [0])) hs hn

end Texts

end PfsShell.Lib
