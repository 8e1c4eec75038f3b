/-
# Memory in windows, and memory in tiles

A store is a function from addresses to values.  `window` reads a range of it and `overlay`
writes one; `access` is either of them, with what it leaves in the caller's buffer.

A tiling makes one contiguous space of ranges that lie anywhere in a store: tile `i` is the
range of `len i` addresses from `base i` on, and the tiles follow one another in the order of
their indices.  `addr` is where an address of the contiguous space lies, `view` the space as a
store of its own.

* `access_view`: as long as an access stays in one tile, reading and writing there is reading
  and writing the view;
* `addr_injOn`: when the tiles do not overlap, neither do the places of different addresses.
-/
import Mathlib.Algebra.BigOperators.Group.Finset.Basic
import Mathlib.Algebra.Order.BigOperators.Group.Finset
import PfsShell.Lib.Scan

namespace PfsShell.Lib

variable {α : Type*}

/-! ## 1. Windows -/

/-- The `n` values from address `a` on. -/
def window (d : ℕ → α) (a n : ℕ) : List α := live (fun i => d (a + i)) n

/-- The store after `data` is written from address `a` on. -/
def overlay (d : ℕ → α) (a : ℕ) (data : List α) (b : ℕ) : α :=
  if a ≤ b then data[b - a]?.getD (d b) else d b

@[simp] theorem length_window (d : ℕ → α) (a n : ℕ) : (window d a n).length = n :=
  length_live _ _

@[simp] theorem window_zero (d : ℕ → α) (a : ℕ) : window d a 0 = [] := rfl

theorem window_add (d : ℕ → α) (a m n : ℕ) :
    window d a (m + n) = window d a m ++ window d (a + m) n := by
  induction n with
  | zero => simp [window]
  | succ n ih =>
    rw [window, ← Nat.add_assoc, live_succ]
    have hm : live (fun i => d (a + i)) (m + n) = window d a (m + n) := rfl
    rw [hm, ih, List.append_assoc]
    congr 1
    rw [window, window, live_succ, Nat.add_assoc]

theorem window_congr {d e : ℕ → α} {a b n : ℕ} (h : ∀ i, i < n → d (a + i) = e (b + i)) :
    window d a n = window e b n :=
  live_congr h

theorem overlay_of_mem {d : ℕ → α} {a b : ℕ} {data : List α} (hab : a ≤ b)
    (hb : b - a < data.length) : overlay d a data b = data[b - a] := by
  rw [overlay, if_pos hab, List.getElem?_eq_getElem hb, Option.getD_some]

/-- What is not written stays. -/
theorem overlay_of_notMem {d : ℕ → α} {a b : ℕ} {data : List α}
    (h : b < a ∨ a + data.length ≤ b) : overlay d a data b = d b := by
  unfold overlay
  split
  · rw [List.getElem?_eq_none (by omega), Option.getD_none]
  · rfl

@[simp] theorem overlay_nil (d : ℕ → α) (a : ℕ) : overlay d a [] = d :=
  funext fun b => overlay_of_notMem (by simpa using Nat.lt_or_ge b a)

theorem overlay_append (d : ℕ → α) (a : ℕ) (xs ys : List α) :
    overlay d a (xs ++ ys) = overlay (overlay d a xs) (a + xs.length) ys := by
  funext b
  by_cases hx : a ≤ b ∧ b - a < xs.length
  · rw [overlay_of_notMem (a := a + xs.length) (by omega), overlay_of_mem hx.1 hx.2,
      overlay_of_mem hx.1 (by rw [List.length_append]; omega), List.getElem_append_left hx.2]
  · by_cases hy : a + xs.length ≤ b ∧ b - (a + xs.length) < ys.length
    · rw [overlay_of_mem (by omega) (by rw [List.length_append]; omega),
        overlay_of_mem hy.1 hy.2, List.getElem_append_right (by omega)]
      congr 1
      omega
    · rw [overlay_of_notMem (by rw [List.length_append]; omega),
        overlay_of_notMem (a := a + xs.length) (by omega), overlay_of_notMem (by omega)]

/-- Reading where nothing was written. -/
theorem window_overlay_of_disjoint (d : ℕ → α) {a b n : ℕ} {data : List α}
    (h : b + n ≤ a ∨ a + data.length ≤ b) : window (overlay d a data) b n = window d b n :=
  window_congr fun i hi => overlay_of_notMem (by omega)

/-- Reading from where something was written on. -/
theorem window_overlay (d : ℕ → α) (a : ℕ) {n : ℕ} {data : List α} (h : data.length ≤ n) :
    window (overlay d a data) a n = data ++ window d (a + data.length) (n - data.length) := by
  have hdata : window (overlay d a data) a data.length = data := by
    refine List.ext_getElem (length_window _ _ _) fun i h1 h2 => ?_
    have hi : overlay d a data (a + i) = data[i] := by
      rw [overlay_of_mem (Nat.le_add_right a i) (by omega)]
      simp only [Nat.add_sub_cancel_left]
    simpa only [window, live, List.getElem_map, List.getElem_range] using hi
  obtain ⟨k, rfl⟩ := Nat.exists_eq_add_of_le h
  rw [window_add, Nat.add_sub_cancel_left, hdata,
    window_overlay_of_disjoint d (Or.inr (Nat.le_refl _))]

/-- A part of what was read. -/
theorem take_drop_window (d : ℕ → α) (a : ℕ) {k m n : ℕ} (h : k + m ≤ n) :
    ((window d a n).drop k).take m = window d (a + k) m := by
  obtain ⟨r, rfl⟩ := Nat.exists_eq_add_of_le h
  rw [window_add, window_add, List.append_assoc, List.drop_left' (length_window _ _ _),
    List.take_left' (length_window _ _ _)]

/-- Reading the first part of what was written. -/
theorem window_overlay_take (d : ℕ → α) (a : ℕ) {n : ℕ} {data : List α} (h : n ≤ data.length) :
    window (overlay d a data) a n = data.take n := by
  have hdata := window_overlay d a (Nat.le_refl data.length)
  rw [Nat.sub_self, window_zero, List.append_nil] at hdata
  have htake := take_drop_window (overlay d a data) a (k := 0) (m := n) (n := data.length)
    (by rwa [Nat.zero_add])
  rw [hdata, List.drop_zero, Nat.add_zero] at htake
  exact htake.symm

/-- A transfer between `buffer` and the store at `a`: what is in the buffer afterwards, and the
store. -/
def access (write : Bool) (d : ℕ → α) (a : ℕ) (buffer : List α) : List α × (ℕ → α) :=
  if write then (buffer, overlay d a buffer) else (window d a buffer.length, d)

@[simp] theorem access_nil (write : Bool) (d : ℕ → α) (a : ℕ) :
    access write d a [] = ([], d) := by
  cases write <;> simp [access, window]

/-- A transfer is the transfer of its first part and then of the rest. -/
theorem access_append (write : Bool) (d : ℕ → α) (a : ℕ) (xs ys : List α) :
    access write d a (xs ++ ys) =
      ((access write d a xs).1 ++
          (access write (access write d a xs).2 (a + xs.length) ys).1,
        (access write (access write d a xs).2 (a + xs.length) ys).2) := by
  cases write with
  | false => simp [access, window_add]
  | true => simp [access, overlay_append]

/-- A transfer below `n` reads and writes the store below `n` only. -/
theorem access_congr {d e : ℕ → α} {n : ℕ} (h : ∀ b, b < n → d b = e b) (write : Bool) {a : ℕ}
    {buffer : List α} (hn : a + buffer.length ≤ n) :
    (access write d a buffer).1 = (access write e a buffer).1 ∧
      ∀ b, b < n → (access write d a buffer).2 b = (access write e a buffer).2 b := by
  cases write with
  | false => exact ⟨window_congr fun i hi => h _ (by omega), h⟩
  | true =>
    refine ⟨rfl, fun b hb => ?_⟩
    simp only [access, if_true, overlay, h b hb]

/-! ## 2. Tiles -/

/-- `count` tiles, tile `i` being the `len i` addresses from `base i` on. -/
structure Tiling where
  count : ℕ
  base : ℕ → ℕ
  len : ℕ → ℕ

namespace Tiling

variable {t : Tiling} {i j b c : ℕ}

/-- Where tile `i` starts in the contiguous space. -/
def start (t : Tiling) (i : ℕ) : ℕ := ∑ j ∈ Finset.range i, t.len j

/-- The size of the contiguous space. -/
def total (t : Tiling) : ℕ := t.start t.count

/-- The tile address `b` belongs to. -/
def tileOf (t : Tiling) (b : ℕ) : ℕ := scan (fun i => b < t.start (i + 1)) t.count

/-- The place of address `b` in the store. -/
def addr (t : Tiling) (b : ℕ) : ℕ := t.base (t.tileOf b) + (b - t.start (t.tileOf b))

/-- The contiguous space, as a store. -/
def view (t : Tiling) (d : ℕ → α) (b : ℕ) : α := d (t.addr b)

/-- No two tiles overlap. -/
def Disjoint (t : Tiling) : Prop :=
  ∀ i j, i < t.count → j < t.count → i ≠ j →
    t.base i + t.len i ≤ t.base j ∨ t.base j + t.len j ≤ t.base i

@[simp] theorem start_zero (t : Tiling) : t.start 0 = 0 := rfl

theorem start_succ (t : Tiling) (i : ℕ) : t.start (i + 1) = t.start i + t.len i :=
  Finset.sum_range_succ _ _

theorem start_mono (t : Tiling) (h : i ≤ j) : t.start i ≤ t.start j :=
  Finset.sum_le_sum_of_subset (Finset.range_subset_range.mpr h)

theorem start_le_total (h : i ≤ t.count) : t.start i ≤ t.total := t.start_mono h

/-- An address belongs to the tile whose range it is in. -/
theorem tileOf_eq (hi : i < t.count) (hle : t.start i ≤ b) (hlt : b < t.start (i + 1)) :
    t.tileOf b = i := by
  refine scan_eq_of_first hi hlt fun j hj hb => ?_
  have hmono : t.start (j + 1) ≤ t.start i := t.start_mono hj
  omega

theorem tileOf_spec (h : b < t.total) :
    t.tileOf b < t.count ∧ t.start (t.tileOf b) ≤ b ∧ b < t.start (t.tileOf b + 1) := by
  have hpos : 0 < t.count := by
    by_contra hc
    have hzero : t.count = 0 := Nat.eq_zero_of_not_pos hc
    rw [total, hzero, start_zero] at h
    omega
  have hlast : t.count - 1 + 1 = t.count := Nat.sub_add_cancel hpos
  have hlt : t.tileOf b < t.count :=
    scan_lt_iff.mpr ⟨t.count - 1, Nat.sub_lt hpos Nat.one_pos, by rw [hlast]; exact h⟩
  refine ⟨hlt, ?_, scan_holds (p := fun i => b < t.start (i + 1)) hlt⟩
  cases hk : t.tileOf b with
  | zero => exact Nat.zero_le _
  | succ k =>
    have hnot : ¬ b < t.start (k + 1) :=
      not_of_lt_scan (p := fun i => b < t.start (i + 1)) (n := t.count)
        (by rw [← tileOf, hk]; exact Nat.lt_succ_self k)
    exact Nat.not_lt.mp hnot

theorem addr_eq (hi : i < t.count) (hle : t.start i ≤ b) (hlt : b < t.start (i + 1)) :
    t.addr b = t.base i + (b - t.start i) := by
  rw [addr, tileOf_eq hi hle hlt]

/-- An address lies in its tile. -/
theorem addr_mem (h : b < t.total) :
    t.base (t.tileOf b) ≤ t.addr b ∧ t.addr b < t.base (t.tileOf b) + t.len (t.tileOf b) := by
  obtain ⟨-, hle, hlt⟩ := tileOf_spec h
  rw [start_succ] at hlt
  rw [addr]
  omega

/-- **Different addresses have different places.** -/
theorem addr_injOn (hd : t.Disjoint) (hb : b < t.total) (hc : c < t.total)
    (h : t.addr b = t.addr c) : b = c := by
  have hbm := addr_mem hb
  have hcm := addr_mem hc
  obtain ⟨hbi, hble, -⟩ := tileOf_spec hb
  obtain ⟨hci, hcle, -⟩ := tileOf_spec hc
  have htile : t.tileOf b = t.tileOf c := by
    by_contra hne
    have := hd _ _ hbi hci hne
    omega
  rw [addr, addr, htile] at h
  rw [htile] at hble
  omega

/-! ## 3. An access inside one tile -/

/-- The place of `b`, and of the `n` addresses from there, when they are all in tile `i`. -/
theorem addr_add (hi : i < t.count) (hle : t.start i ≤ b) (hlt : b + j < t.start (i + 1)) :
    t.addr (b + j) = t.base i + (b - t.start i) + j := by
  rw [addr_eq hi (by omega) hlt]
  omega

theorem window_view (d : ℕ → α) {n : ℕ} (hi : i < t.count) (hle : t.start i ≤ b)
    (hn : b + n ≤ t.start (i + 1)) :
    window d (t.base i + (b - t.start i)) n = window (t.view d) b n := by
  refine window_congr fun k hk => ?_
  rw [view, addr_add hi hle (by omega)]

/-- **Writing inside a tile writes the view there**, and nothing else of it. -/
theorem view_overlay (hd : t.Disjoint) (d : ℕ → α) {data : List α} (hi : i < t.count)
    (hle : t.start i ≤ b) (hn : b + data.length ≤ t.start (i + 1)) (hc : c < t.total) :
    t.view (overlay d (t.base i + (b - t.start i)) data) c = overlay (t.view d) b data c := by
  by_cases hmem : b ≤ c ∧ c < b + data.length
  · have hplace : t.addr c = t.base i + (b - t.start i) + (c - b) := by
      have hadd := addr_add (t := t) (j := c - b) hi hle (by omega)
      rwa [Nat.add_sub_cancel' hmem.1] at hadd
    have hsub : t.addr c - (t.base i + (b - t.start i)) = c - b := by omega
    rw [view, overlay_of_mem (by omega) (by omega), overlay_of_mem hmem.1 (by omega)]
    simp only [hsub]
  · rw [overlay_of_notMem (a := b) (by omega), view, view]
    refine overlay_of_notMem ?_
    -- the place of `c` is not one of those written, which are places of other addresses
    by_contra hin
    obtain ⟨k, hk⟩ : ∃ k, t.addr c = t.base i + (b - t.start i) + k :=
      ⟨t.addr c - (t.base i + (b - t.start i)), by omega⟩
    have hlt : b + k < t.start (i + 1) := by omega
    have hplace : t.addr c = t.addr (b + k) := by rw [hk, addr_add hi hle hlt]
    have := addr_injOn hd hc (Nat.lt_of_lt_of_le hlt (start_le_total hi)) hplace
    omega

/-- Writing inside a tile leaves what is outside the places of the addresses written. -/
theorem overlay_of_ne_addr (d : ℕ → α) {data : List α} (hi : i < t.count) (hle : t.start i ≤ b)
    (hn : b + data.length ≤ t.start (i + 1)) {a : ℕ}
    (ha : ∀ c, b ≤ c → c < b + data.length → t.addr c ≠ a) :
    overlay d (t.base i + (b - t.start i)) data a = d a := by
  refine overlay_of_notMem ?_
  by_contra hin
  have hadd := addr_add (t := t) (j := a - (t.base i + (b - t.start i))) hi hle (by omega)
  exact ha (b + (a - (t.base i + (b - t.start i)))) (by omega) (by omega) (by omega)

/-- **An access inside a tile is an access to the view.** -/
theorem access_view (hd : t.Disjoint) (write : Bool) (d : ℕ → α) {buffer : List α}
    (hi : i < t.count) (hle : t.start i ≤ b) (hn : b + buffer.length ≤ t.start (i + 1)) :
    (access write d (t.base i + (b - t.start i)) buffer).1 =
        (access write (t.view d) b buffer).1 ∧
      ∀ c, c < t.total → t.view (access write d (t.base i + (b - t.start i)) buffer).2 c =
        (access write (t.view d) b buffer).2 c := by
  cases write with
  | false => exact ⟨window_view d hi hle hn, fun _ _ => rfl⟩
  | true => exact ⟨rfl, fun c hc => view_overlay hd d hi hle hn hc⟩

/-- An access inside a tile leaves what is outside the places of its addresses. -/
theorem access_of_ne_addr (write : Bool) (d : ℕ → α) {buffer : List α} (hi : i < t.count)
    (hle : t.start i ≤ b) (hn : b + buffer.length ≤ t.start (i + 1)) {a : ℕ}
    (ha : ∀ c, b ≤ c → c < b + buffer.length → t.addr c ≠ a) :
    (access write d (t.base i + (b - t.start i)) buffer).2 a = d a := by
  cases write with
  | false => rfl
  | true => exact overlay_of_ne_addr d hi hle hn ha

end Tiling

end PfsShell.Lib
