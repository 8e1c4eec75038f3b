/-
# Buffers with identities

Memory is a set of buffers, each with an identity and its bytes; a pointer is the identity of a
buffer and an index.  A store through a pointer has no result when the buffer is not there or the
index is not below its size.

An allocation takes a number that was never used; whether it succeeds is `grants` of that number.
`realloc` always moves: the buffer it returns is a new one, and the old one is gone.

`free` of a buffer that is not there has no result either.

* `store_eq`, `store_gone`, `store_outside`: when a store has a result, and which;
* `Fresh`: no buffer has a number that is still to come, before and after an allocation.
-/
import Mathlib.Logic.Function.Basic
import Mathlib.Tactic.Common
import Mathlib.Data.Nat.Notation

namespace PfsShell.Lib

/-- A buffer and an index in it. -/
structure Ptr where
  block : ℕ
  index : ℕ
  deriving DecidableEq

/-- The buffers that are there, the number of the next allocation, which of them succeed, and what
new memory holds. -/
structure Heap (α : Type*) where
  blocks : ℕ → Option (List α)
  next : ℕ
  grants : ℕ → Bool
  fill : α

namespace Heap

variable {α : Type*}

/-- `*p = v`. -/
def store (h : Heap α) (p : Ptr) (v : α) : Option (Heap α) :=
  match h.blocks p.block with
  | some bytes =>
    if p.index < bytes.length then
      some { h with blocks := Function.update h.blocks p.block (some (bytes.set p.index v)) }
    else none
  | none => none

/-- `malloc`. -/
def malloc (h : Heap α) (size : ℕ) : Option ℕ × Heap α :=
  if h.grants h.next then
    (some h.next,
      { h with
        blocks := Function.update h.blocks h.next (some (List.replicate size h.fill))
        next := h.next + 1 })
  else (none, { h with next := h.next + 1 })

/-- `realloc` of buffer `b`. -/
def realloc (h : Heap α) (b size : ℕ) : Option ℕ × Heap α :=
  if h.grants h.next then
    let old := (h.blocks b).getD []
    (some h.next,
      { h with
        blocks := Function.update (Function.update h.blocks b none) h.next
          (some (old.take size ++ List.replicate (size - old.length) h.fill))
        next := h.next + 1 })
  else (none, { h with next := h.next + 1 })

/-- `free` of buffer `b`. -/
def free (h : Heap α) (b : ℕ) : Option (Heap α) :=
  match h.blocks b with
  | some _ => some { h with blocks := Function.update h.blocks b none }
  | none => none

/-- No buffer has the number of an allocation that is still to come. -/
def Fresh (h : Heap α) : Prop := ∀ b, h.next ≤ b → h.blocks b = none

/-- The sizes of the buffers that `h` has are those in `h'`. -/
def SizesKept (h h' : Heap α) : Prop :=
  ∀ b bytes, h.blocks b = some bytes → ∃ bytes', h'.blocks b = some bytes' ∧
    bytes'.length = bytes.length

variable {h h' h'' : Heap α} {b size : ℕ} {bytes : List α} {p : Ptr} {v : α}

theorem SizesKept.refl (h : Heap α) : h.SizesKept h := fun _ bytes hb => ⟨bytes, hb, rfl⟩

theorem SizesKept.trans (h₁ : h.SizesKept h') (h₂ : h'.SizesKept h'') : h.SizesKept h'' := by
  intro b bytes hb
  obtain ⟨bytes', hb', hlen⟩ := h₁ b bytes hb
  obtain ⟨bytes'', hb'', hlen'⟩ := h₂ b bytes' hb'
  exact ⟨bytes'', hb'', hlen'.trans hlen⟩

theorem Fresh.lt (hf : h.Fresh) (hb : h.blocks b = some bytes) : b < h.next := by
  by_contra hle
  rw [hf b (Nat.le_of_not_lt hle)] at hb
  cases hb

/-! ## 1. Stores -/

/-- A store into a buffer. -/
theorem store_eq (hb : h.blocks p.block = some bytes) (hi : p.index < bytes.length) :
    h.store p v =
      some { h with blocks := Function.update h.blocks p.block (some (bytes.set p.index v)) } := by
  simp only [store, hb, if_pos hi]

theorem store_gone (hb : h.blocks p.block = none) : h.store p v = none := by
  simp only [store, hb]

theorem store_outside (hb : h.blocks p.block = some bytes) (hi : bytes.length ≤ p.index) :
    h.store p v = none := by
  simp only [store, hb, if_neg (Nat.not_lt.mpr hi)]

/-- **A store** keeps the buffers and their sizes, and what is known of the allocations. -/
theorem store_keeps (hs : h.store p v = some h') :
    h.SizesKept h' ∧ h'.next = h.next ∧ h'.grants = h.grants ∧ (h.Fresh → h'.Fresh) := by
  unfold store at hs
  split at hs
  · rename_i bytes hb
    split at hs
    · obtain rfl := Option.some.inj hs
      refine ⟨fun c cs hc => ?_, rfl, rfl, fun hf c hc => ?_⟩
      · by_cases hcb : c = p.block
        · rw [hcb, hb] at hc
          obtain rfl := Option.some.inj hc
          exact ⟨_, by rw [hcb]; exact Function.update_self _ _ _, List.length_set⟩
        · exact ⟨cs, by rw [← hc]; exact Function.update_of_ne hcb _ _, rfl⟩
      · have hlt : p.block < h.next := hf.lt hb
        have hle : h.next ≤ c := hc
        exact (Function.update_of_ne (by omega) _ _).trans (hf c hle)
    · cases hs
  · cases hs

/-! ## 2. Allocations -/

/-- **An allocation that succeeds**: a new buffer. -/
theorem malloc_granted (size : ℕ) (hf : h.Fresh) (hg : h.grants h.next = true) :
    ∃ h', h.malloc size = (some h.next, h') ∧
      h'.blocks h.next = some (List.replicate size h.fill) ∧ h.SizesKept h' ∧ h'.Fresh ∧
      h'.next = h.next + 1 ∧ h'.grants = h.grants := by
  refine ⟨_, if_pos hg, Function.update_self _ _ _, fun b bytes hb => ?_,
    fun b hle => ?_, rfl, rfl⟩
  · have hlt := hf.lt hb
    exact ⟨bytes, by rw [← hb]; exact Function.update_of_ne (by omega) _ _, rfl⟩
  · have hlt : h.next + 1 ≤ b := hle
    exact (Function.update_of_ne (by omega) _ _).trans (hf b (by omega))

theorem malloc_refused (hg : h.grants h.next = false) :
    h.malloc size = (none, { h with next := h.next + 1 }) := by
  rw [malloc, if_neg (by rw [hg]; exact Bool.false_ne_true)]

theorem realloc_refused (hg : h.grants h.next = false) :
    h.realloc b size = (none, { h with next := h.next + 1 }) := by
  rw [realloc, if_neg (by rw [hg]; exact Bool.false_ne_true)]

/-- The next number is refused, and nothing else happens. -/
theorem Fresh.skip (hf : h.Fresh) : Fresh { h with next := h.next + 1 } :=
  fun b hb => hf b (Nat.le_of_succ_le hb)

/-- **A `realloc` that succeeds** takes the old buffer away. -/
theorem realloc_granted (hf : h.Fresh) (hb : h.blocks b = some bytes)
    (hg : h.grants h.next = true) :
    ∃ h', h.realloc b size = (some h.next, h') ∧ h'.blocks b = none := by
  have hlt := hf.lt hb
  refine ⟨_, if_pos hg, ?_⟩
  exact (Function.update_of_ne (by omega) _ _).trans (Function.update_self _ _ _)

/-! ## 3. The end of a buffer -/

theorem free_eq (hb : h.blocks b = some bytes) :
    h.free b = some { h with blocks := Function.update h.blocks b none } := by
  simp only [free, hb]

theorem Fresh.free (hf : h.Fresh) : Fresh { h with blocks := Function.update h.blocks b none } := by
  intro c hc
  by_cases hcb : c = b
  · subst hcb
    exact Function.update_self ..
  · exact (Function.update_of_ne hcb ..).trans (hf c hc)

end Heap

end PfsShell.Lib
