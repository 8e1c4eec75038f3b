/-
# Mutual exclusion by one semaphore

Processes that take a binary semaphore on the way into a section and give it back on the way
out.  `inside` says which of them are in the section, `free` whether the semaphore can be taken.

`Mutex` is the invariant: at most one is inside, and none while the semaphore is free.  It is
kept by entering (`Mutex.enter`), by leaving (`Mutex.leave`) and by whatever else happens to the
processes (`Mutex.mono`).
-/
import Mathlib.Tactic.Common

namespace PfsShell.Lib

variable {ι : Type*} {free : Bool} {inside inside' : ι → Prop}

/-- At most one process is inside, and none while the semaphore is free. -/
structure Mutex (free : Bool) (inside : ι → Prop) : Prop where
  excl : ∀ i j, inside i → inside j → i = j
  nobody : free = true → ∀ i, ¬ inside i

theorem mutex_start (h : ∀ i, ¬ inside i) : Mutex free inside where
  excl i _ hi _ := absurd hi (h i)
  nobody _ := h

/-- Nobody has come in. -/
theorem Mutex.mono (h : Mutex free inside) (hin : ∀ i, inside' i → inside i) :
    Mutex free inside' where
  excl i j hi hj := h.excl i j (hin i hi) (hin j hj)
  nobody hfree i hi := h.nobody hfree i (hin i hi)

/-- One process takes the semaphore. -/
theorem Mutex.enter (h : Mutex true inside) {i : ι} (hin : ∀ j, j ≠ i → inside' j → inside j) :
    Mutex false inside' where
  excl j k hj hk := by
    have hnobody : ∀ j, inside' j → j = i := by
      intro j hj
      by_contra hne
      exact h.nobody rfl j (hin j hne hj)
    rw [hnobody j hj, hnobody k hk]
  nobody hfree := absurd hfree Bool.false_ne_true

/-- The process inside gives the semaphore back. -/
theorem Mutex.leave (h : Mutex free inside) {i : ι} (hi : inside i) (hout : ¬ inside' i)
    (hin : ∀ j, j ≠ i → inside' j → inside j) : Mutex true inside' := by
  refine mutex_start fun j hj => ?_
  by_cases hji : j = i
  · exact hout (hji ▸ hj)
  · exact hji (h.excl j i (hin j hji hj) hi)

end PfsShell.Lib
