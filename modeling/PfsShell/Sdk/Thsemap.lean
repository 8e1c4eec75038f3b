/-
# The semaphores of the fake SDK

`subprojects/fakeps2sdk/thsemap.c`: a semaphore of the IOP is a `sem_t` of the host in a table of
`SEMA_COUNT` pointers, and its number is the index.  The named semaphores of macOS are left out.

The memory is a heap of `sem_t` (`Lib.Heap`), each of one cell, its value; it is `none` until
`sem_init`.  What the system decides is part of the event: the result of `sem_init` and of
`sem_destroy`, and whether a signal comes while `sem_wait` has to wait.  A call on a `sem_t` that is
not there, or is not initialised, is undefined, and so is a second `free`.

Each function is one step here; `Sdk.Threads` takes them apart for threads that call them at the
same time.  Above it is what a user of the functions sees (`Counters`): a count for each number, no
pointers and no memory.

* `Represents`: the table has a `sem_t` of its own for each count, and there are no others;
* `semas_refine`: every sequence of calls has the replies of the counters, and blocks where they
  do, so that nothing undefined is ever done; and what is allocated is what the table points to,
  after any number of failures.
-/
import PfsShell.Lib.Heap
import PfsShell.Lib.Run
import PfsShell.Lib.Scan

namespace PfsShell.Sdk

open PfsShell.Lib

/-! ## 1. Semaphores of the host -/

/-- `SEMA_COUNT`. -/
def semaCount : ℕ := 100

/-- `SEM_VALUE_MAX` of the host. -/
def semValueMax : ℕ := 2147483647

/-- `sem_t`: its value, once it is initialised. -/
abbrev SemT := Option ℕ

/-- Why a call does not return: it waits, or what it does is undefined. -/
inductive Stuck
  | blocked
  | undefined
  deriving DecidableEq

/-- The function that complains. -/
inductive Caller
  | deleteSema
  | waitSema
  | signalSema
  deriving DecidableEq

/-- What is printed. -/
inductive Message
  /-- `"too many semaphores allocated\n"` -/
  | tooMany
  /-- `"sem_open failed with %d\n"`, also after `malloc` -/
  | semOpenFailed
  /-- `"sem_init failed with %d\n"` -/
  | semInitFailed
  /-- `"sem_close failed with %d\n"`, also after `sem_destroy` -/
  | semCloseFailed
  /-- `"%s: already freed: %d\n"` -/
  | alreadyFreed (caller : Caller) (semid : ℤ)
  /-- `"%s: invalid index: %d\n"` -/
  | invalidIndex (caller : Caller) (semid : ℤ)
  deriving DecidableEq

/-- What a call returns and prints. -/
structure Reply where
  ret : ℤ
  said : Option Message := none
  deriving DecidableEq

/-- The table `sem`, and the memory it points to. -/
structure Semas where
  sem : ℕ → Option ℕ := fun _ => none
  heap : Heap SemT

/-- What a function does: it returns, with a reply and the state afterwards, or is stuck. -/
abbrev Outcome (α : Type) := Except Stuck (Reply × α)

/-- The value of the `sem_t` at `p`, if there is an initialised one. -/
def Semas.value (s : Semas) (p : ℕ) : Option ℕ :=
  (s.heap.blocks p).bind fun cells => cells.head?.bind id

/-- A new value for the `sem_t` at `p`. -/
def Semas.put (p v : ℕ) (reply : Reply) (s : Semas) : Outcome Semas :=
  match s.heap.store ⟨p, 0⟩ (some v) with
  | some heap => .ok (reply, { s with heap := heap })
  | none => .error .undefined

/-- `free(sem[i]); sem[i] = NULL;`. -/
def Semas.drop (i p : ℕ) (reply : Reply) (s : Semas) : Outcome Semas :=
  match s.heap.free p with
  | some heap => .ok (reply, { sem := Function.update s.sem i none, heap := heap })
  | none => .error .undefined

/-- `sem_wait`. -/
def semWait (p : ℕ) (interrupted : Bool) (s : Semas) : Outcome Semas :=
  match s.value p with
  | some 0 => if interrupted then .ok ({ ret := -1 }, s) else .error .blocked
  | some (v + 1) => s.put p v { ret := 0 }
  | none => .error .undefined

/-- `sem_post`. -/
def semPost (p : ℕ) (s : Semas) : Outcome Semas :=
  match s.value p with
  | some v => if v = semValueMax then .ok ({ ret := -1 }, s) else s.put p (v + 1) { ret := 0 }
  | none => .error .undefined

/-! ## 2. The functions -/

/-- `CreateSema`.  What it is asked for, an initial and a greatest count, is not read. -/
def createSema (semInit : ℤ) (s : Semas) : Outcome Semas :=
  let i := scan (fun i => s.sem i = none) semaCount
  if i < semaCount then
    match s.heap.malloc 1 with
    | (some p, heap) =>
      let s : Semas := { sem := Function.update s.sem i (some p), heap := heap }
      if semInit ≠ -1 then s.put p 1 { ret := i }
      else s.drop i p { ret := -1, said := some .semInitFailed }
    | (none, heap) =>
      .ok ({ ret := -1, said := some .semOpenFailed },
        { sem := Function.update s.sem i none, heap := heap })
  else .ok ({ ret := -1, said := some .tooMany }, s)

/-- What `DeleteSema`, `WaitSema` and `SignalSema` have in common: `body` works on the pointer of a
semaphore that there is. -/
def onSema (caller : Caller) (semid : ℤ) (body : ℕ → Semas → Outcome Semas) (s : Semas) :
    Outcome Semas :=
  if 0 ≤ semid ∧ semid < semaCount then
    match s.sem semid.toNat with
    | some p => body p s
    | none => .ok ({ ret := -1, said := some (.alreadyFreed caller semid) }, s)
  else .ok ({ ret := -1, said := some (.invalidIndex caller semid) }, s)

/-- `DeleteSema`. -/
def deleteSema (semid semDestroy : ℤ) : Semas → Outcome Semas :=
  onSema .deleteSema semid fun p s =>
    match s.value p with
    | some _ =>
      if semDestroy = 0 then s.drop semid.toNat p { ret := 0 }
      else .ok ({ ret := -1, said := some .semCloseFailed }, s)
    | none => .error .undefined

/-- `WaitSema`. -/
def waitSema (semid : ℤ) (interrupted : Bool) : Semas → Outcome Semas :=
  onSema .waitSema semid fun p s => semWait p interrupted s

/-- `SignalSema`. -/
def signalSema (semid : ℤ) : Semas → Outcome Semas :=
  onSema .signalSema semid semPost

/-- A call, with what the system makes of it. -/
inductive Event
  | create (semInit : ℤ)
  | delete (semid semDestroy : ℤ)
  | wait (semid : ℤ) (interrupted : Bool)
  | signal (semid : ℤ)
  deriving DecidableEq

/-- One call. -/
def semaStep : Event → Semas → Outcome Semas
  | .create semInit => createSema semInit
  | .delete semid semDestroy => deleteSema semid semDestroy
  | .wait semid interrupted => waitSema semid interrupted
  | .signal semid => signalSema semid

/-- The start: no semaphores, and nothing allocated.  `grants` says which allocations succeed. -/
def semasStart (grants : ℕ → Bool) : Semas where
  heap := { blocks := fun _ => none, next := 0, grants := grants, fill := none }

/-! ## 3. Counters -/

/-- What a user sees: the count of each semaphore, and how often memory was asked for. -/
structure Counters where
  count : ℕ → Option ℕ := fun _ => none
  asked : ℕ := 0

/-- What the calls on a number have in common: `body` works on the count of a semaphore that there
is. -/
def onCount (caller : Caller) (semid : ℤ) (body : ℕ → Counters → Outcome Counters)
    (t : Counters) : Outcome Counters :=
  if 0 ≤ semid ∧ semid < semaCount then
    match t.count semid.toNat with
    | some v => body v t
    | none => .ok ({ ret := -1, said := some (.alreadyFreed caller semid) }, t)
  else .ok ({ ret := -1, said := some (.invalidIndex caller semid) }, t)

/-- The count of `i` is `v` now. -/
def Counters.set (i : ℕ) (v : Option ℕ) (t : Counters) : Counters :=
  { t with count := Function.update t.count i v }

/-- A call on the counters. -/
def counterStep (grants : ℕ → Bool) : Event → Counters → Outcome Counters
  | .create semInit, t =>
    let i := scan (fun i => t.count i = none) semaCount
    if i < semaCount then
      if grants t.asked then
        if semInit ≠ -1 then .ok ({ ret := i }, { t.set i (some 1) with asked := t.asked + 1 })
        else .ok ({ ret := -1, said := some .semInitFailed }, { t with asked := t.asked + 1 })
      else .ok ({ ret := -1, said := some .semOpenFailed }, { t with asked := t.asked + 1 })
    else .ok ({ ret := -1, said := some .tooMany }, t)
  | .delete semid semDestroy, t =>
    onCount .deleteSema semid (fun _ t =>
      if semDestroy = 0 then .ok ({ ret := 0 }, t.set semid.toNat none)
      else .ok ({ ret := -1, said := some .semCloseFailed }, t)) t
  | .wait semid interrupted, t =>
    onCount .waitSema semid (fun v t =>
      match v with
      | 0 => if interrupted then .ok ({ ret := -1 }, t) else .error .blocked
      | v + 1 => .ok ({ ret := 0 }, t.set semid.toNat (some v))) t
  | .signal semid, t =>
    onCount .signalSema semid (fun v t =>
      if v = semValueMax then .ok ({ ret := -1 }, t)
      else .ok ({ ret := 0 }, t.set semid.toNat (some (v + 1)))) t

/-! ## 4. The table represents the counters -/

/-- The table has a `sem_t` of its own for each count, and nothing else is allocated. -/
structure Represents (grants : ℕ → Bool) (s : Semas) (t : Counters) : Prop where
  fresh : s.heap.Fresh
  grants : s.heap.grants = grants
  next : s.heap.next = t.asked
  live : ∀ i p, s.sem i = some p → ∃ v, s.heap.blocks p = some [some v] ∧ t.count i = some v
  free : ∀ i, s.sem i = none → t.count i = none
  apart : ∀ i j p, s.sem i = some p → s.sem j = some p → i = j
  ledger : ∀ p, s.heap.blocks p ≠ none → ∃ i, s.sem i = some p
  inside : ∀ i p, s.sem i = some p → i < semaCount

theorem represents_start (grants : ℕ → Bool) : Represents grants (semasStart grants) {} where
  fresh _ _ := rfl
  grants := rfl
  next := rfl
  live _ _ h := by cases h
  free _ _ := rfl
  apart _ _ _ h := by cases h
  ledger _ h := absurd rfl h
  inside _ _ h := by cases h

section Steps

variable {grants : ℕ → Bool} {s s' : Semas} {t : Counters} {i p v : ℕ}

/-- The two loops over the table stop at the same index. -/
theorem Represents.free_iff (h : Represents grants s t) (i : ℕ) :
    s.sem i = none ↔ t.count i = none := by
  refine ⟨h.free i, fun hcount => ?_⟩
  cases hsem : s.sem i with
  | none => rfl
  | some p =>
    obtain ⟨v, -, hv⟩ := h.live i p hsem
    rw [hcount] at hv
    cases hv

theorem Represents.value (h : Represents grants s t) (hsem : s.sem i = some p)
    (hcount : t.count i = some v) : s.value p = some v := by
  obtain ⟨v', hblock, hv'⟩ := h.live i p hsem
  obtain rfl : v' = v := Option.some.inj (hv'.symm.trans hcount)
  simp [Semas.value, hblock]

/-- **A new value** for a semaphore that there is. -/
theorem Represents.put (h : Represents grants s t) (hsem : s.sem i = some p) (v : ℕ)
    (reply : Reply) :
    SameAnswer (Represents grants) (s.put p v reply) (.ok (reply, t.set i (some v))) := by
  obtain ⟨w, hblock, -⟩ := h.live i p hsem
  have hstore : s.heap.store ⟨p, 0⟩ (some v) =
      some { s.heap with blocks := Function.update s.heap.blocks p (some [some v]) } :=
    Heap.store_eq (p := ⟨p, 0⟩) hblock Nat.one_pos
  rw [Semas.put, hstore]
  refine .ok reply ⟨fun b hb => ?_, h.grants, h.next, fun j q hj => ?_, fun j hj => ?_, h.apart,
    fun q hq => ?_, h.inside⟩
  · have hne : b ≠ p := by
      rintro rfl
      rw [h.fresh b hb] at hblock
      cases hblock
    exact (Function.update_of_ne hne ..).trans (h.fresh b hb)
  · by_cases hji : j = i
    · subst hji
      obtain rfl : p = q := Option.some.inj (hsem.symm.trans hj)
      exact ⟨v, Function.update_self .., Function.update_self ..⟩
    · have hqp : q ≠ p := by
        rintro rfl
        exact hji (h.apart j i q hj hsem)
      obtain ⟨u, hu, hcount⟩ := h.live j q hj
      exact ⟨u, (Function.update_of_ne hqp ..).trans hu, (Function.update_of_ne hji ..).trans hcount⟩
  · have hji : j ≠ i := by
      rintro rfl
      rw [hsem] at hj
      cases hj
    exact (Function.update_of_ne hji ..).trans (h.free j hj)
  · by_cases hqp : q = p
    · exact ⟨i, hqp ▸ hsem⟩
    · refine h.ledger q ?_
      rwa [← Function.update_of_ne hqp (some [some v]) s.heap.blocks]

/-- **The end** of a semaphore that there is. -/
theorem Represents.drop (h : Represents grants s t) (hsem : s.sem i = some p) (reply : Reply) :
    SameAnswer (Represents grants) (s.drop i p reply) (.ok (reply, t.set i none)) := by
  obtain ⟨w, hblock, -⟩ := h.live i p hsem
  rw [Semas.drop, Heap.free_eq hblock]
  have hother : ∀ j q, Function.update s.sem i none j = some q → j ≠ i ∧ s.sem j = some q := by
    intro j q hj
    by_cases hji : j = i
    · subst hji
      rw [Function.update_self] at hj
      cases hj
    · rw [Function.update_of_ne hji] at hj
      exact ⟨hji, hj⟩
  refine .ok reply ⟨h.fresh.free, h.grants, h.next, fun j q hj => ?_, fun j hj => ?_,
    fun j k q hj hk => ?_, fun q hq => ?_, fun j q hj => h.inside j q (hother j q hj).2⟩
  · obtain ⟨hji, hold⟩ := hother j q hj
    have hqp : q ≠ p := by
      rintro rfl
      exact hji (h.apart j i q hold hsem)
    obtain ⟨u, hu, hcount⟩ := h.live j q hold
    exact ⟨u, (Function.update_of_ne hqp ..).trans hu, (Function.update_of_ne hji ..).trans hcount⟩
  · by_cases hji : j = i
    · subst hji
      exact Function.update_self ..
    · refine (Function.update_of_ne hji ..).trans (h.free j ?_)
      exact (Function.update_of_ne hji ..).symm.trans hj
  · exact h.apart j k q (hother j q hj).2 (hother k q hk).2
  · have hqp : q ≠ p := by
      rintro rfl
      exact hq (Function.update_self ..)
    obtain ⟨j, hj⟩ := h.ledger q (by rwa [← Function.update_of_ne hqp none s.heap.blocks])
    refine ⟨j, (Function.update_of_ne ?_ ..).trans hj⟩
    rintro rfl
    exact hqp (Option.some.inj (hj.symm.trans hsem))

/-- **A new semaphore**, at an index that is free: the next allocation. -/
theorem Represents.insert (h : Represents grants s t) (hi : i < semaCount) (hsem : s.sem i = none)
    {heap : Heap SemT}
    (hblocks : heap.blocks = Function.update s.heap.blocks s.heap.next (some [some 1]))
    (hnext : heap.next = s.heap.next + 1) (hgrants : heap.grants = s.heap.grants) :
    Represents grants { sem := Function.update s.sem i (some s.heap.next), heap := heap }
      { t.set i (some 1) with asked := s.heap.next + 1 } := by
  -- no other entry points there
  have hold : ∀ j q, s.sem j = some q → j ≠ i ∧ q ≠ s.heap.next := by
    intro j q hj
    obtain ⟨v, hv, -⟩ := h.live j q hj
    refine ⟨?_, ?_⟩
    · rintro rfl
      rw [hsem] at hj
      cases hj
    · rintro rfl
      rw [h.fresh _ (Nat.le_refl _)] at hv
      cases hv
  have hentry : ∀ j q, Function.update s.sem i (some s.heap.next) j = some q →
      j = i ∧ q = s.heap.next ∨ s.sem j = some q := by
    intro j q hj
    by_cases hji : j = i
    · subst hji
      rw [Function.update_self] at hj
      exact .inl ⟨rfl, (Option.some.inj hj).symm⟩
    · rw [Function.update_of_ne hji] at hj
      exact .inr hj
  refine ⟨fun b hb => ?_, hgrants.trans h.grants, hnext, fun j q hj => ?_, fun j hj => ?_,
    fun j k q hj hk => ?_, fun q hq => ?_, fun j q hj => ?_⟩
  · have hlt : heap.next ≤ b := hb
    rw [hnext] at hlt
    rw [hblocks, Function.update_of_ne (by omega)]
    exact h.fresh b (by omega)
  · rcases hentry j q hj with ⟨rfl, rfl⟩ | hj
    · exact ⟨1, by rw [hblocks, Function.update_self], Function.update_self ..⟩
    · obtain ⟨hji, hqn⟩ := hold j q hj
      obtain ⟨v, hv, hcount⟩ := h.live j q hj
      exact ⟨v, by rw [hblocks, Function.update_of_ne hqn, hv],
        (Function.update_of_ne hji ..).trans hcount⟩
  · have hj : Function.update s.sem i (some s.heap.next) j = none := hj
    by_cases hji : j = i
    · subst hji
      rw [Function.update_self] at hj
      cases hj
    · rw [Function.update_of_ne hji] at hj
      exact (Function.update_of_ne hji ..).trans (h.free j hj)
  · rcases hentry j q hj with ⟨rfl, rfl⟩ | hj
    · rcases hentry k _ hk with ⟨rfl, -⟩ | hk
      · rfl
      · exact absurd rfl (hold k _ hk).2
    · rcases hentry k q hk with ⟨-, rfl⟩ | hk
      · exact absurd rfl (hold j _ hj).2
      · exact h.apart j k q hj hk
  · rw [hblocks] at hq
    by_cases hqn : q = s.heap.next
    · exact ⟨i, hqn ▸ Function.update_self ..⟩
    · rw [Function.update_of_ne hqn] at hq
      obtain ⟨j, hj⟩ := h.ledger q hq
      exact ⟨j, (Function.update_of_ne (hold j q hj).1 ..).trans hj⟩
  · rcases hentry j q hj with ⟨rfl, -⟩ | hj
    · exact hi
    · exact h.inside j q hj

/-- **An allocation that comes to nothing.** -/
theorem Represents.skip (h : Represents grants s t) {sem : ℕ → Option ℕ} {heap : Heap SemT}
    (hsem : sem = s.sem) (hblocks : heap.blocks = s.heap.blocks)
    (hnext : heap.next = s.heap.next + 1) (hgrants : heap.grants = s.heap.grants) :
    Represents grants { sem := sem, heap := heap } { t with asked := s.heap.next + 1 } := by
  subst hsem
  refine ⟨fun b hb => ?_, hgrants.trans h.grants, hnext, fun j q hj => ?_, h.free, h.apart,
    fun q hq => ?_, h.inside⟩
  · rw [hblocks]
    have hle : heap.next ≤ b := hb
    rw [hnext] at hle
    exact h.fresh b (Nat.le_of_succ_le hle)
  · obtain ⟨v, hv, hcount⟩ := h.live j q hj
    exact ⟨v, by rw [hblocks, hv], hcount⟩
  · rw [hblocks] at hq
    exact h.ledger q hq

/-- A function on the pointer does what its counterpart does on the count. -/
theorem Represents.onSema (h : Represents grants s t) (caller : Caller) (semid : ℤ)
    {body : ℕ → Semas → Outcome Semas} {spec : ℕ → Counters → Outcome Counters}
    (hbody : ∀ p v, s.sem semid.toNat = some p → s.value p = some v →
      SameAnswer (Represents grants) (body p s) (spec v t)) :
    SameAnswer (Represents grants) (Sdk.onSema caller semid body s)
      (onCount caller semid spec t) := by
  unfold Sdk.onSema onCount
  by_cases hin : 0 ≤ semid ∧ semid < semaCount
  · rw [if_pos hin, if_pos hin]
    cases hsem : s.sem semid.toNat with
    | none =>
      rw [(h.free_iff semid.toNat).mp hsem]
      exact .ok _ h
    | some p =>
      obtain ⟨v, -, hcount⟩ := h.live semid.toNat p hsem
      rw [hcount]
      exact hbody p v hsem (h.value hsem hcount)
  · rw [if_neg hin, if_neg hin]
    exact .ok _ h

theorem Represents.create (h : Represents grants s t) (semInit : ℤ) :
    SameAnswer (Represents grants) (createSema semInit s)
      (counterStep grants (.create semInit) t) := by
  have hscan : scan (fun i => t.count i = none) semaCount =
      scan (fun i => s.sem i = none) semaCount := scan_congr fun i _ => (h.free_iff i).symm
  simp only [createSema, counterStep, hscan]
  obtain ⟨i, hi⟩ : ∃ i, scan (fun i => s.sem i = none) semaCount = i := ⟨_, rfl⟩
  rw [hi]
  by_cases hlt : i < semaCount
  · have hsem : s.sem i = none := by
      have hfree := scan_holds (p := fun i => s.sem i = none) (n := semaCount) (by rw [hi]; exact hlt)
      rwa [hi] at hfree
    have hnew : s.heap.blocks s.heap.next = none := h.fresh _ (Nat.le_refl _)
    rw [if_pos hlt, if_pos hlt, Heap.malloc, h.grants, ← h.next]
    cases grants s.heap.next with
    | false => exact .ok _ (h.skip (by rw [← hsem, Function.update_eq_self]) rfl rfl h.grants.symm)
    | true =>
      by_cases hinit : semInit = -1
      · have hsame : Function.update (Function.update s.heap.blocks s.heap.next
            (some (List.replicate 1 s.heap.fill))) s.heap.next none = s.heap.blocks := by
          rw [Function.update_idem, ← hnew, Function.update_eq_self]
        simp only [hinit, ne_eq, not_true_eq_false, if_false, if_true, Semas.drop]
        rw [Heap.free_eq (Function.update_self ..)]
        refine .ok _ (h.skip ?_ hsame rfl h.grants.symm)
        rw [Function.update_idem, ← hsem, Function.update_eq_self]
      · simp only [ne_eq, hinit, not_false_eq_true, if_true, Semas.put]
        rw [Heap.store_eq (p := ⟨s.heap.next, 0⟩) (Function.update_self ..) (by simp)]
        refine .ok _ (h.insert hlt hsem ?_ rfl h.grants.symm)
        rw [Function.update_idem]
        rfl
  · rw [if_neg hlt, if_neg hlt]
    exact .ok _ h

/-- **Each call does what it does to the counters**, and the table represents them afterwards. -/
theorem Represents.step (h : Represents grants s t) (e : Event) :
    SameAnswer (Represents grants) (semaStep e s) (counterStep grants e t) := by
  cases e with
  | create semInit => exact h.create semInit
  | delete semid semDestroy =>
    simp only [semaStep, deleteSema, counterStep]
    refine h.onSema .deleteSema semid fun p v hsem hvalue => ?_
    simp only [hvalue]
    by_cases hdestroy : semDestroy = 0
    · rw [if_pos hdestroy, if_pos hdestroy]
      exact h.drop hsem _
    · rw [if_neg hdestroy, if_neg hdestroy]
      exact .ok _ h
  | wait semid interrupted =>
    simp only [semaStep, waitSema, counterStep]
    refine h.onSema .waitSema semid fun p v hsem hvalue => ?_
    simp only [semWait, hvalue]
    cases v with
    | zero =>
      cases interrupted with
      | true => exact .ok _ h
      | false => exact .error _
    | succ v => exact h.put hsem v _
  | signal semid =>
    simp only [semaStep, signalSema, counterStep]
    refine h.onSema .signalSema semid fun p v hsem hvalue => ?_
    simp only [semPost, hvalue]
    by_cases hmax : v = semValueMax
    · rw [if_pos hmax, if_pos hmax]
      exact .ok _ h
    · rw [if_neg hmax, if_neg hmax]
      exact h.put hsem (v + 1) _

end Steps

/-! ## 5. Any sequence of calls -/

/-- The state after a call that returns. -/
def semaNext (e : Event) (s : Semas) : Option Semas := (semaStep e s).toOption.map Prod.snd

theorem counterStep_defined (grants : ℕ → Bool) (e : Event) (t : Counters) :
    counterStep grants e t ≠ .error .undefined := by
  cases e with
  | create semInit =>
    simp only [counterStep]
    repeat' split
    all_goals simp
  | delete semid semDestroy =>
    simp only [counterStep, onCount]
    repeat' split
    all_goals simp
  | wait semid interrupted =>
    simp only [counterStep, onCount]
    repeat' split
    all_goals simp
  | signal semid =>
    simp only [counterStep, onCount]
    repeat' split
    all_goals simp

theorem answers_defined (grants : ℕ → Bool) (es : List Event) :
    ∀ t : Counters, .error .undefined ∉ answers (counterStep grants) es t := by
  induction es with
  | nil => simp [answers]
  | cons e es ih =>
    intro t
    have hdefined := counterStep_defined grants e t
    simp only [answers]
    cases hstep : counterStep grants e t with
    | ok result => simp [ih result.2]
    | error x =>
      rw [hstep] at hdefined
      simpa using Ne.symm fun he => hdefined (congrArg _ he)

theorem Represents.next_step {grants : ℕ → Bool} {s s' : Semas} {t : Counters}
    (h : Represents grants s t) {e : Event} {reply : Reply} (hstep : semaStep e s = .ok (reply, s')) :
    ∃ t', counterStep grants e t = .ok (reply, t') ∧ Represents grants s' t' := by
  have hsame := h.step e
  rw [hstep] at hsame
  generalize counterStep grants e t = y at hsame ⊢
  cases hsame with
  | ok o h' => exact ⟨_, rfl, h'⟩

/-- What `CreateSema` gives: a semaphore with the count 1, unless it fails; the others stay. -/
theorem Represents.created {grants : ℕ → Bool} {s s' : Semas} {t : Counters}
    (h : Represents grants s t) {semInit : ℤ} {reply : Reply}
    (hcreate : createSema semInit s = .ok (reply, s')) :
    ∃ t', Represents grants s' t' ∧ (∀ i v, t.count i = some v → t'.count i = some v) ∧
      (0 ≤ reply.ret → reply.ret < semaCount ∧ t'.count reply.ret.toNat = some 1) := by
  obtain ⟨t', hstep, h'⟩ := h.next_step (e := .create semInit) hcreate
  refine ⟨t', h', ?_⟩
  simp only [counterStep] at hstep
  obtain ⟨i, hi⟩ : ∃ i, scan (fun i => t.count i = none) semaCount = i := ⟨_, rfl⟩
  rw [hi] at hstep
  by_cases hlt : i < semaCount
  · have hnone : t.count i = none := by
      have hfree := scan_holds (p := fun i => t.count i = none) (n := semaCount)
        (by rw [hi]; exact hlt)
      rwa [hi] at hfree
    rw [if_pos hlt] at hstep
    split at hstep
    · split at hstep
      · obtain ⟨rfl, rfl⟩ := Prod.mk.inj (Except.ok.inj hstep)
        refine ⟨fun j v hj => ?_, fun _ => ⟨Int.ofNat_lt.mpr hlt, Function.update_self ..⟩⟩
        have hji : j ≠ i := by
          rintro rfl
          rw [hnone] at hj
          cases hj
        exact (Function.update_of_ne hji ..).trans hj
      · obtain ⟨rfl, rfl⟩ := Prod.mk.inj (Except.ok.inj hstep)
        exact ⟨fun _ _ hj => hj, fun hneg => absurd hneg (by decide)⟩
    · obtain ⟨rfl, rfl⟩ := Prod.mk.inj (Except.ok.inj hstep)
      exact ⟨fun _ _ hj => hj, fun hneg => absurd hneg (by decide)⟩
  · rw [if_neg hlt] at hstep
    obtain ⟨rfl, rfl⟩ := Prod.mk.inj (Except.ok.inj hstep)
    exact ⟨fun _ _ hj => hj, fun hneg => absurd hneg (by decide)⟩

/-- Every state that is reached has its counters. -/
theorem represents_reached {grants : ℕ → Bool} {s : Semas}
    (hreach : Reaches semaNext (semasStart grants) s) : ∃ t, Represents grants s t := by
  refine hreach.preserves (I := fun s => ∃ t, Represents grants s t)
    ⟨_, represents_start grants⟩ ?_
  rintro e s s' ⟨t, h⟩ hnext
  obtain ⟨result, hstep, rfl⟩ := Option.map_eq_some_iff.mp hnext
  cases hok : semaStep e s with
  | ok r =>
    rw [hok] at hstep
    obtain rfl := Option.some.inj hstep
    obtain ⟨t', -, h'⟩ := h.next_step hok
    exact ⟨t', h'⟩
  | error x =>
    rw [hok] at hstep
    cases hstep

/-- **The table is the counters.**  Any sequence of calls, with any results of the system, is
answered as the counters are, and never does anything undefined: no `sem_t` is used that is not
there or not initialised, and none is freed twice.  In every state that is reached the memory in
use is that of the table, each piece in one entry. -/
theorem semas_refine (grants : ℕ → Bool) :
    (∀ es, answers semaStep es (semasStart grants) = answers (counterStep grants) es {} ∧
      .error .undefined ∉ answers semaStep es (semasStart grants)) ∧
    ∀ s, Reaches semaNext (semasStart grants) s →
      (∀ p, s.heap.blocks p ≠ none ↔ ∃ i < semaCount, s.sem i = some p) ∧
      ∀ i j p, s.sem i = some p → s.sem j = some p → i = j := by
  refine ⟨fun es => ?_, fun s hreach => ?_⟩
  · have heq : answers semaStep es (semasStart grants) = answers (counterStep grants) es {} :=
      answers_eq (fun e s t (h : Represents grants s t) => h.step e) es (represents_start grants)
    refine ⟨heq, ?_⟩
    rw [heq]
    exact answers_defined grants es {}
  · obtain ⟨t, h⟩ : ∃ t, Represents grants s t := represents_reached hreach
    refine ⟨fun p => ⟨fun hp => ?_, ?_⟩, h.apart⟩
    · obtain ⟨i, hi⟩ := h.ledger p hp
      exact ⟨i, h.inside i p hi, hi⟩
    · rintro ⟨i, -, hi⟩ hnone
      obtain ⟨v, hv, -⟩ := h.live i p hi
      rw [hnone] at hv
      cases hv

end PfsShell.Sdk
