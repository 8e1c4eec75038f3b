/-
# The semaphores of the fake SDK, with several threads

`thsemap.c` takes no lock of its own.  `CreateSema` looks for a free entry of the table and stores
a pointer there some time later, and the other functions test an entry and then use what it points
to.  Here a thread reaches the table once in a step, and the steps of the threads come in any order.

* `semaStep_eq_finish`: the steps of a call that nobody comes between are the function of
  `Sdk.Thsemap`;
* `Sound` is what holds after every step, when no two calls of `CreateSema` overlap, nobody uses the
  number of a semaphore that is being made or deleted, and each thread signals what it holds and
  deletes nothing that is held (`Disciplined`);
* `sema_excludes`: a semaphore is held by one thread at a time then, whatever it was created with,
  and nothing undefined is done;
* `creates_overlap`: two calls of `CreateSema` that overlap return one number, and two threads hold
  it.
-/
import Mathlib.Data.Fintype.Basic
import PfsShell.Lib.Mutex
import PfsShell.Sdk.Thsemap

namespace PfsShell.Sdk

open PfsShell.Lib

/-! ## 1. The functions, step by step -/

/-- What a thread does next in a call; `n` is the entry of the table that it works on. -/
inductive Place
  /-- `i < SEMA_COUNT && sem[i] != NULL` in `CreateSema` -/
  | looking (semInit : ℤ) (i : ℕ)
  /-- `sem[n] = malloc(sizeof(sem_t))` -/
  | storing (semInit : ℤ) (n : ℕ)
  /-- `sem[n] != NULL` after it -/
  | testing (semInit : ℤ) (n : ℕ)
  /-- `sem_init(sem[n], 0, 1)` -/
  | initialising (semInit : ℤ) (n : ℕ)
  /-- `sem_destroy(sem[n])` -/
  | destroying (n : ℕ) (semDestroy : ℤ)
  /-- `free(sem[n])`, in `DeleteSema` and after a `sem_init` that failed -/
  | freeing (n : ℕ) (reply : Reply)
  /-- `sem[n] = NULL` -/
  | clearing (n : ℕ) (reply : Reply)
  /-- `sem[n]` is read for `sem_wait` -/
  | waiting (n : ℕ) (interrupted : Bool)
  /-- in `sem_wait` of the semaphore at `p` -/
  | suspended (n p : ℕ) (interrupted : Bool)
  /-- `sem_post(sem[n])` -/
  | posting (n : ℕ)
  deriving DecidableEq

/-- The entry that a thread works on. -/
def Place.number : Place → Option ℕ
  | .looking .. => none
  | .storing _ n | .testing _ n | .initialising _ n | .destroying n _ | .freeing n _
  | .clearing n _ | .waiting n _ | .suspended n _ _ | .posting n => some n

/-- The thread makes or deletes the semaphore of its entry. -/
def Place.alters : Place → Bool
  | .looking .. | .waiting .. | .suspended .. | .posting _ => false
  | _ => true

/-- The thread is in `CreateSema`, and its semaphore is not there yet. -/
def Place.creates : Place → Bool
  | .looking .. | .storing .. | .testing .. | .initialising .. => true
  | _ => false

/-- What a step of a call comes to: it returns or goes on, or it is stuck. -/
abbrev Turned := Except Stuck ((Reply ⊕ Place) × Semas)

/-- The test of `DeleteSema`, `WaitSema` and `SignalSema`. -/
def testSema (caller : Caller) (semid : ℤ) (next : Place) (s : Semas) : Reply ⊕ Place :=
  if 0 ≤ semid ∧ semid < semaCount then
    if s.sem semid.toNat ≠ none then .inr next
    else .inl { ret := -1, said := some (.alreadyFreed caller semid) }
  else .inl { ret := -1, said := some (.invalidIndex caller semid) }

/-- The first step of a call. -/
def startSema (e : Event) (s : Semas) : Reply ⊕ Place :=
  match e with
  | .create semInit => .inr (.looking semInit 0)
  | .delete semid semDestroy =>
    testSema .deleteSema semid (.destroying semid.toNat semDestroy) s
  | .wait semid interrupted => testSema .waitSema semid (.waiting semid.toNat interrupted) s
  | .signal semid => testSema .signalSema semid (.posting semid.toNat) s

/-- A function of the host on what entry `n` points to. -/
def Semas.use (n : ℕ) (body : ℕ → Turned) (s : Semas) : Turned :=
  match s.sem n with
  | some p => body p
  | none => .error .undefined

/-- The call returns with this. -/
def replied (r : Outcome Semas) : Turned :=
  match r with
  | .ok (reply, s) => .ok (.inl reply, s)
  | .error x => .error x

/-- One more step of a call. -/
def semaTurn (k : Place) (s : Semas) : Turned :=
  match k with
  | .looking semInit i =>
    if i < semaCount then
      if s.sem i ≠ none then .ok (.inr (.looking semInit (i + 1)), s)
      else .ok (.inr (.storing semInit i), s)
    else .ok (.inl { ret := -1, said := some .tooMany }, s)
  | .storing semInit n =>
    let m := s.heap.malloc 1
    .ok (.inr (.testing semInit n), { sem := Function.update s.sem n m.1, heap := m.2 })
  | .testing semInit n =>
    if s.sem n ≠ none then .ok (.inr (.initialising semInit n), s)
    else .ok (.inl { ret := -1, said := some .semOpenFailed }, s)
  | .initialising semInit n =>
    s.use n fun p =>
      if semInit ≠ -1 then replied (s.put p 1 { ret := n })
      else .ok (.inr (.freeing n { ret := -1, said := some .semInitFailed }), s)
  | .destroying n semDestroy =>
    s.use n fun p =>
      match s.value p with
      | some _ =>
        if semDestroy = 0 then .ok (.inr (.freeing n { ret := 0 }), s)
        else .ok (.inl { ret := -1, said := some .semCloseFailed }, s)
      | none => .error .undefined
  | .freeing n reply =>
    match s.sem n with
    | some p =>
      match s.heap.free p with
      | some heap => .ok (.inr (.clearing n reply), { s with heap := heap })
      | none => .error .undefined
    | none => .ok (.inr (.clearing n reply), s)
  | .clearing n reply => .ok (.inl reply, { s with sem := Function.update s.sem n none })
  | .waiting n interrupted => s.use n fun p => .ok (.inr (.suspended n p interrupted), s)
  | .suspended _ p interrupted => replied (semWait p interrupted s)
  | .posting n => s.use n fun p => replied (semPost p s)

/-! ## 2. A call that nobody comes between -/

/-- The steps of one call, one after the other. -/
def finish : ℕ → (Reply ⊕ Place) × Semas → Outcome Semas
  | _, (.inl reply, s) => .ok (reply, s)
  | 0, (.inr _, _) => .error .blocked
  | fuel + 1, (.inr k, s) =>
    match semaTurn k s with
    | .ok x => finish fuel x
    | .error x => .error x

section Finish

variable {s : Semas} {fuel : ℕ}

theorem finish_ok {k : Place} {x : (Reply ⊕ Place) × Semas} (h : semaTurn k s = .ok x) :
    finish (fuel + 1) (.inr k, s) = finish fuel x := by
  rw [finish, h]

theorem finish_error {k : Place} {x : Stuck} (h : semaTurn k s = .error x) :
    finish (fuel + 1) (.inr k, s) = .error x := by
  rw [finish, h]

theorem finish_reply (reply : Reply) : finish fuel (.inl reply, s) = .ok (reply, s) := by
  cases fuel <;> rfl

theorem finish_replied {k : Place} {r : Outcome Semas} (h : semaTurn k s = replied r) :
    finish (fuel + 1) (.inr k, s) = r := by
  cases r with
  | ok r => rw [finish_ok h, finish_reply]
  | error x => rw [finish_error h]

/-- The end of a semaphore: two steps. -/
theorem finish_freeing {n p : ℕ} (hsem : s.sem n = some p) (reply : Reply) :
    finish (fuel + 2) (.inr (.freeing n reply), s) = s.drop n p reply := by
  rw [Semas.drop]
  cases hfree : s.heap.free p with
  | none =>
    rw [finish_error]
    simp only [semaTurn, hsem, hfree]
  | some heap =>
    rw [finish_ok (x := (.inr (.clearing n reply), { s with heap := heap }))
      (by simp only [semaTurn, hsem, hfree]), finish_ok rfl, finish_reply]

/-- `CreateSema`, with the entries in front of `i` looked at. -/
theorem finish_looking (semInit : ℤ) : ∀ (m i : ℕ), i + m = semaCount →
    (∀ j < i, s.sem j ≠ none) →
    finish (m + 6) (.inr (.looking semInit i), s) = createSema semInit s := by
  intro m
  induction m with
  | zero =>
    intro i hi htaken
    have hscan : scan (fun i => s.sem i = none) semaCount = semaCount :=
      scan_eq_self_iff.mpr fun j hj => htaken j (by omega)
    have hturn : semaTurn (.looking semInit i) s =
        .ok (.inl { ret := -1, said := some .tooMany }, s) := by
      rw [semaTurn, if_neg (by omega)]
    rw [finish_ok hturn, finish_reply]
    simp only [createSema, hscan, Nat.lt_irrefl, if_false]
  | succ m ih =>
    intro i hi htaken
    have hlt : i < semaCount := by omega
    by_cases hfree : s.sem i = none
    · have hscan : scan (fun i => s.sem i = none) semaCount = i :=
        scan_eq_of_first hlt hfree htaken
      have hlook : semaTurn (.looking semInit i) s = .ok (.inr (.storing semInit i), s) := by
        rw [semaTurn, if_pos hlt, if_neg (not_not.mpr hfree)]
      rw [finish_ok hlook, finish_ok rfl]
      simp only [createSema, hscan, if_pos hlt]
      obtain ⟨entry, heap⟩ := s.heap.malloc 1
      cases entry with
      | none =>
        rw [finish_ok (x := (.inl { ret := -1, said := some .semOpenFailed }, _))
          (by simp only [semaTurn, Function.update_self]; rfl), finish_reply]
      | some p =>
        rw [finish_ok (x := (.inr (.initialising semInit i), _))
          (by simp only [semaTurn, Function.update_self]; rfl)]
        by_cases hinit : semInit = -1
        · simp only [hinit, ne_eq, not_true_eq_false, if_false]
          rw [finish_ok (x := (.inr (.freeing i { ret := -1, said := some .semInitFailed }), _))
            (by simp only [semaTurn, Semas.use, Function.update_self]; rfl),
            finish_freeing (Function.update_self ..)]
        · simp only [hinit, ne_eq, not_false_eq_true, if_true]
          refine finish_replied ?_
          simp only [semaTurn, Semas.use, Function.update_self, hinit, ne_eq, not_false_eq_true,
            if_true]
    · have hlook : semaTurn (.looking semInit i) s = .ok (.inr (.looking semInit (i + 1)), s) := by
        rw [semaTurn, if_pos hlt, if_pos hfree]
      rw [show m + 1 + 6 = m + 6 + 1 from rfl, finish_ok hlook]
      refine ih (i + 1) (by omega) fun j hj => ?_
      rcases Nat.lt_succ_iff_lt_or_eq.mp hj with hj | rfl
      · exact htaken j hj
      · exact hfree

/-- A function that tests an entry first. -/
theorem finish_test {caller : Caller} {semid : ℤ} {next : Place}
    {body : ℕ → Semas → Outcome Semas}
    (hbody : ∀ p, s.sem semid.toNat = some p → finish fuel (.inr next, s) = body p s) :
    finish fuel (testSema caller semid next s, s) = onSema caller semid body s := by
  unfold testSema onSema
  by_cases hin : 0 ≤ semid ∧ semid < semaCount
  · rw [if_pos hin, if_pos hin]
    cases hsem : s.sem semid.toNat with
    | none => exact finish_reply _
    | some p => exact hbody p hsem
  · rw [if_neg hin, if_neg hin, finish_reply]

/-- **The steps of a call that nobody comes between are the function.** -/
theorem semaStep_eq_finish (e : Event) (s : Semas) :
    finish (semaCount + 6) (startSema e s, s) = semaStep e s := by
  cases e with
  | create semInit => exact finish_looking semInit semaCount 0 (Nat.zero_add _) (by simp)
  | delete semid semDestroy =>
    rw [startSema, semaStep, deleteSema]
    refine finish_test fun p hsem => ?_
    cases hvalue : s.value p with
    | none =>
      rw [finish_error]
      simp only [semaTurn, Semas.use, hsem, hvalue]
    | some v =>
      by_cases hdestroy : semDestroy = 0
      · rw [finish_ok (x := (.inr (.freeing semid.toNat { ret := 0 }), s))
          (by simp only [semaTurn, Semas.use, hsem, hvalue, if_pos hdestroy]),
          finish_freeing hsem]
        simp only [if_pos hdestroy]
      · rw [finish_ok (x := (.inl { ret := -1, said := some .semCloseFailed }, s))
          (by simp only [semaTurn, Semas.use, hsem, hvalue, if_neg hdestroy]), finish_reply]
        simp only [if_neg hdestroy]
  | wait semid interrupted =>
    refine finish_test fun p hsem => ?_
    rw [finish_ok (x := (.inr (.suspended semid.toNat p interrupted), s))
      (by simp only [semaTurn, Semas.use, hsem])]
    exact finish_replied rfl
  | signal semid =>
    refine finish_test fun p hsem => finish_replied ?_
    simp only [semaTurn, Semas.use, hsem]

end Finish

/-! ## 3. Threads -/

/-- The semaphores, what each thread is in the middle of, which thread has waited for which number
without a signal since, and what the calls have returned. -/
structure Threads (τ : Type) where
  semas : Semas
  place : τ → Option Place := fun _ => none
  holds : ℕ → τ → Bool := fun _ _ => false
  returned : List (τ × Reply) := []

/-- A thread calls a function, or goes on in one. -/
inductive ThreadMove (τ : Type)
  | call (a : τ) (e : Event)
  | turn (a : τ)

section Threads

variable {τ : Type}

/-- A thread signals a semaphore that it holds, and deletes one that nobody holds or uses; nobody
waits for one that is being made or deleted; and calls of `CreateSema` do not overlap. -/
def Disciplined (m : ThreadMove τ) (s : Threads τ) : Prop :=
  match m with
  | .call _ (.create _) => ∀ b, ∀ k ∈ s.place b, k.creates = false
  | .call _ (.delete semid _) => 0 ≤ semid → (∀ b, s.holds semid.toNat b = false) ∧
      ∀ b, ∀ k ∈ s.place b, k.number ≠ some semid.toNat
  | .call _ (.wait semid _) => 0 ≤ semid →
      ∀ b, ∀ k ∈ s.place b, k.number = some semid.toNat → k.alters = false
  | .call a (.signal semid) => 0 ≤ semid → s.holds semid.toNat a = true
  | .turn _ => True

instance [Fintype τ] (m : ThreadMove τ) (s : Threads τ) : Decidable (Disciplined m s) :=
  match m with
  | .call _ (.create _) =>
    inferInstanceAs (Decidable (∀ b, ∀ k ∈ s.place b, k.creates = false))
  | .call _ (.delete semid _) =>
    inferInstanceAs (Decidable (0 ≤ semid → (∀ b, s.holds semid.toNat b = false) ∧
      ∀ b, ∀ k ∈ s.place b, k.number ≠ some semid.toNat))
  | .call _ (.wait semid _) =>
    inferInstanceAs (Decidable (0 ≤ semid →
      ∀ b, ∀ k ∈ s.place b, k.number = some semid.toNat → k.alters = false))
  | .call a (.signal semid) =>
    inferInstanceAs (Decidable (0 ≤ semid → s.holds semid.toNat a = true))
  | .turn _ => .isTrue trivial

variable [DecidableEq τ]

/-- Who holds what when the call of thread `a` returns. -/
def Place.holdsAfter (k : Place) (a : τ) (ret : ℤ) (holds : ℕ → τ → Bool) : ℕ → τ → Bool :=
  match k with
  | .suspended n _ _ =>
    if ret = 0 then Function.update holds n (Function.update (holds n) a true) else holds
  | .posting n =>
    if ret = 0 then Function.update holds n (Function.update (holds n) a false) else holds
  | _ => holds

/-- One step of one thread.  A thread that has to wait cannot take one. -/
def threadStep (m : ThreadMove τ) (s : Threads τ) : Option (Threads τ) :=
  match m with
  | .call a e =>
    match s.place a, startSema e s.semas with
    | none, .inl reply => some { s with returned := s.returned ++ [(a, reply)] }
    | none, .inr k => some { s with place := Function.update s.place a (some k) }
    | some _, _ => none
  | .turn a =>
    match s.place a with
    | some k =>
      match semaTurn k s.semas with
      | .ok (.inl reply, semas) =>
        some
          { semas := semas
            place := Function.update s.place a none
            holds := k.holdsAfter a reply.ret s.holds
            returned := s.returned ++ [(a, reply)] }
      | .ok (.inr k', semas) =>
        some { s with place := Function.update s.place a (some k'), semas := semas }
      | .error _ => none
    | none => none

end Threads

/-! ## 4. Semaphores as locks -/

section Locks

variable {τ : Type}

/-- A count of a semaphore that is used as a lock: it is 1 while nobody holds it, and 0 while one
thread does; a number without a semaphore is held by nobody. -/
structure Held (count : Option ℕ) (holds : τ → Bool) : Prop where
  mutex : Mutex (decide (count = some 1)) fun a => holds a = true
  nobody : count = none → ∀ a, holds a = false
  taken : count = some 0 → ∃ a, holds a = true
  bounded : ∀ v, count = some v → v ≤ 1

theorem held_none : Held none (fun _ : τ => false) where
  mutex := mutex_start fun _ h => Bool.false_ne_true h
  nobody _ _ := rfl
  taken h := by cases h
  bounded _ h := by cases h

section Held

variable {holds : τ → Bool} {v : ℕ} {a : τ}

/-- A new semaphore. -/
theorem Held.create (h : Held none holds) : Held (some 1) holds where
  mutex := mutex_start fun a ha => by
    rw [h.nobody rfl a] at ha
    cases ha
  nobody h := by cases h
  taken h := by cases h
  bounded w hw := by
    obtain rfl := Option.some.inj hw
    exact Nat.le_refl _

theorem Held.delete (hnobody : ∀ a, holds a = false) : Held none holds where
  mutex := mutex_start fun a ha => by
    rw [hnobody a] at ha
    cases ha
  nobody _ := hnobody
  taken h := by cases h
  bounded _ h := by cases h

/-- A thread gets the semaphore. -/
theorem Held.wait [DecidableEq τ] (h : Held (some (v + 1)) holds) :
    Held (some v) (Function.update holds a true) := by
  have hv : v = 0 := by
    have hle := h.bounded (v + 1) rfl
    omega
  subst hv
  have hmutex : Mutex true fun a => holds a = true := h.mutex
  refine ⟨?_, by simp, fun _ => ⟨a, Function.update_self ..⟩, fun w hw => ?_⟩
  · refine hmutex.enter (i := a) fun b hb hholds => ?_
    rwa [Function.update_of_ne hb] at hholds
  · obtain rfl := Option.some.inj hw
    exact Nat.zero_le _

/-- The thread that has it gives it back. -/
theorem Held.signal [DecidableEq τ] (h : Held (some v) holds) (ha : holds a = true) :
    Held (some (v + 1)) (Function.update holds a false) := by
  have hv : v = 0 := by
    by_contra hne
    have hle := h.bounded v rfl
    obtain rfl : v = 1 := by omega
    exact h.mutex.nobody (by simp) a ha
  subst hv
  refine ⟨?_, by simp, by simp, fun w hw => ?_⟩
  · refine h.mutex.leave ha (by simp) fun b hb hholds => ?_
    rwa [Function.update_of_ne hb] at hholds
  · obtain rfl := Option.some.inj hw
    exact Nat.le_refl _

end Held

/-- Nobody holds the number. -/
theorem held_none_iff {holds : τ → Bool} : Held none holds ↔ ∀ a, holds a = false :=
  ⟨fun h => h.nobody rfl, Held.delete⟩

end Locks

/-! ## 5. What holds after every step -/

/-- The table and the memory: what is allocated is below the next number, and no two entries point
to one `sem_t`. -/
structure Table (s : Semas) : Prop where
  fresh : s.heap.Fresh
  fill : s.heap.fill = none
  apart : ∀ i j p, s.sem i = some p → s.sem j = some p → i = j
  below : ∀ i p, s.sem i = some p → p < s.heap.next
  inside : ∀ i p, s.sem i = some p → i < semaCount

theorem table_start (grants : ℕ → Bool) : Table (semasStart grants) where
  fresh _ _ := rfl
  fill := rfl
  apart _ _ _ h := by cases h
  below _ _ h := by cases h
  inside _ _ h := by cases h

section Tables

variable {s : Semas} {heap : Heap SemT} {n p : ℕ}

/-- Something happens to the memory. -/
theorem Table.memory (h : Table s) (hfresh : heap.Fresh) (hfill : heap.fill = s.heap.fill)
    (hnext : s.heap.next ≤ heap.next) : Table { s with heap := heap } where
  fresh := hfresh
  fill := hfill.trans h.fill
  apart := h.apart
  below i p hi := Nat.lt_of_lt_of_le (h.below i p hi) hnext
  inside := h.inside

/-- An entry is cleared. -/
theorem Table.clear (h : Table s) (n : ℕ) :
    Table { s with sem := Function.update s.sem n none } := by
  have hold : ∀ i p, Function.update s.sem n none i = some p → s.sem i = some p := by
    intro i p hi
    by_cases hin : i = n
    · subst hin
      rw [Function.update_self] at hi
      cases hi
    · rwa [Function.update_of_ne hin] at hi
  exact ⟨h.fresh, h.fill, fun i j p hi hj => h.apart i j p (hold i p hi) (hold j p hj),
    fun i p hi => h.below i p (hold i p hi), fun i p hi => h.inside i p (hold i p hi)⟩

/-- An entry points to what was never allocated before. -/
theorem Table.point (h : Table s) (hn : n < semaCount) (hfresh : heap.Fresh)
    (hfill : heap.fill = s.heap.fill) (hnext : heap.next = s.heap.next + 1) :
    Table { sem := Function.update s.sem n (some s.heap.next), heap := heap } := by
  have hentry : ∀ i p, Function.update s.sem n (some s.heap.next) i = some p →
      (i = n ∧ p = s.heap.next) ∨ (s.sem i = some p ∧ p < s.heap.next) := by
    intro i p hi
    by_cases hin : i = n
    · subst hin
      rw [Function.update_self] at hi
      exact .inl ⟨rfl, (Option.some.inj hi).symm⟩
    · rw [Function.update_of_ne hin] at hi
      exact .inr ⟨hi, h.below i p hi⟩
  refine ⟨hfresh, hfill.trans h.fill, fun i j p hi hj => ?_, fun i p hi => ?_, fun i p hi => ?_⟩
  · rcases hentry i p hi with ⟨rfl, rfl⟩ | ⟨hi, hlt⟩
    · rcases hentry j _ hj with ⟨rfl, -⟩ | ⟨-, hlt⟩
      · rfl
      · exact absurd hlt (Nat.lt_irrefl _)
    · rcases hentry j p hj with ⟨-, rfl⟩ | ⟨hj, -⟩
      · exact absurd hlt (Nat.lt_irrefl _)
      · exact h.apart i j p hi hj
  · change p < heap.next
    rw [hnext]
    rcases hentry i p hi with ⟨-, rfl⟩ | ⟨-, hlt⟩
    · exact Nat.lt_succ_self _
    · exact Nat.lt_succ_of_lt hlt
  · rcases hentry i p hi with ⟨rfl, -⟩ | ⟨hi, -⟩
    · exact hn
    · exact h.inside i p hi

/-- What happens to the `sem_t` of one entry leaves those of the others. -/
theorem Table.other (h : Table s) (hsem : s.sem n = some p) {m q : ℕ} (hm : m ≠ n)
    (hq : s.sem m = some q) (cells : Option (List SemT)) :
    Function.update s.heap.blocks p cells q = s.heap.blocks q := by
  refine Function.update_of_ne ?_ ..
  rintro rfl
  exact hm (h.apart m n q hq hsem)

end Tables

section Sound

variable {τ : Type}

/-- A number that nobody makes or deletes a semaphore for: there is one that is used as a lock, or
there is none and nobody holds it. -/
def Stands (s : Semas) (n : ℕ) (holds : τ → Bool) : Prop :=
  (s.sem n = none ∧ Held none holds) ∨
    ∃ p v, s.sem n = some p ∧ s.heap.blocks p = some [some v] ∧ Held (some v) holds

/-- What thread `a` finds at the entry that it works on. -/
def Place.Finds (k : Place) (a : τ) (s : Semas) (holds : ℕ → τ → Bool) : Prop :=
  match k with
  | .looking .. => True
  | .storing _ n => n < semaCount ∧ s.sem n = none ∧ Held none (holds n)
  | .testing _ n => n < semaCount ∧ Held none (holds n) ∧
      ∀ p, s.sem n = some p → s.heap.blocks p = some [none]
  | .initialising _ n => Held none (holds n) ∧ ∃ p, s.sem n = some p ∧ s.heap.blocks p = some [none]
  | .destroying n _ => (∀ b, holds n b = false) ∧
      ∃ p v, s.sem n = some p ∧ s.heap.blocks p = some [some v] ∧ Held (some v) (holds n)
  | .freeing n _ => Held none (holds n) ∧ ∃ p c, s.sem n = some p ∧ s.heap.blocks p = some c
  | .clearing n _ => Held none (holds n) ∧ s.sem n ≠ none
  | .waiting n _ => s.sem n ≠ none
  | .suspended n p _ => s.sem n = some p
  | .posting n => s.sem n ≠ none ∧ holds n a = true

/-- **What holds after every step.**  A number at which no semaphore is made or deleted stands; each
thread finds what it needs; who makes or deletes a semaphore is alone at its number; and one thread
at most is in `CreateSema`. -/
structure Sound (s : Threads τ) : Prop where
  table : Table s.semas
  stands : ∀ n, (∀ a, ∀ k ∈ s.place a, k.number = some n → k.alters = false) →
    Stands s.semas n (s.holds n)
  finds : ∀ a, ∀ k ∈ s.place a, k.Finds a s.semas s.holds
  alone : ∀ a b n, a ≠ b → ∀ k ∈ s.place a, ∀ k' ∈ s.place b, k.number = some n →
    k'.number = some n → k.alters = false
  creates : ∀ a b, ∀ k ∈ s.place a, ∀ k' ∈ s.place b, k.creates = true → k'.creates = true → a = b

theorem sound_start (grants : ℕ → Bool) : Sound (τ := τ) { semas := semasStart grants } where
  table := table_start grants
  stands _ _ := .inl ⟨rfl, held_none⟩
  finds _ _ h := by cases h
  alone _ _ _ _ _ h := by cases h
  creates _ _ _ h := by cases h

variable {s : Threads τ} {a : τ} {n : ℕ} {semas : Semas} {holds : ℕ → τ → Bool}

/-- Every number is a lock or held by nobody. -/
theorem Sound.held (h : Sound s) (n : ℕ) : ∃ count, Held count (s.holds n) := by
  by_cases hat : ∃ a, ∃ k ∈ s.place a, k.number = some n ∧ k.alters = true
  · obtain ⟨a, k, hk, hn, halters⟩ := hat
    have hfinds := h.finds a k hk
    cases k with
    | looking | waiting | suspended | posting => cases halters
    | storing _ m =>
      obtain rfl := Option.some.inj hn
      exact ⟨none, hfinds.2.2⟩
    | testing _ m =>
      obtain rfl := Option.some.inj hn
      exact ⟨none, hfinds.2.1⟩
    | destroying m _ =>
      obtain rfl := Option.some.inj hn
      exact ⟨none, Held.delete hfinds.1⟩
    | _ =>
      obtain rfl := Option.some.inj hn
      exact ⟨none, hfinds.1⟩
  · have hno : ∀ a, ∀ k ∈ s.place a, k.number = some n → k.alters = false := by
      intro a k hk hn
      by_contra halters
      exact hat ⟨a, k, hk, hn, by simpa using halters⟩
    rcases h.stands n hno with ⟨-, hheld⟩ | ⟨p, v, -, -, hheld⟩
    · exact ⟨none, hheld⟩
    · exact ⟨some v, hheld⟩

/-- An entry that somebody works on is one of the table. -/
theorem Place.Finds.lt {k : Place} (h : k.Finds a semas holds) (htable : Table semas)
    (hn : k.number = some n) : n < semaCount := by
  have hentry : semas.sem n ≠ none → n < semaCount := by
    intro hsem
    obtain ⟨p, hp⟩ := Option.ne_none_iff_exists'.mp hsem
    exact htable.inside n p hp
  cases k with
  | looking => cases hn
  | storing _ m | testing _ m =>
    obtain rfl := Option.some.inj hn
    exact h.1
  | initialising _ m =>
    obtain rfl := Option.some.inj hn
    obtain ⟨-, p, hp, -⟩ := h
    exact htable.inside _ p hp
  | destroying m _ =>
    obtain rfl := Option.some.inj hn
    obtain ⟨-, p, v, hp, -⟩ := h
    exact htable.inside _ p hp
  | freeing m _ =>
    obtain rfl := Option.some.inj hn
    obtain ⟨-, p, c, hp, -⟩ := h
    exact htable.inside _ p hp
  | clearing m _ =>
    obtain rfl := Option.some.inj hn
    exact hentry h.2
  | waiting m _ =>
    obtain rfl := Option.some.inj hn
    exact hentry h
  | suspended m p _ =>
    obtain rfl := Option.some.inj hn
    exact htable.inside _ p h
  | posting m =>
    obtain rfl := Option.some.inj hn
    exact hentry h.1

/-- What happens elsewhere. -/
theorem Place.Finds.frame {k : Place} (h : k.Finds a s.semas s.holds)
    (hn : ∀ n, k.number = some n → semas.sem n = s.semas.sem n ∧
      (∀ p, s.semas.sem n = some p → semas.heap.blocks p = s.semas.heap.blocks p) ∧
      holds n = s.holds n) : k.Finds a semas holds := by
  cases k with
  | looking => trivial
  | storing _ n =>
    obtain ⟨hsem, -, hholds⟩ := hn n rfl
    exact ⟨h.1, hsem.trans h.2.1, hholds ▸ h.2.2⟩
  | testing _ n =>
    obtain ⟨hsem, hblocks, hholds⟩ := hn n rfl
    exact ⟨h.1, hholds ▸ h.2.1, fun p hp => (hblocks p (hsem ▸ hp)).trans (h.2.2 p (hsem ▸ hp))⟩
  | initialising _ n =>
    obtain ⟨hsem, hblocks, hholds⟩ := hn n rfl
    obtain ⟨hheld, p, hp, hcells⟩ := h
    exact ⟨hholds ▸ hheld, p, hsem.trans hp, (hblocks p hp).trans hcells⟩
  | destroying n _ =>
    obtain ⟨hsem, hblocks, hholds⟩ := hn n rfl
    obtain ⟨hnobody, p, v, hp, hcells, hheld⟩ := h
    rw [Finds, hholds]
    exact ⟨hnobody, p, v, hsem.trans hp, (hblocks p hp).trans hcells, hheld⟩
  | freeing n _ =>
    obtain ⟨hsem, hblocks, hholds⟩ := hn n rfl
    obtain ⟨hheld, p, c, hp, hcells⟩ := h
    exact ⟨hholds ▸ hheld, p, c, hsem.trans hp, (hblocks p hp).trans hcells⟩
  | clearing n _ =>
    obtain ⟨hsem, -, hholds⟩ := hn n rfl
    exact ⟨hholds ▸ h.1, hsem ▸ h.2⟩
  | waiting n _ =>
    obtain ⟨hsem, -, -⟩ := hn n rfl
    rw [Finds, hsem]
    exact h
  | suspended n p _ =>
    obtain ⟨hsem, -, -⟩ := hn n rfl
    exact hsem.trans h
  | posting n =>
    obtain ⟨hsem, -, hholds⟩ := hn n rfl
    rw [Finds, hsem, hholds]
    exact h

/-- A thread that uses a semaphore does not mind what the others do with it. -/
theorem Place.Finds.shared {k : Place} (h : k.Finds a s.semas s.holds) (halters : k.alters = false)
    (hn : k.number = some n) (hsem : semas.sem n = s.semas.sem n)
    (hholds : holds n a = s.holds n a) : k.Finds a semas holds := by
  cases k with
  | looking => trivial
  | waiting m _ =>
    obtain rfl := Option.some.inj hn
    rw [Finds, hsem]
    exact h
  | suspended m p _ =>
    obtain rfl := Option.some.inj hn
    exact hsem.trans h
  | posting m =>
    obtain rfl := Option.some.inj hn
    rw [Finds, hsem, hholds]
    exact h
  | _ => cases halters

/-- Who makes or deletes a semaphore is alone at its number. -/
theorem Sound.nobody_else (h : Sound s) {k : Place} (hk : k ∈ s.place a)
    (halters : k.alters = true) (hn : k.number = some n) :
    ∀ b, b ≠ a → ∀ k' ∈ s.place b, k'.number ≠ some n := by
  intro b hb k' hk' hn'
  rw [h.alone a b n (Ne.symm hb) k hk k' hk' hn hn'] at halters
  cases halters

/-- Nobody works on an entry that a call of `CreateSema` finds free. -/
theorem Sound.nobody_at_free (h : Sound s) {k : Place} (hk : k ∈ s.place a)
    (hcreates : k.creates = true) (hn : k.number = none) (hsem : s.semas.sem n = none) :
    ∀ b, ∀ k' ∈ s.place b, k'.number ≠ some n := by
  intro b k' hk' hn'
  have hother : k'.creates = false := by
    by_contra hc
    obtain rfl := h.creates a b k hk k' hk' hcreates (by simpa using hc)
    obtain rfl := Option.some.inj (hk.symm.trans hk')
    rw [hn] at hn'
    cases hn'
  have hfinds := h.finds b k' hk'
  cases k' with
  | looking | storing | testing | initialising => cases hother
  | destroying m _ =>
    obtain rfl := Option.some.inj hn'
    obtain ⟨-, p, v, hp, -⟩ := hfinds
    rw [hsem] at hp
    cases hp
  | freeing m _ =>
    obtain rfl := Option.some.inj hn'
    obtain ⟨-, p, c, hp, -⟩ := hfinds
    rw [hsem] at hp
    cases hp
  | clearing m _ =>
    obtain rfl := Option.some.inj hn'
    exact hfinds.2 hsem
  | waiting m _ =>
    obtain rfl := Option.some.inj hn'
    exact hfinds hsem
  | suspended m p _ =>
    obtain rfl := Option.some.inj hn'
    rw [Place.Finds, hsem] at hfinds
    cases hfinds
  | posting m =>
    obtain rfl := Option.some.inj hn'
    exact hfinds.1 hsem

/-- Calls of `CreateSema` do not overlap. -/
theorem Sound.creates_alone (h : Sound s) {k : Place} (hk : k ∈ s.place a)
    (hcreates : k.creates = true) : ∀ b, b ≠ a → ∀ k' ∈ s.place b, k'.creates = false := by
  intro b hb k' hk'
  by_contra hc
  exact hb (h.creates a b k hk k' hk' hcreates (by simpa using hc)).symm

/-- The thread's own place is the only one. -/
theorem place_eq {k k' : Place} (hk : k ∈ s.place a) (hk' : k' ∈ s.place a) : k' = k :=
  Option.some.inj (hk'.symm.trans hk)

variable [DecidableEq τ]

/-- **A step of thread `a` at number `n`**, after which it is at `x`. -/
theorem Sound.move (h : Sound s) {x : Option Place} {returned : List (τ × Reply)}
    (hplace : ∀ k ∈ s.place a, k.number = some n ∨ k.number = none)
    (hx : ∀ k ∈ x, k.number = some n ∨ k.number = none) (htable : Table semas)
    (hframe : ∀ m, m ≠ n → semas.sem m = s.semas.sem m ∧
      (∀ p, s.semas.sem m = some p → semas.heap.blocks p = s.semas.heap.blocks p) ∧
      holds m = s.holds m)
    (hfinds : ∀ k ∈ x, k.Finds a semas holds)
    (hothers : ∀ b, b ≠ a → ∀ k ∈ s.place b, k.number = some n →
      k.Finds b semas holds ∧ k.alters = false ∧ ∀ k' ∈ x, k'.number = some n → k'.alters = false)
    (hstands : (∀ k ∈ x, k.number = some n → k.alters = false) → Stands semas n (holds n))
    (hcreates : ∀ k ∈ x, k.creates = true → ∀ b, b ≠ a → ∀ k' ∈ s.place b, k'.creates = false) :
    Sound { semas := semas, place := Function.update s.place a x, holds := holds,
            returned := returned } := by
  -- where a thread is after the step
  have hat : ∀ b, ∀ k ∈ Function.update s.place a x b,
      (b = a ∧ k ∈ x) ∨ (b ≠ a ∧ k ∈ s.place b) := by
    intro b k hk
    by_cases hb : b = a
    · subst hb
      rw [Function.update_self] at hk
      exact .inl ⟨rfl, hk⟩
    · rw [Function.update_of_ne hb] at hk
      exact .inr ⟨hb, hk⟩
  refine ⟨htable, fun m hm => ?_, fun b k hk => ?_, fun b c m hbc k hk k' hk' hn hn' => ?_,
    fun b c k hk k' hk' hc hc' => ?_⟩
  · by_cases hmn : m = n
    · subst hmn
      refine hstands fun k hk hn => hm a k ?_ hn
      change k ∈ Function.update s.place a x a
      rw [Function.update_self]
      exact hk
    · obtain ⟨hsem, hblocks, hholds⟩ := hframe m hmn
      have hold : Stands s.semas m (s.holds m) := by
        refine h.stands m fun b k hk hn => ?_
        by_cases hb : b = a
        · subst hb
          rcases hplace k hk with hk | hk
          · exact absurd (Option.some.inj (hn.symm.trans hk)) hmn
          · rw [hk] at hn
            cases hn
        · refine hm b k ?_ hn
          change k ∈ Function.update s.place a x b
          rw [Function.update_of_ne hb]
          exact hk
      change Stands semas m (holds m)
      rw [hholds]
      rcases hold with ⟨hnone, hheld⟩ | ⟨p, v, hp, hcells, hheld⟩
      · exact .inl ⟨hsem.trans hnone, hheld⟩
      · exact .inr ⟨p, v, hsem.trans hp, (hblocks p hp).trans hcells, hheld⟩
  · rcases hat b k hk with ⟨rfl, hkx⟩ | ⟨hb, hkb⟩
    · exact hfinds k hkx
    · by_cases hn : k.number = some n
      · exact (hothers b hb k hkb hn).1
      · refine (h.finds b k hkb).frame fun m hm => hframe m ?_
        rintro rfl
        exact hn hm
  · rcases hat b k hk with ⟨rfl, hkx⟩ | ⟨hb, hkb⟩
    · rcases hat c k' hk' with ⟨rfl, -⟩ | ⟨hc, hkc⟩
      · exact absurd rfl hbc
      · rcases hx k hkx with hkn | hkn
        · obtain rfl := Option.some.inj (hkn.symm.trans hn)
          exact (hothers c hc k' hkc hn').2.2 k hkx hn
        · rw [hkn] at hn
          cases hn
    · rcases hat c k' hk' with ⟨rfl, hkx⟩ | ⟨hc, hkc⟩
      · rcases hx k' hkx with hkn | hkn
        · obtain rfl := Option.some.inj (hkn.symm.trans hn')
          exact (hothers b hb k hkb hn).2.1
        · rw [hkn] at hn'
          cases hn'
      · exact h.alone b c m hbc k hkb k' hkc hn hn'
  · rcases hat b k hk with ⟨rfl, hkx⟩ | ⟨hb, hkb⟩
    · rcases hat c k' hk' with ⟨rfl, -⟩ | ⟨hcb, hkc⟩
      · rfl
      · rw [hcreates k hkx hc c hcb k' hkc] at hc'
        cases hc'
    · rcases hat c k' hk' with ⟨rfl, hkx⟩ | ⟨-, hkc⟩
      · rw [hcreates k' hkx hc' b hb k hkb] at hc
        cases hc
      · exact h.creates b c k hkb k' hkc hc hc'

/-- A step of thread `a` that changes nothing but where it is. -/
theorem Sound.goes (h : Sound s) {x : Option Place} {returned : List (τ × Reply)}
    (hplace : ∀ k ∈ s.place a, k.number = some n ∨ k.number = none)
    (hx : ∀ k ∈ x, k.number = some n ∨ k.number = none)
    (hfinds : ∀ k ∈ x, k.Finds a s.semas s.holds)
    (hothers : ∀ b, b ≠ a → ∀ k ∈ s.place b, k.number = some n →
      k.alters = false ∧ ∀ k' ∈ x, k'.number = some n → k'.alters = false)
    (hstands : (∀ k ∈ x, k.number = some n → k.alters = false) → Stands s.semas n (s.holds n))
    (hcreates : ∀ k ∈ x, k.creates = true → ∀ b, b ≠ a → ∀ k' ∈ s.place b, k'.creates = false) :
    Sound { s with place := Function.update s.place a x, returned := returned } :=
  h.move hplace hx h.table (fun _ _ => ⟨rfl, fun _ _ => rfl, rfl⟩) hfinds
    (fun b hb k hk hn => ⟨h.finds b k hk, hothers b hb k hk hn⟩) hstands hcreates

/-- A thread that works on no entry before and after its step. -/
theorem Sound.roams (h : Sound s) {x : Option Place} {returned : List (τ × Reply)}
    (hplace : ∀ k ∈ s.place a, k.number = none) (hx : ∀ k ∈ x, k.number = none)
    (hcreates : ∀ k ∈ x, k.creates = true → ∀ b, b ≠ a → ∀ k' ∈ s.place b, k'.creates = false) :
    Sound { s with place := Function.update s.place a x, returned := returned } := by
  -- nobody works on an entry behind the table
  have hbehind : ∀ b, ∀ k ∈ s.place b, k.number ≠ some semaCount := fun b k hk hn =>
    Nat.lt_irrefl _ ((h.finds b k hk).lt h.table hn)
  refine h.goes (n := semaCount) (fun k hk => .inr (hplace k hk)) (fun k hk => .inr (hx k hk))
    (fun k hk => ?_) (fun b _ k hk hn => absurd hn (hbehind b k hk))
    (fun _ => h.stands _ fun b k hk hn => absurd hn (hbehind b k hk)) hcreates
  have hn := hx k hk
  cases k with
  | looking => trivial
  | _ => cases hn

/-- A step of a thread that makes or deletes the semaphore of its entry. -/
theorem Sound.owns (h : Sound s) {k : Place} (hk : k ∈ s.place a) (halters : k.alters = true)
    (hn : k.number = some n) {x : Option Place} {returned : List (τ × Reply)}
    (hx : ∀ k' ∈ x, k'.number = some n) (htable : Table semas)
    (hframe : ∀ m, m ≠ n → semas.sem m = s.semas.sem m ∧
      ∀ p, s.semas.sem m = some p → semas.heap.blocks p = s.semas.heap.blocks p)
    (hfinds : ∀ k' ∈ x, k'.Finds a semas s.holds)
    (hstands : (∀ k' ∈ x, k'.alters = false) → Stands semas n (s.holds n))
    (hcreates : ∀ k' ∈ x, k'.creates = true → k.creates = true) :
    Sound { semas := semas, place := Function.update s.place a x, holds := s.holds,
            returned := returned } := by
  have hplace : ∀ k' ∈ s.place a, k'.number = some n ∨ k'.number = none := by
    intro k' hk'
    rw [place_eq hk hk']
    exact .inl hn
  refine h.move hplace (fun k' hk' => .inl (hx k' hk')) htable
    (fun m hm => ⟨(hframe m hm).1, (hframe m hm).2, rfl⟩) hfinds
    (fun b hb k' hk' hn' => absurd hn' (h.nobody_else hk halters hn b hb k' hk'))
    (fun hno => hstands fun k' hk' => hno k' hk' (hx k' hk'))
    fun k' hk' hc => h.creates_alone hk (hcreates k' hk' hc)

/-- The state after thread `a`, at `k`, has come to `x`. -/
def Threads.after (a : τ) (k : Place) (x : Reply ⊕ Place) (semas : Semas) (s : Threads τ) :
    Threads τ :=
  match x with
  | .inl reply =>
    { semas := semas
      place := Function.update s.place a none
      holds := k.holdsAfter a reply.ret s.holds
      returned := s.returned ++ [(a, reply)] }
  | .inr k' => { s with place := Function.update s.place a (some k'), semas := semas }

section Turns

variable {x : Reply ⊕ Place}

theorem Sound.looking (h : Sound s) {semInit : ℤ} {i : ℕ} (hk : .looking semInit i ∈ s.place a)
    (hturn : semaTurn (.looking semInit i) s.semas = .ok (x, semas)) :
    Sound (s.after a (.looking semInit i) x semas) := by
  have hplace : ∀ k ∈ s.place a, k.number = none := by
    intro k hk'
    rw [place_eq hk hk']
    rfl
  have halone := h.creates_alone hk rfl
  rw [semaTurn] at hturn
  split at hturn
  · rename_i hlt
    split at hturn
    · obtain ⟨rfl, rfl⟩ := Prod.mk.inj (Except.ok.inj hturn)
      refine h.roams hplace (fun k hk' => ?_) fun _ _ _ => halone
      obtain rfl := Option.some.inj hk'
      rfl
    · rename_i hfree
      have hsem : s.semas.sem i = none := not_not.mp hfree
      obtain ⟨rfl, rfl⟩ := Prod.mk.inj (Except.ok.inj hturn)
      have hnobody := h.nobody_at_free hk rfl rfl hsem
      have hheld : Held none (s.holds i) := by
        rcases h.stands i fun b k' hk' hn => absurd hn (hnobody b k' hk') with
          ⟨-, hheld⟩ | ⟨p, v, hp, -⟩
        · exact hheld
        · rw [hsem] at hp
          cases hp
      refine h.goes (n := i) (fun k hk' => .inr (hplace k hk')) (fun k hk' => ?_)
        (fun k hk' => ?_) (fun b _ k hk' hn => absurd hn (hnobody b k hk'))
        (fun hno => by cases hno _ rfl rfl) fun _ _ _ => halone
      · obtain rfl := Option.some.inj hk'
        exact .inl rfl
      · obtain rfl := Option.some.inj hk'
        exact ⟨hlt, hsem, hheld⟩
  · obtain ⟨rfl, rfl⟩ := Prod.mk.inj (Except.ok.inj hturn)
    exact h.roams hplace (fun k hk' => by cases hk') (fun k hk' => by cases hk')

/-- `malloc`, and the pointer it returns in the entry. -/
theorem Sound.storing (h : Sound s) {semInit : ℤ} (hk : .storing semInit n ∈ s.place a)
    (hturn : semaTurn (.storing semInit n) s.semas = .ok (x, semas)) :
    Sound (s.after a (.storing semInit n) x semas) := by
  obtain ⟨hlt, hsem, hheld⟩ : Place.Finds (.storing semInit n) a s.semas s.holds := h.finds a _ hk
  rw [semaTurn] at hturn
  obtain ⟨rfl, rfl⟩ := Prod.mk.inj (Except.ok.inj hturn)
  refine h.owns hk rfl rfl (fun k' hk' => ?_) ?_ (fun m hm => ⟨Function.update_of_ne hm .., ?_⟩)
    (fun k' hk' => ?_) (fun hno => by cases hno _ rfl) fun _ _ _ => rfl
  · obtain rfl := Option.some.inj hk'
    rfl
  · cases hgrant : s.semas.heap.grants s.semas.heap.next with
    | false =>
      rw [Heap.malloc_refused hgrant]
      have hmemory : Table { s.semas with
          heap := { s.semas.heap with next := s.semas.heap.next + 1 } } :=
        h.table.memory h.table.fresh.skip rfl (Nat.le_succ _)
      exact hmemory.clear n
    | true =>
      obtain ⟨heap, hmalloc, -, -, hfresh, hnext, hgrants⟩ :=
        Heap.malloc_granted 1 h.table.fresh hgrant
      rw [hmalloc]
      refine h.table.point hlt hfresh ?_ hnext
      rw [Heap.malloc, if_pos hgrant] at hmalloc
      rw [← (Prod.mk.inj hmalloc).2]
  · intro p hp
    have hlt := h.table.below m p hp
    change (s.semas.heap.malloc 1).2.blocks p = _
    rw [Heap.malloc]
    split
    · exact Function.update_of_ne (Nat.ne_of_lt hlt) ..
    · rfl
  · obtain rfl := Option.some.inj hk'
    refine ⟨hlt, hheld, fun p hp => ?_⟩
    have hentry : Function.update s.semas.sem n (s.semas.heap.malloc 1).1 n = some p := hp
    rw [Function.update_self] at hentry
    change (s.semas.heap.malloc 1).2.blocks p = _
    rw [Heap.malloc] at hentry ⊢
    split at hentry
    · rename_i hgrant
      obtain rfl := Option.some.inj hentry
      rw [if_pos hgrant]
      refine (Function.update_self ..).trans ?_
      rw [h.table.fill]
      rfl
    · cases hentry

theorem Sound.testing (h : Sound s) {semInit : ℤ} (hk : .testing semInit n ∈ s.place a)
    (hturn : semaTurn (.testing semInit n) s.semas = .ok (x, semas)) :
    Sound (s.after a (.testing semInit n) x semas) := by
  obtain ⟨hlt, hheld, hcells⟩ : Place.Finds (.testing semInit n) a s.semas s.holds := h.finds a _ hk
  rw [semaTurn] at hturn
  split at hturn
  · rename_i hsem
    obtain ⟨p, hp⟩ := Option.ne_none_iff_exists'.mp hsem
    obtain ⟨rfl, rfl⟩ := Prod.mk.inj (Except.ok.inj hturn)
    refine h.owns hk rfl rfl (fun k' hk' => ?_) h.table (fun _ _ => ⟨rfl, fun _ _ => rfl⟩)
      (fun k' hk' => ?_) (fun hno => by cases hno _ rfl) fun _ _ _ => rfl
    · obtain rfl := Option.some.inj hk'
      rfl
    · obtain rfl := Option.some.inj hk'
      exact ⟨hheld, p, hp, hcells p hp⟩
  · rename_i hsem
    obtain ⟨rfl, rfl⟩ := Prod.mk.inj (Except.ok.inj hturn)
    exact h.owns hk rfl rfl (fun k' hk' => by cases hk') h.table (fun _ _ => ⟨rfl, fun _ _ => rfl⟩)
      (fun k' hk' => by cases hk') (fun _ => .inl ⟨not_not.mp hsem, hheld⟩)
      (fun k' hk' => by cases hk')

/-- A new value at the `sem_t` of an entry. -/
theorem Semas.put_ok {p v : ℕ} {cells : SemT} {reply : Reply} {s : Semas}
    (hp : s.heap.blocks p = some [cells]) : s.put p v reply = .ok (reply,
      { s with heap := { s.heap with
        blocks := Function.update s.heap.blocks p (some [some v]) } }) := by
  rw [Semas.put, Heap.store_eq (p := ⟨p, 0⟩) hp Nat.one_pos]
  rfl

/-- A new value at an allocated place leaves the table in order. -/
theorem Table.put {s : Semas} (h : Table s) {p : ℕ} (hp : p < s.heap.next)
    (cells : Option (List SemT)) :
    Table { s with heap := { s.heap with blocks := Function.update s.heap.blocks p cells } } := by
  refine h.memory (fun q hq => ?_) rfl (Nat.le_refl _)
  have hle : s.heap.next ≤ q := hq
  exact (Function.update_of_ne (by omega) ..).trans (h.fresh q hle)

theorem Sound.initialising (h : Sound s) {semInit : ℤ}
    (hk : .initialising semInit n ∈ s.place a)
    (hturn : semaTurn (.initialising semInit n) s.semas = .ok (x, semas)) :
    Sound (s.after a (.initialising semInit n) x semas) := by
  obtain ⟨hheld, p, hp, hcells⟩ : Place.Finds (.initialising semInit n) a s.semas s.holds :=
    h.finds a _ hk
  simp only [semaTurn, Semas.use, hp] at hturn
  split at hturn
  · rw [Semas.put_ok hcells] at hturn
    obtain ⟨rfl, rfl⟩ := Prod.mk.inj (Except.ok.inj hturn)
    refine h.owns hk rfl rfl (fun k' hk' => by cases hk')
      (h.table.put (h.table.below n p hp) _)
      (fun m hm => ⟨rfl, fun q hq => h.table.other hp hm hq _⟩) (fun k' hk' => by cases hk')
      (fun _ => .inr ⟨p, 1, hp, Function.update_self .., hheld.create⟩)
      (fun k' hk' => by cases hk')
  · obtain ⟨rfl, rfl⟩ := Prod.mk.inj (Except.ok.inj hturn)
    refine h.owns hk rfl rfl (fun k' hk' => ?_) h.table (fun _ _ => ⟨rfl, fun _ _ => rfl⟩)
      (fun k' hk' => ?_) (fun hno => by cases hno _ rfl) fun _ _ _ => rfl
    · obtain rfl := Option.some.inj hk'
      rfl
    · obtain rfl := Option.some.inj hk'
      exact ⟨hheld, p, _, hp, hcells⟩

theorem Semas.value_eq {s : Semas} {p v : ℕ} (hp : s.heap.blocks p = some [some v]) :
    s.value p = some v := by
  simp [Semas.value, hp]

theorem Sound.destroying (h : Sound s) {semDestroy : ℤ}
    (hk : .destroying n semDestroy ∈ s.place a)
    (hturn : semaTurn (.destroying n semDestroy) s.semas = .ok (x, semas)) :
    Sound (s.after a (.destroying n semDestroy) x semas) := by
  obtain ⟨hnobody, p, v, hp, hcells, hheld⟩ :
    Place.Finds (.destroying n semDestroy) a s.semas s.holds := h.finds a _ hk
  simp only [semaTurn, Semas.use, hp, Semas.value_eq hcells] at hturn
  split at hturn
  · obtain ⟨rfl, rfl⟩ := Prod.mk.inj (Except.ok.inj hturn)
    refine h.owns hk rfl rfl (fun k' hk' => ?_) h.table (fun _ _ => ⟨rfl, fun _ _ => rfl⟩)
      (fun k' hk' => ?_) (fun hno => by cases hno _ rfl) fun k' hk' hc => ?_
    · obtain rfl := Option.some.inj hk'
      rfl
    · obtain rfl := Option.some.inj hk'
      exact ⟨Held.delete hnobody, p, _, hp, hcells⟩
    · obtain rfl := Option.some.inj hk'
      cases hc
  · obtain ⟨rfl, rfl⟩ := Prod.mk.inj (Except.ok.inj hturn)
    exact h.owns hk rfl rfl (fun k' hk' => by cases hk') h.table (fun _ _ => ⟨rfl, fun _ _ => rfl⟩)
      (fun k' hk' => by cases hk') (fun _ => .inr ⟨p, v, hp, hcells, hheld⟩)
      (fun k' hk' => by cases hk')

theorem Sound.freeing (h : Sound s) {reply : Reply} (hk : .freeing n reply ∈ s.place a)
    (hturn : semaTurn (.freeing n reply) s.semas = .ok (x, semas)) :
    Sound (s.after a (.freeing n reply) x semas) := by
  obtain ⟨hheld, p, c, hp, hcells⟩ : Place.Finds (.freeing n reply) a s.semas s.holds :=
    h.finds a _ hk
  simp only [semaTurn, hp, Heap.free_eq hcells] at hturn
  obtain ⟨rfl, rfl⟩ := Prod.mk.inj (Except.ok.inj hturn)
  refine h.owns hk rfl rfl (fun k' hk' => ?_) (h.table.put (h.table.below n p hp) _)
    (fun m hm => ⟨rfl, fun q hq => h.table.other hp hm hq _⟩) (fun k' hk' => ?_)
    (fun hno => by cases hno _ rfl) fun k' hk' hc => ?_
  · obtain rfl := Option.some.inj hk'
    rfl
  · obtain rfl := Option.some.inj hk'
    refine ⟨hheld, ?_⟩
    change s.semas.sem n ≠ none
    simp [hp]
  · obtain rfl := Option.some.inj hk'
    cases hc

theorem Sound.clearing (h : Sound s) {reply : Reply} (hk : .clearing n reply ∈ s.place a)
    (hturn : semaTurn (.clearing n reply) s.semas = .ok (x, semas)) :
    Sound (s.after a (.clearing n reply) x semas) := by
  obtain ⟨hheld, -⟩ : Place.Finds (.clearing n reply) a s.semas s.holds := h.finds a _ hk
  rw [semaTurn] at hturn
  obtain ⟨rfl, rfl⟩ := Prod.mk.inj (Except.ok.inj hturn)
  exact h.owns hk rfl rfl (fun k' hk' => by cases hk') (h.table.clear n)
    (fun m hm => ⟨Function.update_of_ne hm .., fun _ _ => rfl⟩) (fun k' hk' => by cases hk')
    (fun _ => .inl ⟨Function.update_self .., hheld⟩) (fun k' hk' => by cases hk')

/-- A thread that uses a semaphore: no one makes or deletes it, and it is a lock. -/
theorem Sound.used (h : Sound s) {k : Place} (hk : k ∈ s.place a) (halters : k.alters = false)
    (hn : k.number = some n) {p : ℕ} (hp : s.semas.sem n = some p) :
    (∀ b, ∀ k' ∈ s.place b, k'.number = some n → k'.alters = false) ∧
      ∃ v, s.semas.heap.blocks p = some [some v] ∧ Held (some v) (s.holds n) := by
  have hno : ∀ b, ∀ k' ∈ s.place b, k'.number = some n → k'.alters = false := by
    intro b k' hk' hn'
    by_cases hb : b = a
    · subst hb
      rw [place_eq hk hk']
      exact halters
    · exact h.alone b a n hb k' hk' k hk hn' hn
  refine ⟨hno, ?_⟩
  rcases h.stands n hno with ⟨hnone, -⟩ | ⟨q, v, hq, hcells, hheld⟩
  · rw [hnone] at hp
    cases hp
  · obtain rfl := Option.some.inj (hq.symm.trans hp)
    exact ⟨v, hcells, hheld⟩

/-- A step of a thread that uses a semaphore: at most its value changes, and what the thread
holds. -/
theorem Sound.uses (h : Sound s) {k : Place} (hk : k ∈ s.place a) (halters : k.alters = false)
    (hn : k.number = some n) {p : ℕ} (hp : s.semas.sem n = some p) {y : Option Place} {v : ℕ}
    {mine : τ → Bool} {returned : List (τ × Reply)}
    (hy : ∀ k' ∈ y, k'.number = some n ∧ k'.alters = false ∧ k'.creates = false)
    (hfinds : ∀ k' ∈ y, k'.Finds a { s.semas with heap := { s.semas.heap with
      blocks := Function.update s.semas.heap.blocks p (some [some v]) } }
        (Function.update s.holds n mine))
    (hmine : ∀ b, b ≠ a → mine b = s.holds n b) (hheld : Held (some v) mine) :
    Sound
      { semas := { s.semas with heap := { s.semas.heap with
          blocks := Function.update s.semas.heap.blocks p (some [some v]) } }
        place := Function.update s.place a y
        holds := Function.update s.holds n mine
        returned := returned } := by
  obtain ⟨hno, -⟩ := h.used hk halters hn hp
  refine h.move (n := n) (fun k' hk' => ?_) (fun k' hk' => .inl (hy k' hk').1)
    (h.table.put (h.table.below n p hp) _)
    (fun m hm => ⟨rfl, fun q hq => h.table.other hp hm hq _, Function.update_of_ne hm ..⟩) hfinds
    (fun b hb k' hk' hn' => ⟨?_, hno b k' hk' hn', fun k'' hk'' _ => (hy k'' hk'').2.1⟩)
    (fun _ => ?_) fun k' hk' hc => ?_
  · rw [place_eq hk hk']
    exact .inl hn
  · refine (h.finds b k' hk').shared (hno b k' hk' hn') hn' rfl ?_
    rw [Function.update_self, hmine b hb]
  · rw [Function.update_self]
    exact .inr ⟨p, v, hp, Function.update_self .., hheld⟩
  · rw [(hy k' hk').2.2] at hc
    cases hc

/-- A step of such a thread that changes nothing but where it is. -/
theorem Sound.stays (h : Sound s) {k : Place} (hk : k ∈ s.place a) (halters : k.alters = false)
    (hn : k.number = some n) {p : ℕ} (hp : s.semas.sem n = some p) {y : Option Place}
    {returned : List (τ × Reply)}
    (hy : ∀ k' ∈ y, k'.number = some n ∧ k'.alters = false ∧ k'.creates = false)
    (hfinds : ∀ k' ∈ y, k'.Finds a s.semas s.holds) :
    Sound { s with place := Function.update s.place a y, returned := returned } := by
  obtain ⟨hno, -⟩ := h.used hk halters hn hp
  refine h.goes (n := n) (fun k' hk' => ?_) (fun k' hk' => .inl (hy k' hk').1) hfinds
    (fun b _ k' hk' hn' => ⟨hno b k' hk' hn', fun k'' hk'' _ => (hy k'' hk'').2.1⟩)
    (fun _ => h.stands n hno) fun k' hk' hc => ?_
  · rw [place_eq hk hk']
    exact .inl hn
  · rw [(hy k' hk').2.2] at hc
    cases hc

theorem Sound.waiting (h : Sound s) {interrupted : Bool} (hk : .waiting n interrupted ∈ s.place a)
    (hturn : semaTurn (.waiting n interrupted) s.semas = .ok (x, semas)) :
    Sound (s.after a (.waiting n interrupted) x semas) := by
  obtain ⟨p, hp⟩ := Option.ne_none_iff_exists'.mp (h.finds a _ hk)
  simp only [semaTurn, Semas.use, hp] at hturn
  obtain ⟨rfl, rfl⟩ := Prod.mk.inj (Except.ok.inj hturn)
  refine h.stays hk rfl rfl hp (fun k' hk' => ?_) fun k' hk' => ?_
  · obtain rfl := Option.some.inj hk'
    exact ⟨rfl, rfl, rfl⟩
  · obtain rfl := Option.some.inj hk'
    exact hp

/-- `sem_wait`: the thread gets the semaphore, or is interrupted. -/
theorem Sound.suspended (h : Sound s) {p : ℕ} {interrupted : Bool}
    (hk : .suspended n p interrupted ∈ s.place a)
    (hturn : semaTurn (.suspended n p interrupted) s.semas = .ok (x, semas)) :
    Sound (s.after a (.suspended n p interrupted) x semas) := by
  have hp : s.semas.sem n = some p := h.finds a _ hk
  obtain ⟨-, v, hcells, hheld⟩ := h.used hk rfl rfl hp
  rw [semaTurn, semWait, Semas.value_eq hcells] at hturn
  cases v with
  | zero =>
    cases interrupted with
    | true =>
      obtain ⟨rfl, rfl⟩ := Prod.mk.inj (Except.ok.inj hturn)
      exact h.stays hk rfl rfl hp (fun k' hk' => by cases hk') (fun k' hk' => by cases hk')
    | false => cases hturn
  | succ v =>
    simp only [Semas.put_ok hcells] at hturn
    obtain ⟨rfl, rfl⟩ := Prod.mk.inj (Except.ok.inj hturn)
    exact h.uses hk rfl rfl hp (fun k' hk' => by cases hk') (fun k' hk' => by cases hk')
      (fun b hb => Function.update_of_ne hb ..) hheld.wait

/-- `sem_post`: the thread that holds the semaphore gives it back. -/
theorem Sound.posting (h : Sound s) (hk : .posting n ∈ s.place a)
    (hturn : semaTurn (.posting n) s.semas = .ok (x, semas)) :
    Sound (s.after a (.posting n) x semas) := by
  obtain ⟨hsem, hmine⟩ : Place.Finds (.posting n) a s.semas s.holds := h.finds a _ hk
  obtain ⟨p, hp⟩ := Option.ne_none_iff_exists'.mp hsem
  obtain ⟨-, v, hcells, hheld⟩ := h.used hk rfl rfl hp
  simp only [semaTurn, Semas.use, hp, semPost, Semas.value_eq hcells] at hturn
  by_cases hmax : v = semValueMax
  · rw [if_pos hmax] at hturn
    obtain ⟨rfl, rfl⟩ := Prod.mk.inj (Except.ok.inj hturn)
    exact h.stays hk rfl rfl hp (fun k' hk' => by cases hk') (fun k' hk' => by cases hk')
  · rw [if_neg hmax, Semas.put_ok hcells] at hturn
    obtain ⟨rfl, rfl⟩ := Prod.mk.inj (Except.ok.inj hturn)
    exact h.uses hk rfl rfl hp (fun k' hk' => by cases hk') (fun k' hk' => by cases hk')
      (fun b hb => Function.update_of_ne hb ..) (hheld.signal hmine)

/-- **A step of a call.** -/
theorem Sound.turn (h : Sound s) {k : Place} (hk : k ∈ s.place a)
    (hturn : semaTurn k s.semas = .ok (x, semas)) : Sound (s.after a k x semas) := by
  cases k with
  | looking semInit i => exact h.looking hk hturn
  | storing semInit n => exact h.storing hk hturn
  | testing semInit n => exact h.testing hk hturn
  | initialising semInit n => exact h.initialising hk hturn
  | destroying n semDestroy => exact h.destroying hk hturn
  | freeing n reply => exact h.freeing hk hturn
  | clearing n reply => exact h.clearing hk hturn
  | waiting n interrupted => exact h.waiting hk hturn
  | suspended n p interrupted => exact h.suspended hk hturn
  | posting n => exact h.posting hk hturn

/-- **No step does anything undefined.** -/
theorem Sound.defined (h : Sound s) {k : Place} (hk : k ∈ s.place a) :
    semaTurn k s.semas ≠ .error .undefined := by
  have hfinds := h.finds a k hk
  cases k with
  | looking semInit i =>
    rw [semaTurn]
    repeat' split
    all_goals simp
  | storing semInit n => simp [semaTurn]
  | testing semInit n =>
    rw [semaTurn]
    split <;> simp
  | initialising semInit n =>
    obtain ⟨-, p, hp, hcells⟩ := hfinds
    simp only [semaTurn, Semas.use, hp, Semas.put_ok hcells, replied]
    split <;> simp
  | destroying n semDestroy =>
    obtain ⟨-, p, v, hp, hcells, -⟩ := hfinds
    simp only [semaTurn, Semas.use, hp, Semas.value_eq hcells]
    split <;> simp
  | freeing n reply =>
    obtain ⟨-, p, c, hp, hcells⟩ := hfinds
    simp [semaTurn, hp, Heap.free_eq hcells]
  | clearing n reply => simp [semaTurn]
  | waiting n interrupted =>
    obtain ⟨p, hp⟩ := Option.ne_none_iff_exists'.mp hfinds
    simp [semaTurn, Semas.use, hp]
  | suspended n p interrupted =>
    obtain ⟨-, v, hcells, -⟩ := h.used hk rfl rfl hfinds
    rw [semaTurn, semWait, Semas.value_eq hcells]
    cases v with
    | zero => cases interrupted <;> simp [replied]
    | succ v => simp [Semas.put_ok hcells, replied]
  | posting n =>
    obtain ⟨p, hp⟩ := Option.ne_none_iff_exists'.mp hfinds.1
    obtain ⟨-, v, hcells, -⟩ := h.used hk rfl rfl hp
    simp only [semaTurn, Semas.use, hp, semPost, Semas.value_eq hcells]
    by_cases hmax : v = semValueMax
    · simp [if_pos hmax, replied]
    · simp [if_neg hmax, Semas.put_ok hcells, replied]

end Turns

section Calls

variable {e : Event} {k : Place}

theorem testSema_next {caller : Caller} {semid : ℤ} {next : Place} {s : Semas}
    (h : testSema caller semid next s = .inr k) : 0 ≤ semid ∧ s.sem semid.toNat ≠ none ∧ k = next := by
  unfold testSema at h
  split at h
  · rename_i hin
    split at h
    · rename_i hsem
      exact ⟨hin.1, hsem, (Sum.inr.inj h).symm⟩
    · cases h
  · cases h

omit [DecidableEq τ] in
/-- Nobody makes or deletes a semaphore that is held. -/
theorem Sound.unaltered (h : Sound s) (hholds : s.holds n a = true) :
    ∀ b, ∀ k ∈ s.place b, k.number = some n → k.alters = false := by
  intro b k hk hn
  have hfinds := h.finds b k hk
  -- where one is made or deleted nobody holds anything
  have hnobody : ¬ ∀ c, s.holds n c = false := by
    intro hno
    rw [hno a] at hholds
    cases hholds
  cases k with
  | looking | waiting | suspended | posting => rfl
  | storing _ m =>
    obtain rfl := Option.some.inj hn
    exact absurd (held_none_iff.mp hfinds.2.2) hnobody
  | testing _ m =>
    obtain rfl := Option.some.inj hn
    exact absurd (held_none_iff.mp hfinds.2.1) hnobody
  | destroying m _ =>
    obtain rfl := Option.some.inj hn
    exact absurd hfinds.1 hnobody
  | _ =>
    obtain rfl := Option.some.inj hn
    exact absurd (held_none_iff.mp hfinds.1) hnobody

/-- **A thread calls a function.** -/
theorem Sound.call (h : Sound s) (hout : s.place a = none) (hdisc : Disciplined (.call a e) s)
    (hstart : startSema e s.semas = .inr k) :
    Sound { s with place := Function.update s.place a (some k) } := by
  have hplace : ∀ {P : Place → Prop}, ∀ k ∈ s.place a, P k := by
    intro P k hk
    rw [hout] at hk
    cases hk
  cases e with
  | create semInit =>
    obtain rfl := Sum.inr.inj hstart
    refine h.roams hplace (fun k' hk' => ?_) fun _ _ _ b _ k' hk' => hdisc b k' hk'
    obtain rfl := Option.some.inj hk'
    rfl
  | delete semid semDestroy =>
    obtain ⟨hpos, hsem, rfl⟩ := testSema_next hstart
    obtain ⟨hnobody, hfree⟩ := hdisc hpos
    refine h.goes (n := semid.toNat) hplace (fun k' hk' => ?_) (fun k' hk' => ?_)
      (fun b _ k' hk' hn => absurd hn (hfree b k' hk')) (fun hno => by cases hno _ rfl rfl)
      fun k' hk' hc => ?_
    · obtain rfl := Option.some.inj hk'
      exact .inl rfl
    · obtain rfl := Option.some.inj hk'
      rcases h.stands semid.toNat fun b k' hk' hn => absurd hn (hfree b k' hk') with
        ⟨hnone, -⟩ | ⟨p, v, hp, hcells, hheld⟩
      · exact absurd hnone hsem
      · exact ⟨hnobody, p, v, hp, hcells, hheld⟩
    · obtain rfl := Option.some.inj hk'
      cases hc
  | wait semid interrupted =>
    obtain ⟨hpos, hsem, rfl⟩ := testSema_next hstart
    have hno := hdisc hpos
    refine h.goes (n := semid.toNat) hplace (fun k' hk' => ?_) (fun k' hk' => ?_)
      (fun b _ k' hk' hn => ⟨hno b k' hk' hn, fun k'' hk'' _ => ?_⟩)
      (fun _ => h.stands _ hno) fun k' hk' hc => ?_
    · obtain rfl := Option.some.inj hk'
      exact .inl rfl
    · obtain rfl := Option.some.inj hk'
      exact hsem
    · obtain rfl := Option.some.inj hk''
      rfl
    · obtain rfl := Option.some.inj hk'
      cases hc
  | signal semid =>
    obtain ⟨hpos, hsem, rfl⟩ := testSema_next hstart
    have hmine : s.holds semid.toNat a = true := hdisc hpos
    have hno := h.unaltered hmine
    refine h.goes (n := semid.toNat) hplace (fun k' hk' => ?_) (fun k' hk' => ?_)
      (fun b _ k' hk' hn => ⟨hno b k' hk' hn, fun k'' hk'' _ => ?_⟩)
      (fun _ => h.stands _ hno) fun k' hk' hc => ?_
    · obtain rfl := Option.some.inj hk'
      exact .inl rfl
    · obtain rfl := Option.some.inj hk'
      exact ⟨hsem, hmine⟩
    · obtain rfl := Option.some.inj hk''
      rfl
    · obtain rfl := Option.some.inj hk'
      cases hc

end Calls

/-- **Every step keeps the table sound.** -/
theorem Sound.step (h : Sound s) {s' : Threads τ} {m : ThreadMove τ} (hdisc : Disciplined m s)
    (hstep : threadStep m s = some s') : Sound s' := by
  cases m with
  | call a e =>
    simp only [threadStep] at hstep
    split at hstep
    · obtain rfl := Option.some.inj hstep
      exact ⟨h.table, h.stands, h.finds, h.alone, h.creates⟩
    · rename_i k hout hstart
      obtain rfl := Option.some.inj hstep
      exact h.call hout hdisc hstart
    · cases hstep
  | turn a =>
    simp only [threadStep] at hstep
    split at hstep
    · rename_i k hk
      split at hstep
      · rename_i reply semas hturn
        obtain rfl := Option.some.inj hstep
        exact h.turn hk hturn
      · rename_i k' semas hturn
        obtain rfl := Option.some.inj hstep
        exact h.turn hk hturn
      · cases hstep
    · cases hstep

end Sound

/-! ## 6. Mutual exclusion -/

/-- **Semaphores exclude.**  In every interleaving of any threads whose calls are disciplined, a
semaphore is held by one thread at most; who waits for one that nobody makes or deletes has to wait
exactly while somebody holds it; and no thread's next step is undefined.  The steps of a call that
nobody comes between are the function. -/
theorem sema_excludes {τ : Type} [DecidableEq τ] {grants : ℕ → Bool} {ms : List (ThreadMove τ)}
    {s : Threads τ} (hdisc : Along threadStep Disciplined ms { semas := semasStart grants })
    (hrun : run threadStep ms { semas := semasStart grants } = some s) :
    (∀ n a b, s.holds n a = true → s.holds n b = true → a = b) ∧
    (∀ n, s.semas.sem n ≠ none →
      (∀ a, ∀ k ∈ s.place a, k.number = some n → k.alters = false) →
      (waitSema n false s.semas = .error .blocked ↔ ∃ a, s.holds n a = true)) ∧
    (∀ a, ∀ k ∈ s.place a, semaTurn k s.semas ≠ .error .undefined) ∧
    ∀ e t, finish (semaCount + 6) (startSema e t, t) = semaStep e t := by
  have h : Sound s :=
    along_preserves (fun _ _ _ h hd hs => h.step hd hs) (sound_start grants) hdisc hrun
  refine ⟨fun n a b ha hb => ?_, fun n hsem hno => ?_, fun a k hk => h.defined hk,
    semaStep_eq_finish⟩
  · obtain ⟨count, hheld⟩ := h.held n
    exact hheld.mutex.excl a b ha hb
  · rcases h.stands n hno with ⟨hnone, -⟩ | ⟨p, v, hp, hcells, hheld⟩
    · exact absurd hnone hsem
    · have hin : 0 ≤ (n : ℤ) ∧ (n : ℤ) < semaCount :=
        ⟨Int.natCast_nonneg n, Int.ofNat_lt.mpr (h.table.inside n p hp)⟩
      rw [waitSema, onSema, if_pos hin, Int.toNat_natCast, hp]
      simp only [semWait, Semas.value_eq hcells]
      cases v with
      | zero => exact iff_of_true rfl (hheld.taken rfl)
      | succ v =>
        refine iff_of_false ?_ ?_
        · simp [Semas.put_ok hcells]
        · obtain rfl : v = 0 := by
            have hle := hheld.bounded (v + 1) rfl
            omega
          rintro ⟨a, ha⟩
          exact hheld.mutex.nobody (by simp) a ha

/-- Two threads and one semaphore: the second calls `WaitSema` while the first has the semaphore,
and gets it when the first has signalled. -/
def takeTurns : List (ThreadMove Bool) :=
  [.call false (.create 0), .turn false, .turn false, .turn false, .turn false,
    .call false (.wait 0 false), .call true (.wait 0 false), .turn false, .turn false, .turn true,
    .call false (.signal 0), .turn false, .turn true, .call false (.wait 0 false), .turn false]

/-- The second thread has it now, and the first, in `sem_wait`, has to wait. -/
theorem sema_excludes_turns : ∃ s,
    run threadStep takeTurns { semas := semasStart fun _ => true } = some s ∧
    s.returned.map (fun r => (r.1, r.2.ret)) =
      [(false, 0), (false, 0), (false, 0), (true, 0)] ∧
    waitSema 0 false s.semas = .error .blocked := by
  obtain ⟨s, hs, hreturned, hsem, hholds, hplace⟩ : ∃ s,
      run threadStep takeTurns { semas := semasStart fun _ => true } = some s ∧
      s.returned.map (fun r => (r.1, r.2.ret)) =
        [(false, 0), (false, 0), (false, 0), (true, 0)] ∧
      s.semas.sem 0 ≠ none ∧ s.holds 0 true = true ∧
      ∀ a, ∀ k ∈ s.place a, k.alters = false :=
    ⟨_, rfl, by decide, by decide, by decide, by decide⟩
  have hdisc : Along threadStep Disciplined takeTurns { semas := semasStart fun _ => true } := by
    decide
  exact ⟨s, hs, hreturned, ((sema_excludes hdisc hs).2.1 0 hsem fun a k hk _ => hplace a k hk).mpr
    ⟨true, hholds⟩⟩

/-- Two calls of `CreateSema`: both find entry 0 free before one of them stores its pointer. -/
def createTogether : List (ThreadMove Bool) :=
  [.call false (.create 0), .call true (.create 0), .turn false, .turn true,
    .turn false, .turn false, .turn false, .call false (.wait 0 false), .turn false, .turn false,
    .turn true, .turn true, .turn true, .call true (.wait 0 false), .turn true, .turn true]

/-- **Two calls of `CreateSema` that overlap**: both return 0, both threads wait for semaphore 0 and
have it. -/
theorem creates_overlap : ∃ s,
    run threadStep createTogether { semas := semasStart fun _ => true } = some s ∧
    s.returned.map (fun r => (r.1, r.2.ret)) = [(false, 0), (false, 0), (true, 0), (true, 0)] ∧
    s.holds 0 false = true ∧ s.holds 0 true = true ∧
    ¬ Along threadStep Disciplined createTogether { semas := semasStart fun _ => true } :=
  ⟨_, rfl, by decide, by decide, by decide, by decide⟩

end PfsShell.Sdk
