/-
# Calls that run in one section

Threads call functions that work on something they share.  Each function runs step by step between
taking a lock and giving it back; before it takes the lock it may only look, and return at once.

`Calls` is what the functions do, and `Calls.step` runs them with their steps interleaved.  `Whole`
is a call that is alone, from start to end.

* `Calls.Runs` and `Calls.Whole`: the steps of one call, up to its result;
* `Serially`: calls one after the other, with their results;
* `run_serially`: in every interleaving the calls that have returned have, in the order they
  returned, the results of calls one after the other, and while nobody holds the lock what is
  shared is what these leave behind.

The functions have to look at nothing that a step changes, before they take the lock.
-/
import Mathlib.Tactic.Common
import PfsShell.Lib.Run

namespace PfsShell.Lib

variable {ι ο κ ρ α : Type*}

/-! ## 1. One call -/

/-- What functions do.  `start` is a call before it takes the lock: it has a result then, or goes
on; `turn` is a step after that. -/
structure Calls (ο κ ρ α : Type*) where
  start : ο → α → ρ ⊕ κ
  turn : κ → α → (ρ ⊕ κ) × α

/-- The steps of a call from `k`, up to its result. -/
inductive Calls.Runs (c : Calls ο κ ρ α) : κ → α → ρ → α → Prop
  | last {k : κ} {s s' : α} {r : ρ} (h : c.turn k s = (.inl r, s')) : Runs c k s r s'
  | more {k k' : κ} {s s' s'' : α} {r : ρ} (h : c.turn k s = (.inr k', s'))
      (hrest : Runs c k' s' r s'') : Runs c k s r s''

/-- **A whole call.** -/
inductive Calls.Whole (c : Calls ο κ ρ α) (o : ο) (s : α) : ρ → α → Prop
  | refused {r : ρ} (h : c.start o s = .inl r) : Whole c o s r s
  | ran {k : κ} {r : ρ} {s' : α} (h : c.start o s = .inr k) (hruns : c.Runs k s r s') :
      Whole c o s r s'

/-- No step changes what a call looks at before it takes the lock. -/
def Calls.Steady (c : Calls ο κ ρ α) : Prop :=
  ∀ k s x s', c.turn k s = (x, s') → ∀ o, c.start o s' = c.start o s

/-- Calls one after the other, the earliest first, with their threads and their results. -/
inductive Serially (whole : ο → α → ρ → α → Prop) : List (ι × ο × ρ) → α → α → Prop
  | nil (s : α) : Serially whole [] s s
  | snoc {calls : List (ι × ο × ρ)} {s t u : α} {i : ι} {o : ο} {r : ρ}
      (h : Serially whole calls s t) (hwhole : whole o t r u) :
      Serially whole (calls ++ [(i, o, r)]) s u

theorem Serially.mono {whole whole' : ο → α → ρ → α → Prop} {calls : List (ι × ο × ρ)} {s t : α}
    (h : Serially whole calls s t) (himp : ∀ o s r t, whole o s r t → whole' o s r t) :
    Serially whole' calls s t := by
  induction h with
  | nil s => exact .nil s
  | snoc _ hwhole ih => exact .snoc ih (himp _ _ _ _ hwhole)

theorem Serially.of_nil {whole : ο → α → ρ → α → Prop} {s t : α}
    (h : Serially whole ([] : List (ι × ο × ρ)) s t) : t = s := by
  generalize hall : ([] : List (ι × ο × ρ)) = all at h
  cases h with
  | nil => rfl
  | snoc => simp at hall

theorem Serially.of_snoc {whole : ο → α → ρ → α → Prop} (calls : List (ι × ο × ρ)) {s u : α}
    {i : ι} {o : ο} {r : ρ} (h : Serially whole (calls ++ [(i, o, r)]) s u) :
    ∃ t, Serially whole calls s t ∧ whole o t r u := by
  generalize hall : calls ++ [(i, o, r)] = all at h
  cases h with
  | nil => simp at hall
  | snoc h hwhole =>
    obtain ⟨rfl, hlast⟩ := List.append_inj' hall rfl
    obtain ⟨-, rfl, rfl⟩ : _ = _ ∧ _ = _ ∧ _ = _ := by simpa using hlast
    exact ⟨_, h, hwhole⟩

/-! ## 2. Their steps interleaved -/

/-- What a thread is in the middle of. -/
inductive Phase (ο κ ρ : Type*)
  | outside
  | inside (o : ο) (k : κ)
  | finished (o : ο) (r : ρ)

/-- The threads, the lock and what they share; `returned` are the calls that have returned, the
earliest first. -/
structure Section (ι ο κ ρ α : Type*) where
  lock : Option ι := none
  phase : ι → Phase ο κ ρ := fun _ => .outside
  shared : α
  returned : List (ι × ο × ρ) := []

/-- A thread calls a function, takes a step in it, or gives the lock back and returns. -/
inductive Turn (ι ο : Type*)
  | call (i : ι) (o : ο)
  | turn (i : ι)
  | leave (i : ι)

/-- A thread goes on to `p`. -/
def Section.enter [DecidableEq ι] (i : ι) (p : Phase ο κ ρ) (s : Section ι ο κ ρ α) :
    Section ι ο κ ρ α :=
  { s with phase := Function.update s.phase i p }

/-- One step of one thread.  A call that has to wait for the lock cannot happen yet. -/
def Calls.step [DecidableEq ι] (c : Calls ο κ ρ α) (e : Turn ι ο) (s : Section ι ο κ ρ α) :
    Option (Section ι ο κ ρ α) :=
  match e with
  | .call i o =>
    match s.phase i, c.start o s.shared with
    | .outside, .inl r => some { s with returned := s.returned ++ [(i, o, r)] }
    | .outside, .inr k =>
      if s.lock = none then some { s.enter i (.inside o k) with lock := some i } else none
    | _, _ => none
  | .turn i =>
    match s.phase i with
    | .inside o k =>
      match c.turn k s.shared with
      | (.inl r, shared) => some { s.enter i (.finished o r) with shared := shared }
      | (.inr k, shared) => some { s.enter i (.inside o k) with shared := shared }
    | _ => none
  | .leave i =>
    match s.phase i with
    | .finished o r =>
      some { s.enter i .outside with lock := none, returned := s.returned ++ [(i, o, r)] }
    | _ => none

/-! ## 3. One after the other -/

section Serial

variable {c : Calls ο κ ρ α} {s s' : Section ι ο κ ρ α} {s₀ t : α} {i : ι}

/-- How far a call has come from `k₀` and `t`: whatever it goes on to, it comes to from there. -/
inductive Calls.Reached (c : Calls ο κ ρ α) (k₀ : κ) (t shared : α) : Phase ο κ ρ → ο → Prop
  | inside {o : ο} {k : κ} (h : ∀ r u, c.Runs k shared r u → c.Runs k₀ t r u) :
      Reached c k₀ t shared (.inside o k) o
  | finished {o : ο} {r : ρ} (h : c.Runs k₀ t r shared) : Reached c k₀ t shared (.finished o r) o

/-- **What holds after every step**: the calls that have returned lead to `t`, which is what is
shared, but for what the thread with the lock has done. -/
inductive Calls.Ordered (c : Calls ο κ ρ α) (s₀ : α) (s : Section ι ο κ ρ α) : Prop
  | free (hlock : s.lock = none) (hout : ∀ i, s.phase i = .outside)
      (hcalls : Serially c.Whole s.returned s₀ s.shared) : Ordered c s₀ s
  | held {i : ι} {o : ο} {k₀ : κ} {t : α} (hlock : s.lock = some i)
      (hout : ∀ j, j ≠ i → s.phase j = .outside) (hcalls : Serially c.Whole s.returned s₀ t)
      (hstart : c.start o t = .inr k₀) (hsame : ∀ o, c.start o s.shared = c.start o t)
      (hreached : c.Reached k₀ t s.shared (s.phase i) o) : Ordered c s₀ s

theorem ordered_start (s₀ : α) : c.Ordered s₀ ({ shared := s₀ } : Section ι ο κ ρ α) :=
  .free rfl (fun _ => rfl) (.nil s₀)

/-- A call that is refused returns at once, whoever has the lock. -/
theorem Calls.Ordered.refused (h : c.Ordered s₀ s) {o : ο} {r : ρ}
    (hstart : c.start o s.shared = .inl r) :
    c.Ordered s₀ { s with returned := s.returned ++ [(i, o, r)] } := by
  cases h with
  | free hlock hout hcalls => exact .free hlock hout (.snoc hcalls (.refused hstart))
  | held hlock hout hcalls hstart' hsame hreached =>
    exact .held hlock hout (.snoc hcalls (.refused ((hsame o).symm.trans hstart))) hstart' hsame
      hreached

/-- A thread inside or finished has the lock. -/
theorem Calls.Ordered.holder (h : c.Ordered s₀ s) (hin : s.phase i ≠ .outside) :
    s.lock = some i := by
  cases h with
  | free _ hout _ => exact absurd (hout i) hin
  | @held j _ _ _ hlock hout _ _ _ _ =>
    by_cases hij : i = j
    · rw [hlock, hij]
    · exact absurd (hout i hij) hin

variable [DecidableEq ι]

theorem Calls.Ordered.call (h : c.Ordered s₀ s) (hlock : s.lock = none) {o : ο} {k : κ}
    (hstart : c.start o s.shared = .inr k) :
    c.Ordered s₀ { s.enter i (.inside o k) with lock := some i } := by
  cases h with
  | held hlock' _ _ _ _ _ =>
    rw [hlock] at hlock'
    cases hlock'
  | free _ hout hcalls =>
    refine .held rfl (fun j hj => ?_) hcalls hstart (fun _ => rfl) ?_
    · simp [Section.enter, hj, hout]
    · simpa [Section.enter] using .inside fun _ _ hruns => hruns

/-- One step inside. -/
theorem Calls.Ordered.turn (h : c.Ordered s₀ s) (hsteady : c.Steady) {o : ο} {k : κ}
    (hphase : s.phase i = .inside o k) {x : ρ ⊕ κ} {shared : α}
    (hturn : c.turn k s.shared = (x, shared)) :
    c.Ordered s₀ { s.enter i (x.elim (.finished o) (.inside o)) with shared := shared } := by
  have hholder : s.lock = some i := h.holder (by simp [hphase])
  cases h with
  | free hlock _ _ =>
    rw [hlock] at hholder
    cases hholder
  | held hlock hout hcalls hstart hsame hreached =>
    obtain rfl := Option.some.inj (hlock.symm.trans hholder)
    rw [hphase] at hreached
    cases hreached with
    | inside hruns =>
      refine .held hholder (fun j hj => ?_) hcalls hstart
        (fun o => (hsteady k s.shared x shared hturn o).trans (hsame o)) ?_
      · simp [Section.enter, hj, hout j hj]
      · cases x with
        | inl r => simpa [Section.enter] using .finished (hruns _ _ (.last hturn))
        | inr k' =>
          simpa [Section.enter] using .inside fun r u hrest => hruns r u (.more hturn hrest)

theorem Calls.Ordered.leave (h : c.Ordered s₀ s) {o : ο} {r : ρ}
    (hphase : s.phase i = .finished o r) :
    c.Ordered s₀
      { s.enter i .outside with lock := none, returned := s.returned ++ [(i, o, r)] } := by
  have hholder : s.lock = some i := h.holder (by simp [hphase])
  cases h with
  | free hlock _ _ =>
    rw [hlock] at hholder
    cases hholder
  | held hlock hout hcalls hstart hsame hreached =>
    obtain rfl := Option.some.inj (hholder.symm.trans hlock)
    rw [hphase] at hreached
    cases hreached with
    | finished hruns =>
      refine .free rfl (fun j => ?_) (.snoc hcalls (.ran hstart hruns))
      by_cases hj : j = i
      · simp [Section.enter, hj]
      · simp [Section.enter, hj, hout j hj]

theorem Calls.Ordered.step (h : c.Ordered s₀ s) (hsteady : c.Steady) {e : Turn ι ο}
    (hstep : c.step e s = some s') : c.Ordered s₀ s' := by
  cases e with
  | call i o =>
    simp only [Calls.step] at hstep
    split at hstep
    · rename_i hstart
      obtain rfl := Option.some.inj hstep
      exact h.refused hstart
    · rename_i hstart
      split at hstep
      · rename_i hlock
        obtain rfl := Option.some.inj hstep
        exact h.call hlock hstart
      · cases hstep
    · cases hstep
  | turn i =>
    simp only [Calls.step] at hstep
    split at hstep
    · rename_i o k hphase
      split at hstep
      · rename_i hturn
        obtain rfl := Option.some.inj hstep
        exact h.turn hsteady hphase hturn
      · rename_i hturn
        obtain rfl := Option.some.inj hstep
        exact h.turn hsteady hphase hturn
    · cases hstep
  | leave i =>
    simp only [Calls.step] at hstep
    split at hstep
    · rename_i hphase
      obtain rfl := Option.some.inj hstep
      exact h.leave hphase
    · cases hstep

/-- **Every interleaving is a run of whole calls**, in the order they return. -/
theorem run_serially {es : List (Turn ι ο)} (hsteady : c.Steady)
    (hrun : run c.step es { shared := s₀ } = some s) :
    (∃ t, Serially c.Whole s.returned s₀ t) ∧
      (s.lock = none → Serially c.Whole s.returned s₀ s.shared) := by
  have h : c.Ordered s₀ s :=
    run_preserves (fun _ _ _ h hstep => h.step hsteady hstep) (ordered_start s₀) hrun
  cases h with
  | free _ _ hcalls => exact ⟨⟨_, hcalls⟩, fun _ => hcalls⟩
  | held hlock _ hcalls _ _ _ =>
    refine ⟨⟨_, hcalls⟩, fun hfree => ?_⟩
    rw [hlock] at hfree
    cases hfree

end Serial

end PfsShell.Lib
