/-
# Calls without a lock

Threads call the functions of `Sections`, but take no lock: between any two steps of one call there
may be steps of others.

Such calls are as good as whole where each takes effect with its last step, and the steps before it
only prepare that (`Calls.Commits`).  What is prepared has to last while others take their steps, as
long as their calls are apart from this one.

* `Calls.freely`: the threads, step by step;
* `run_commits`: in every interleaving the calls that have returned had the effects, and the results,
  of calls one after the other, in the order they returned in.
-/
import Mathlib.Data.Fintype.Defs
import Mathlib.Tactic.Common
import PfsShell.Lib.Sections

namespace PfsShell.Lib

variable {ι ο κ ρ α β : Type*}

/-! ## 1. The threads -/

/-- What each thread is in the middle of, and what they share; `returned` are the calls that have
returned, the earliest first. -/
structure Threads (ι ο κ ρ α : Type*) where
  inside : ι → Option (ο × κ) := fun _ => none
  shared : α
  returned : List (ι × ο × ρ) := []

/-- A thread calls a function, or takes a step in the one it has called. -/
inductive Move (ι ο : Type*)
  | call (i : ι) (o : ο)
  | turn (i : ι)

/-- One step of one thread.  A call returns with its last step. -/
def Calls.freely [DecidableEq ι] (c : Calls ο κ ρ α) (e : Move ι ο) (s : Threads ι ο κ ρ α) :
    Option (Threads ι ο κ ρ α) :=
  match e with
  | .call i o =>
    match s.inside i, c.start o s.shared with
    | none, .inl r => some { s with returned := s.returned ++ [(i, o, r)] }
    | none, .inr k => some { s with inside := Function.update s.inside i (some (o, k)) }
    | some _, _ => none
  | .turn i =>
    match s.inside i with
    | none => none
    | some (o, k) =>
      match c.turn k s.shared with
      | (.inl r, shared) =>
        some { inside := Function.update s.inside i none, shared := shared
               returned := s.returned ++ [(i, o, r)] }
      | (.inr k, shared) =>
        some { s with inside := Function.update s.inside i (some (o, k)), shared := shared }

/-! ## 2. Effects -/

/-- **Each call takes effect with its last step.**  `abs` is what the effects are on and `spec` are
the effects; `ready` is what a call has prepared, `may` says which calls are made, and `apart` which
of them can be under way together. -/
structure Calls.Commits (c : Calls ο κ ρ α) (abs : α → β) (spec : ο → β → ρ → β → Prop)
    (ready : ο → κ → α → Prop) (may : ο → α → Prop) (apart : ο → ο → Prop) : Prop where
  symm : ∀ {o o'}, apart o o' → apart o' o
  refused : ∀ {o s r}, may o s → c.start o s = .inl r → spec o (abs s) r (abs s)
  enters : ∀ {o s k}, may o s → c.start o s = .inr k → ready o k s
  prepares : ∀ {o k s k' s'}, ready o k s → c.turn k s = (.inr k', s') →
    abs s' = abs s ∧ ready o k' s'
  commits : ∀ {o k s r s'}, ready o k s → c.turn k s = (.inl r, s') →
    spec o (abs s) r (abs s')
  lasts : ∀ {o k s x s' o' k'}, ready o k s → c.turn k s = (x, s') → apart o o' →
    ready o' k' s → ready o' k' s'

/-- The steps that are allowed: a call may be made, and is apart from those that are under way. -/
def Allowed (may : ο → α → Prop) (apart : ο → ο → Prop) (e : Move ι ο)
    (s : Threads ι ο κ ρ α) : Prop :=
  match e with
  | .call i o => may o s.shared ∧ ∀ j, j ≠ i → ∀ p ∈ s.inside j, apart o p.1
  | .turn _ => True

instance [DecidableEq ι] [Fintype ι] {may : ο → α → Prop} {apart : ο → ο → Prop}
    [∀ o s, Decidable (may o s)] [∀ o o', Decidable (apart o o')] (e : Move ι ο)
    (s : Threads ι ο κ ρ α) : Decidable (Allowed may apart e s) :=
  match e with
  | .call i o =>
    inferInstanceAs (Decidable (may o s.shared ∧ ∀ j, j ≠ i → ∀ p ∈ s.inside j, apart o p.1))
  | .turn _ => .isTrue trivial

/-- **What holds after every step.** -/
structure Committed (abs : α → β) (spec : ο → β → ρ → β → Prop) (ready : ο → κ → α → Prop)
    (apart : ο → ο → Prop) (t : β) (s : Threads ι ο κ ρ α) : Prop where
  calls : Serially spec s.returned t (abs s.shared)
  ready : ∀ i o k, s.inside i = some (o, k) → ready o k s.shared
  apart : ∀ i j o k o' k', i ≠ j → s.inside i = some (o, k) → s.inside j = some (o', k') →
    apart o o'

section Run

variable {c : Calls ο κ ρ α} {abs : α → β} {spec : ο → β → ρ → β → Prop}
  {ready : ο → κ → α → Prop} {may : ο → α → Prop} {apart : ο → ο → Prop} {t : β}
  {s s' : Threads ι ο κ ρ α} {i : ι}

theorem committed_start (s₀ : α) : Committed abs spec ready apart (abs s₀)
    ({ shared := s₀ } : Threads ι ο κ ρ α) where
  calls := .nil _
  ready := fun _ _ _ h => by cases h
  apart := fun _ _ _ _ _ _ _ h => by cases h

/-- The others keep what they have prepared when `i` takes a step. -/
theorem Committed.others (h : Committed abs spec ready apart t s)
    (hcommits : c.Commits abs spec ready may apart) {o : ο} {k : κ} {x : ρ ⊕ κ} {shared : α}
    (hin : s.inside i = some (o, k)) (hturn : c.turn k s.shared = (x, shared)) {j : ι} {o' : ο}
    {k' : κ} (hj : j ≠ i) (hinj : s.inside j = some (o', k')) : ready o' k' shared :=
  hcommits.lasts (h.ready i o k hin) hturn (h.apart i j o k o' k' (Ne.symm hj) hin hinj)
    (h.ready j o' k' hinj)

variable [DecidableEq ι]

/-- A call that goes on. -/
theorem Committed.enter (h : Committed abs spec ready apart t s)
    (hcommits : c.Commits abs spec ready may apart) {o : ο} {k : κ}
    (hstart : c.start o s.shared = .inr k) (hallowed : Allowed may apart (.call i o) s) :
    Committed abs spec ready apart t
      { s with inside := Function.update s.inside i (some (o, k)) } := by
  obtain ⟨hmay, hfar⟩ := hallowed
  refine ⟨h.calls, fun j o' k' hj => ?_, fun j j' o₁ k₁ o₂ k₂ hne h₁ h₂ => ?_⟩
  · by_cases hji : j = i
    · subst hji
      simp only [Function.update_self, Option.some.injEq, Prod.mk.injEq] at hj
      obtain ⟨rfl, rfl⟩ := hj
      exact hcommits.enters hmay hstart
    · exact h.ready j o' k' (by simpa [hji] using hj)
  · rcases eq_or_ne j i with rfl | hj
    · -- the new call is the first of the two
      have h₂' : s.inside j' = some (o₂, k₂) := by simpa [Ne.symm hne] using h₂
      have ho : o = o₁ ∧ k = k₁ := by simpa using h₁
      rw [← ho.1]
      exact hfar j' (Ne.symm hne) (o₂, k₂) h₂'
    · have h₁' : s.inside j = some (o₁, k₁) := by simpa [hj] using h₁
      rcases eq_or_ne j' i with rfl | hj'
      · have ho : o = o₂ ∧ k = k₂ := by simpa using h₂
        rw [← ho.1]
        exact hcommits.symm (hfar j hj (o₁, k₁) h₁')
      · exact h.apart j j' o₁ k₁ o₂ k₂ hne h₁' (by simpa [hj'] using h₂)

/-- A step that is not the last. -/
theorem Committed.prepare (h : Committed abs spec ready apart t s)
    (hcommits : c.Commits abs spec ready may apart) {o : ο} {k k' : κ} {shared : α}
    (hin : s.inside i = some (o, k)) (hturn : c.turn k s.shared = (.inr k', shared)) :
    Committed abs spec ready apart t
      { s with inside := Function.update s.inside i (some (o, k')), shared := shared } := by
  obtain ⟨hsame, hready⟩ := hcommits.prepares (h.ready i o k hin) hturn
  refine ⟨?_, fun j o' k'' hj => ?_, fun j j' o₁ k₁ o₂ k₂ hne h₁ h₂ => ?_⟩
  · simpa [hsame] using h.calls
  · by_cases hji : j = i
    · subst hji
      simp only [Function.update_self, Option.some.injEq, Prod.mk.injEq] at hj
      obtain ⟨rfl, rfl⟩ := hj
      exact hready
    · exact h.others hcommits hin hturn hji (by simpa [hji] using hj)
  · -- the calls are the same as before
    have hcalls : ∀ j o' k₀, Function.update s.inside i (some (o, k')) j = some (o', k₀) →
        ∃ k₁, s.inside j = some (o', k₁) := by
      intro j o' k₀ hj
      by_cases hji : j = i
      · subst hji
        simp only [Function.update_self, Option.some.injEq, Prod.mk.injEq] at hj
        exact ⟨k, by rw [hin, hj.1]⟩
      · exact ⟨k₀, by simpa [hji] using hj⟩
    obtain ⟨_, h₁'⟩ := hcalls j o₁ k₁ h₁
    obtain ⟨_, h₂'⟩ := hcalls j' o₂ k₂ h₂
    exact h.apart j j' _ _ _ _ hne h₁' h₂'

/-- The last step. -/
theorem Committed.commit (h : Committed abs spec ready apart t s)
    (hcommits : c.Commits abs spec ready may apart) {o : ο} {k : κ} {r : ρ} {shared : α}
    (hin : s.inside i = some (o, k)) (hturn : c.turn k s.shared = (.inl r, shared)) :
    Committed abs spec ready apart t
      { inside := Function.update s.inside i none, shared := shared
        returned := s.returned ++ [(i, o, r)] } := by
  have hother : ∀ j o' k', Function.update s.inside i none j = some (o', k') →
      j ≠ i ∧ s.inside j = some (o', k') := by
    intro j o' k' hj
    by_cases hji : j = i
    · simp [hji] at hj
    · exact ⟨hji, by simpa [hji] using hj⟩
  refine ⟨.snoc h.calls (hcommits.commits (h.ready i o k hin) hturn), fun j o' k' hj => ?_,
    fun j j' o₁ k₁ o₂ k₂ hne h₁ h₂ => ?_⟩
  · obtain ⟨hji, hinj⟩ := hother j o' k' hj
    exact h.others hcommits hin hturn hji hinj
  · exact h.apart j j' _ _ _ _ hne (hother j o₁ k₁ h₁).2 (hother j' o₂ k₂ h₂).2

theorem Committed.step (h : Committed abs spec ready apart t s)
    (hcommits : c.Commits abs spec ready may apart) {e : Move ι ο}
    (hallowed : Allowed may apart e s) (hstep : c.freely e s = some s') :
    Committed abs spec ready apart t s' := by
  cases e with
  | call i o =>
    simp only [Calls.freely] at hstep
    split at hstep
    · rename_i hstart
      obtain rfl := Option.some.inj hstep
      exact ⟨.snoc h.calls (hcommits.refused hallowed.1 hstart), h.ready, h.apart⟩
    · rename_i hstart
      obtain rfl := Option.some.inj hstep
      exact h.enter hcommits hstart hallowed
    · cases hstep
  | turn i =>
    simp only [Calls.freely] at hstep
    split at hstep
    · cases hstep
    · rename_i hin
      split at hstep
      · rename_i hturn
        obtain rfl := Option.some.inj hstep
        exact h.commit hcommits hin hturn
      · rename_i hturn
        obtain rfl := Option.some.inj hstep
        exact h.prepare hcommits hin hturn

/-- **Every interleaving has the effects of whole calls**, in the order they return. -/
theorem run_commits {es : List (Move ι ο)} {s₀ : α}
    (hcommits : c.Commits abs spec ready may apart)
    (hallowed : Along c.freely (Allowed may apart) es { shared := s₀ })
    (hrun : run c.freely es { shared := s₀ } = some s) :
    Serially spec s.returned (abs s₀) (abs s.shared) := by
  have h : Committed abs spec ready apart (abs s₀) s :=
    along_preserves (fun _ _ _ h hok hstep => h.step hcommits hok hstep) (committed_start s₀)
      hallowed hrun
  exact h.calls

end Run

end PfsShell.Lib
