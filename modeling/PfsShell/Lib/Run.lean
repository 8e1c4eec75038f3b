/-
# Runs of a step function, and what holds along them

A component that handles one event after the other is a partial step function
`step : ε → α → Option α`: `none` when the event cannot happen in the state, or is never
finished.  This file gives its runs (`run`), the states they reach (`Reaches`) and the two
rules the development uses on them:

* `Reaches.preserves`: what holds at the start and survives every step holds of every
  reachable state;
* `along_preserves`: the same where the steps of the run are known to meet a condition
  (`Along`), which may look at the state before the step and at the event; and
  `along_of_along`, for what such an invariant says of the steps themselves.

Where the steps also have results, `trace` collects them, and `trace_simulates` is the rule
for refinement: a component that can follow each step of another, with the same result, can
follow each of its runs; `trace_simulates_along` asks it only of the steps that meet a condition.
-/
import Mathlib.Tactic.Common

namespace PfsShell.Lib

variable {α ε : Type*}

/-! ## 1. Runs -/

/-- The state after a list of events, if all of them happen. -/
def run (step : ε → α → Option α) : List ε → α → Option α
  | [], s => some s
  | e :: es, s => (step e s).bind (run step es)

/-- `s'` is reached from `s` by some run. -/
def Reaches (step : ε → α → Option α) (s s' : α) : Prop := ∃ es, run step es s = some s'

section Runs

variable {step : ε → α → Option α}

@[simp] theorem run_nil (s : α) : run step [] s = some s := rfl

theorem run_cons {e : ε} {es : List ε} {s s' : α} :
    run step (e :: es) s = some s' ↔ ∃ t, step e s = some t ∧ run step es t = some s' := by
  simp [run, Option.bind_eq_some_iff]

theorem run_append {es₁ es₂ : List ε} {s s' : α} :
    run step (es₁ ++ es₂) s = some s' ↔
      ∃ t, run step es₁ s = some t ∧ run step es₂ t = some s' := by
  induction es₁ generalizing s with
  | nil => simp
  | cons e es ih =>
    rw [List.cons_append, run_cons]
    constructor
    · rintro ⟨t, ht, hrest⟩
      obtain ⟨u, hu, hlast⟩ := ih.mp hrest
      exact ⟨u, run_cons.mpr ⟨t, ht, hu⟩, hlast⟩
    · rintro ⟨u, hu, hlast⟩
      obtain ⟨t, ht, hmid⟩ := run_cons.mp hu
      exact ⟨t, ht, ih.mpr ⟨u, hmid, hlast⟩⟩

theorem Reaches.refl (s : α) : Reaches step s s := ⟨[], rfl⟩

theorem Reaches.trans {s t u : α} (h : Reaches step s t) (h' : Reaches step t u) :
    Reaches step s u := by
  obtain ⟨es, hes⟩ := h
  obtain ⟨es', hes'⟩ := h'
  exact ⟨es ++ es', run_append.mpr ⟨t, hes, hes'⟩⟩

theorem Reaches.single {s t : α} {e : ε} (he : step e s = some t) : Reaches step s t :=
  ⟨[e], run_cons.mpr ⟨t, he, rfl⟩⟩

/-- **Invariants.**  What every step preserves, every run preserves. -/
theorem run_preserves {I : α → Prop}
    (hstep : ∀ e s s', I s → step e s = some s' → I s') {es : List ε} {s s' : α} (hs : I s)
    (h : run step es s = some s') : I s' := by
  induction es generalizing s with
  | nil =>
    rw [run_nil, Option.some.injEq] at h
    exact h ▸ hs
  | cons e es ih =>
    obtain ⟨t, ht, hrest⟩ := run_cons.mp h
    exact ih (hstep e s t hs ht) hrest

theorem Reaches.preserves {I : α → Prop} {s s' : α} (h : Reaches step s s') (hs : I s)
    (hstep : ∀ e s s', I s → step e s = some s' → I s') : I s' := by
  obtain ⟨es, hes⟩ := h
  exact run_preserves hstep hs hes

/-! ## 2. Runs whose steps meet a condition -/

/-- Every step of the run, from the state it is taken in, meets `C`. -/
def Along (step : ε → α → Option α) (C : ε → α → Prop) : List ε → α → Prop
  | [], _ => True
  | e :: es, s => C e s ∧ ∀ t, step e s = some t → Along step C es t

instance decidableAlong {C : ε → α → Prop} [∀ e s, Decidable (C e s)] :
    ∀ (es : List ε) (s : α), Decidable (Along step C es s)
  | [], _ => .isTrue trivial
  | e :: es, s =>
    match h : step e s with
    | none => decidable_of_iff (C e s) (by simp [Along, h])
    | some t =>
      have := decidableAlong (C := C) es t
      decidable_of_iff (C e s ∧ Along step C es t) (by simp [Along, h])

theorem along_append {C : ε → α → Prop} {es₁ es₂ : List ε} {s : α} :
    Along step C (es₁ ++ es₂) s ↔
      Along step C es₁ s ∧ ∀ t, run step es₁ s = some t → Along step C es₂ t := by
  induction es₁ generalizing s with
  | nil => simp [Along]
  | cons e es ih =>
    constructor
    · rintro ⟨he, hrest⟩
      refine ⟨⟨he, fun t ht => (ih.mp (hrest t ht)).1⟩, fun u hu => ?_⟩
      obtain ⟨t, ht, hu⟩ := run_cons.mp hu
      exact (ih.mp (hrest t ht)).2 u hu
    · rintro ⟨⟨he, hrest⟩, hlast⟩
      exact ⟨he, fun t ht => ih.mpr ⟨hrest t ht, fun u hu =>
        hlast u (run_cons.mpr ⟨t, ht, hu⟩)⟩⟩

/-- An invariant that survives the steps meeting `C` holds along every run of such steps. -/
theorem along_preserves {I : α → Prop} {C : ε → α → Prop}
    (hstep : ∀ e s s', I s → C e s → step e s = some s' → I s') {es : List ε} {s s' : α}
    (hs : I s) (hC : Along step C es s) (h : run step es s = some s') : I s' := by
  induction es generalizing s with
  | nil =>
    rw [run_nil, Option.some.injEq] at h
    exact h ▸ hs
  | cons e es ih =>
    obtain ⟨t, ht, hrest⟩ := run_cons.mp h
    exact ih (hstep e s t hs hC.1 ht) (hC.2 t ht) hrest

/-- What an invariant and `C` say of a step holds along every run of steps meeting `C`. -/
theorem along_of_along {I : α → Prop} {C D : ε → α → Prop} {es : List ε} {s : α}
    (hstep : ∀ e ∈ es, ∀ s, I s → C e s → D e s ∧ ∀ s', step e s = some s' → I s') (hs : I s)
    (hC : Along step C es s) : Along step D es s := by
  induction es generalizing s with
  | nil => trivial
  | cons e es ih =>
    obtain ⟨hD, hnext⟩ := hstep e List.mem_cons_self s hs hC.1
    refine ⟨hD, fun t ht => ih ?_ (hnext t ht) (hC.2 t ht)⟩
    exact fun e he => hstep e (List.mem_cons_of_mem _ he)

/-- What holds of every event of the list, in any state. -/
theorem along_of_forall {C : ε → α → Prop} {es : List ε} {s : α} (h : ∀ e ∈ es, ∀ s, C e s) :
    Along step C es s := by
  induction es generalizing s with
  | nil => trivial
  | cons e es ih =>
    exact ⟨h e List.mem_cons_self s, fun _ _ => ih fun e he => h e (List.mem_cons_of_mem _ he)⟩

theorem along_and {C D : ε → α → Prop} {es : List ε} {s : α} (hC : Along step C es s)
    (hD : Along step D es s) : Along step (fun e s => C e s ∧ D e s) es s := by
  induction es generalizing s with
  | nil => trivial
  | cons e es ih => exact ⟨⟨hC.1, hD.1⟩, fun t ht => ih (hC.2 t ht) (hD.2 t ht)⟩

end Runs

/-! ## 3. Runs with results -/

section Traces

variable {β ο : Type*}

/-- The results of a run, in order, and the state after it. -/
def trace (step : ε → α → Option (ο × α)) : List ε → α → Option (List ο × α)
  | [], s => some ([], s)
  | e :: es, s =>
    (step e s).bind fun (o, s) => (trace step es s).map fun (os, s) => (o :: os, s)

theorem trace_cons {step : ε → α → Option (ο × α)} {e : ε} {es : List ε} {s s' : α}
    {os : List ο} :
    trace step (e :: es) s = some (os, s') ↔
      ∃ o t os', step e s = some (o, t) ∧ trace step es t = some (os', s') ∧ os = o :: os' := by
  simp only [trace, Option.bind_eq_some_iff, Option.map_eq_some_iff, Prod.exists, Prod.mk.injEq]
  constructor
  · rintro ⟨o, t, ht, os', s'', hrest, rfl, rfl⟩
    exact ⟨o, t, os', ht, hrest, rfl⟩
  · rintro ⟨o, t, os', ht, hrest, rfl⟩
    exact ⟨o, t, ht, os', s', hrest, rfl, rfl⟩

/-- **Refinement.**  When every step of `spec` can be followed with the same result, so can
every run. -/
theorem trace_simulates {step : ε → α → Option (ο × α)} {spec : ε → β → Option (ο × β)}
    {R : α → β → Prop} :
    ∀ {es : List ε}, (∀ e ∈ es, ∀ s t o t', R s t → spec e t = some (o, t') →
        ∃ s', step e s = some (o, s') ∧ R s' t') →
      ∀ {s : α} {t t' : β} {os : List ο}, R s t → trace spec es t = some (os, t') →
        ∃ s', trace step es s = some (os, s') ∧ R s' t' := by
  intro es
  induction es with
  | nil =>
    intro _ s t t' os hR h
    obtain ⟨rfl, rfl⟩ := Prod.mk.inj (Option.some.inj h)
    exact ⟨s, rfl, hR⟩
  | cons e es ih =>
    intro hsim s t t' os hR h
    obtain ⟨o, u, os', hu, hrest, rfl⟩ := trace_cons.mp h
    obtain ⟨v, hv, hRv⟩ := hsim e List.mem_cons_self s t o u hR hu
    obtain ⟨s', hs', hRs'⟩ := ih (fun e he => hsim e (List.mem_cons_of_mem _ he)) hRv hrest
    exact ⟨s', trace_cons.mpr ⟨o, v, os', hv, hs', rfl⟩, hRs'⟩

/-- Refinement where the steps that are followed meet a condition.  The induction is on the run. -/
theorem trace_simulates_along {step : ε → α → Option (ο × α)} {spec : ε → β → Option (ο × β)}
    {R : α → β → Prop} {C : ε → α → Prop} :
    ∀ {es : List ε}, (∀ e ∈ es, ∀ s t o t', R s t → C e s → spec e t = some (o, t') →
        ∃ s', step e s = some (o, s') ∧ R s' t') →
      ∀ {s : α} {t t' : β} {os : List ο}, R s t →
        Along (fun e s => (step e s).map Prod.snd) C es s → trace spec es t = some (os, t') →
        ∃ s', trace step es s = some (os, s') ∧ R s' t' := by
  intro es
  induction es with
  | nil =>
    intro _ s t t' os hR _ h
    obtain ⟨rfl, rfl⟩ := Prod.mk.inj (Option.some.inj h)
    exact ⟨s, rfl, hR⟩
  | cons e es ih =>
    intro hsim s t t' os hR hC h
    obtain ⟨o, u, os', hu, hrest, rfl⟩ := trace_cons.mp h
    obtain ⟨v, hv, hRv⟩ := hsim e List.mem_cons_self s t o u hR hC.1 hu
    have hnext : (step e s).map Prod.snd = some v := by
      rw [hv]
      rfl
    obtain ⟨s', hs', hRs'⟩ := ih (fun e he => hsim e (List.mem_cons_of_mem _ he)) hRv
      (hC.2 v hnext) hrest
    exact ⟨s', trace_cons.mpr ⟨o, v, os', hv, hs', rfl⟩, hRs'⟩

end Traces

/-! ## 4. Runs of another grain -/

section Labels

variable {β φ : Type*}

/-- The events that `label` gives for the steps of a run, in order. -/
def labels (step : ε → α → Option α) (label : ε → α → List φ) : List ε → α → List φ
  | [], _ => []
  | e :: es, s => label e s ++ ((step e s).map (labels step label es)).getD []

theorem labels_cons {step : ε → α → Option α} {label : ε → α → List φ} {e : ε} {es : List ε}
    {s t : α} (h : step e s = some t) :
    labels step label (e :: es) s = label e s ++ labels step label es t := by
  simp [labels, h]

/-- An event comes from the label of a step. -/
theorem mem_labels {step : ε → α → Option α} {label : ε → α → List φ} {f : φ} :
    ∀ {es : List ε} {s : α}, f ∈ labels step label es s → ∃ e ∈ es, ∃ t, f ∈ label e t := by
  intro es
  induction es with
  | nil =>
    intro s hf
    cases hf
  | cons e es ih =>
    intro s hf
    cases hstep : step e s with
    | none =>
      refine ⟨e, List.mem_cons_self, s, ?_⟩
      simpa [labels, hstep] using hf
    | some t =>
      rw [labels_cons hstep] at hf
      rcases List.mem_append.mp hf with hf | hf
      · exact ⟨e, List.mem_cons_self, s, hf⟩
      · obtain ⟨e', he', u, hu⟩ := ih hf
        exact ⟨e', List.mem_cons_of_mem _ he', u, hu⟩

/-- **Simulation between two grains.**  When each step that meets `C` is followed by the events of
its label, so is each run of such steps. -/
theorem run_simulates {step : ε → α → Option α} {spec : φ → β → Option β}
    {label : ε → α → List φ} {R : α → β → Prop} {C : ε → α → Prop} :
    ∀ {es : List ε}, (∀ e ∈ es, ∀ s s' t, R s t → C e s → step e s = some s' →
        ∃ t', run spec (label e s) t = some t' ∧ R s' t') →
      ∀ {s s' : α} {t : β}, R s t → Along step C es s → run step es s = some s' →
        ∃ t', run spec (labels step label es s) t = some t' ∧ R s' t' := by
  intro es
  induction es with
  | nil =>
    intro _ s s' t hR _ h
    obtain rfl := Option.some.inj h
    exact ⟨t, rfl, hR⟩
  | cons e es ih =>
    intro hsim s s' t hR hC h
    obtain ⟨u, hu, hrest⟩ := run_cons.mp h
    obtain ⟨v, hv, hRv⟩ := hsim e List.mem_cons_self s u t hR hC.1 hu
    obtain ⟨t', ht', hR'⟩ := ih (fun e he => hsim e (List.mem_cons_of_mem _ he)) hRv
      (hC.2 u hu) hrest
    rw [labels_cons hu]
    exact ⟨t', run_append.mpr ⟨v, hv, ht'⟩, hR'⟩

end Labels

/-! ## 5. Runs that fail -/

section Answers

variable {β ο χ : Type*}

/-- The results of the steps, up to the first that fails. -/
def answers (step : ε → α → Except χ (ο × α)) : List ε → α → List (Except χ ο)
  | [], _ => []
  | e :: es, s =>
    match step e s with
    | .ok (o, s) => .ok o :: answers step es s
    | .error x => [.error x]

/-- Two steps have the same result and lead to related states, or fail with the same. -/
inductive SameAnswer (R : α → β → Prop) : Except χ (ο × α) → Except χ (ο × β) → Prop
  | ok (o : ο) {s : α} {t : β} (h : R s t) : SameAnswer R (.ok (o, s)) (.ok (o, t))
  | error (x : χ) : SameAnswer R (.error x) (.error x)

/-- **Equal answers.**  The induction is on the run. -/
theorem answers_eq {step : ε → α → Except χ (ο × α)} {spec : ε → β → Except χ (ο × β)}
    {R : α → β → Prop} (hstep : ∀ e s t, R s t → SameAnswer R (step e s) (spec e t)) :
    ∀ (es : List ε) {s : α} {t : β}, R s t → answers step es s = answers spec es t := by
  intro es
  induction es with
  | nil => exact fun _ => rfl
  | cons e es ih =>
    intro s t hR
    have hsame := hstep e s t hR
    simp only [answers]
    generalize step e s = x at hsame ⊢
    generalize spec e t = y at hsame ⊢
    cases hsame with
    | ok o h => exact congrArg (.ok o :: ·) (ih h)
    | error x => rfl

end Answers

end PfsShell.Lib
