/-
# Loops that read until a call says so

    while (r = next(&entry), go(r))
        body(entry);

reads one entry after the other until the test on the result says that there are no more
(`drain`).  The state has everything: the source of the entries, the buffer they are put into, and
what the body works on.  A body may end the loop on its own, with a result.

`Gives` says what a source still gives: a list of entries, each with a positive result, and from
then on one and the same result for ever, with whatever is left in the buffer.

* `drain_ends`: a loop whose test fails on that last result ends, if its body does for each of the
  entries (`Passes`), and has done it for the entries of the list, in their order;
* `drain_never`: one whose test holds there never ends of itself;
* `drain_iff`: so it does what it should exactly when the test fails.

The source is mostly a directory (`Directory`), and the test `Continues`.
-/
import Mathlib.Data.Int.Notation
import Mathlib.Data.List.Basic
import Mathlib.Tactic.Common

namespace PfsShell.Lib

variable {S α ρ : Type*}

/-! ## 1. The loop -/

/-- The loop, with fuel.  `none` is a run that has not ended. -/
def drain (go : ℤ → Prop) [DecidablePred go] (next : S → ℤ × S) (body : S → Option (S ⊕ ρ))
    (finish : ℤ × S → ρ) : ℕ → S → Option ρ
  | 0, _ => none
  | fuel + 1, s =>
    if go (next s).1 then
      (body (next s).2).bind (Sum.elim (drain go next body finish fuel) some)
    else some (finish (next s))

/-- What `next` still gives: the entries `left`, where `entry` is the buffer, and then `last` for
ever. -/
structure Gives (next : S → ℤ × S) (entry : S → α) (left : S → Option (List α)) (last : ℤ) :
    Prop where
  cons : ∀ {s e l}, left s = some (e :: l) →
    0 < (next s).1 ∧ entry (next s).2 = e ∧ left (next s).2 = some l
  nil : ∀ {s}, left s = some [] → (next s).1 = last ∧ left (next s).2 = some []

/-- A directory, read into a buffer with `dread`. -/
structure Directory {σ : Type*} (dread : α → σ → ℤ × α × σ) (left : σ → Option (List α))
    (last : ℤ) : Prop where
  cons : ∀ {de w e l}, left w = some (e :: l) →
    0 < (dread de w).1 ∧ (dread de w).2.1 = e ∧ left (dread de w).2.2 = some l
  nil : ∀ {de w}, left w = some [] →
    (dread de w).1 = last ∧ left (dread de w).2.2 = some []

/-- The body ends for each of the next `n` entries, and does not end the loop. -/
def Passes (next : S → ℤ × S) (body : S → Option (S ⊕ ρ)) : ℕ → S → Prop
  | 0, _ => True
  | n + 1, s => ∃ s', body (next s).2 = some (.inl s') ∧ Passes next body n s'

theorem passes_of_total {next : S → ℤ × S} {body : S → Option (S ⊕ ρ)}
    (hbody : ∀ s, ∃ s', body s = some (.inl s')) (n : ℕ) : ∀ s, Passes next body n s := by
  induction n with
  | zero => exact fun _ => trivial
  | succ n ih =>
    intro s
    obtain ⟨s', hs'⟩ := hbody (next s).2
    exact ⟨s', hs', ih s'⟩

/-! ## 2. The rule -/

/-- What is known of a loop: its body leaves the source alone, takes `I` from the entries done so
far to the next one, and does not end the loop with a result that has `Q`; at the end `I` gives
such a result. -/
structure DrainSpec (go : ℤ → Prop) (next : S → ℤ × S) (body : S → Option (S ⊕ ρ))
    (finish : ℤ × S → ρ) (entry : S → α) (left : S → Option (List α)) (last : ℤ) (es : List α)
    (I : List α → S → Prop) (Q : ρ → Prop) : Prop where
  go_pos : ∀ r, 0 < r → go r
  gives : Gives next entry left last
  keeps : ∀ {s s' l}, left s = some l → body s = some (.inl s') → left s' = some l
  step : ∀ {done e s s' l}, left s = some (e :: l) → I done s →
    body (next s).2 = some (.inl s') → I (done ++ [e]) s'
  exit : ∀ {s l r}, left s = some l → body s = some (.inr r) → ¬ Q r
  last : ∀ {s}, left s = some [] → I es s → Q (finish (next s))

section Rule

variable {go : ℤ → Prop} [DecidablePred go] {next : S → ℤ × S} {body : S → Option (S ⊕ ρ)}
  {finish : ℤ × S → ρ} {entry : S → α} {left : S → Option (List α)} {last : ℤ} {es : List α}
  {I : List α → S → Prop} {Q : ρ → Prop}

/-- **A loop whose test fails on the last result ends.**  The induction is on what is left. -/
theorem drain_ends (h : DrainSpec go next body finish entry left last es I Q) (hlast : ¬ go last)
    (l : List α) : ∀ (fuel : ℕ) (done : List α) (s : S), l.length < fuel → done ++ l = es →
      left s = some l → Passes next body l.length s → I done s →
      ∃ r, drain go next body finish fuel s = some r ∧ Q r := by
  induction l with
  | nil =>
    intro fuel done s hfuel hes hleft _ hI
    obtain ⟨fuel, rfl⟩ := Nat.exists_eq_succ_of_ne_zero (Nat.ne_of_gt hfuel)
    rw [List.append_nil] at hes
    subst hes
    have hstop : ¬ go (next s).1 := by
      rw [(h.gives.nil hleft).1]
      exact hlast
    exact ⟨_, if_neg hstop, h.last hleft hI⟩
  | cons e l ih =>
    intro fuel done s hfuel hes hleft hpass hI
    obtain ⟨fuel, rfl⟩ := Nat.exists_eq_succ_of_ne_zero (Nat.ne_zero_of_lt hfuel)
    obtain ⟨hpos, -, hnext⟩ := h.gives.cons hleft
    obtain ⟨s', hbody, hpass'⟩ := hpass
    have hes' : (done ++ [e]) ++ l = es := by
      rw [List.append_assoc]
      exact hes
    obtain ⟨r, hr, hQ⟩ := ih fuel (done ++ [e]) s' (Nat.lt_of_succ_lt_succ hfuel) hes'
      (h.keeps hnext hbody) hpass' (h.step hleft hI hbody)
    refine ⟨r, ?_, hQ⟩
    rw [drain, if_pos (h.go_pos _ hpos), hbody]
    exact hr

/-- **One whose test holds there never ends of itself.**  The induction is on the fuel. -/
theorem drain_never (h : DrainSpec go next body finish entry left last es I Q) (hlast : go last)
    (fuel : ℕ) : ∀ (s : S) (l : List α), left s = some l →
      ∀ r, drain go next body finish fuel s = some r → ¬ Q r := by
  induction fuel with
  | zero =>
    intro s l _ r hr
    cases hr
  | succ fuel ih =>
    intro s l hleft r hr
    -- the result of the call is positive, or the last one
    obtain ⟨hgo, l', hleft'⟩ : go (next s).1 ∧ ∃ l', left (next s).2 = some l' := by
      cases l with
      | nil =>
        obtain ⟨hres, hnil⟩ := h.gives.nil hleft
        exact ⟨by rw [hres]; exact hlast, [], hnil⟩
      | cons e l =>
        obtain ⟨hpos, -, hnext⟩ := h.gives.cons hleft
        exact ⟨h.go_pos _ hpos, l, hnext⟩
    rw [drain, if_pos hgo] at hr
    obtain ⟨x, hx, hr⟩ := Option.bind_eq_some_iff.mp hr
    cases x with
    | inl s' => exact ih s' l' (h.keeps hleft' hx) r hr
    | inr b =>
      obtain rfl : b = r := Option.some.inj hr
      exact h.exit hleft' hx

/-- **The rule**: a loop does its body for what the source gives, and ends, exactly when its test
fails on the last result. -/
theorem drain_iff (h : DrainSpec go next body finish entry left last es I Q) {s : S}
    (hleft : left s = some es) (hpass : Passes next body es.length s) (hI : I [] s) :
    (∃ fuel r, drain go next body finish fuel s = some r ∧ Q r) ↔ ¬ go last := by
  constructor
  · rintro ⟨fuel, r, hr, hQ⟩ hgo
    exact drain_never h hgo fuel s es hleft r hr hQ
  · intro hgo
    obtain ⟨r, hr, hQ⟩ := drain_ends h hgo es (es.length + 1) [] s (Nat.lt_succ_self _) rfl hleft
      hpass hI
    exact ⟨es.length + 1, r, hr, hQ⟩

/-- The fuel does not matter: two runs that end have the same result. -/
theorem drain_unique (fuel : ℕ) : ∀ {fuel' : ℕ} {s : S} {r r' : ρ},
    drain go next body finish fuel s = some r → drain go next body finish fuel' s = some r' →
      r = r' := by
  induction fuel with
  | zero =>
    intro fuel' s r r' hr
    cases hr
  | succ fuel ih =>
    intro fuel' s r r' hr hr'
    cases fuel' with
    | zero => cases hr'
    | succ fuel' =>
      rw [drain] at hr hr'
      by_cases hgo : go (next s).1
      · rw [if_pos hgo] at hr hr'
        obtain ⟨x, hx, hr⟩ := Option.bind_eq_some_iff.mp hr
        obtain ⟨x', hx', hr'⟩ := Option.bind_eq_some_iff.mp hr'
        obtain rfl : x = x' := Option.some.inj (hx.symm.trans hx')
        cases x with
        | inl s' => exact ih hr hr'
        | inr b => exact Option.some.inj (hr.symm.trans hr')
      · rw [if_neg hgo] at hr hr'
        exact Option.some.inj (hr.symm.trans hr')

end Rule

/-! ## 3. Directories -/

/-- The test `(result = ...) && result != -1`. -/
def Continues (result : ℤ) : Prop := result ≠ 0 ∧ result ≠ -1

instance : DecidablePred Continues := fun r => inferInstanceAs (Decidable (r ≠ 0 ∧ r ≠ -1))

theorem continues_of_pos (r : ℤ) (h : 0 < r) : Continues r := ⟨by omega, by omega⟩

theorem not_continues_iff {r : ℤ} : ¬ Continues r ↔ r = 0 ∨ r = -1 := by
  unfold Continues
  omega

section Directories

variable {σ T : Type*} {dread : α → σ → ℤ × α × σ} {left : σ → Option (List α)} {last : ℤ}

/-- The buffer and a state that `dread` works on. -/
def Directory.next (dread : α → σ → ℤ × α × σ) (s : α × σ) : ℤ × α × σ := dread s.1 s.2

theorem Directory.gives (h : Directory dread left last) :
    Gives (Directory.next dread) Prod.fst (fun s => left s.2) last where
  cons hleft := h.cons hleft
  nil hleft := h.nil hleft

/-- The directory of a part of the state is one of the whole. -/
theorem Directory.over (h : Directory dread left last) {world : T → σ}
    {dread' : α → T → ℤ × α × T}
    (hsame : ∀ de t, dread' de t = ((dread de (world t)).1, (dread de (world t)).2.1,
      (dread' de t).2.2) ∧ world (dread' de t).2.2 = (dread de (world t)).2.2) :
    Directory dread' (fun t => left (world t)) last where
  cons := by
    intro de t e l hleft
    obtain ⟨hread, hworld⟩ := hsame de t
    rw [hworld, hread]
    exact h.cons hleft
  nil := by
    intro de t hleft
    obtain ⟨hread, hworld⟩ := hsame de t
    rw [hworld, hread]
    exact h.nil hleft

end Directories

end PfsShell.Lib
