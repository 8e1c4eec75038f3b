/-
# Computations that may have no result

A program with fuel is a partial computation, an `Option`: `none` is a run that has not ended.

* `Only P a`: a result of `a`, if there is one, has `P`;
* `Follows L R a b`: if `a` has a result, then it is lost (`L`), or `b` has one too and the two are
  related by `R`.

Both are put together along `bind` and `map`, as the programs are.  `Follows` is for comparing two
programs that go the same way until something happens to one of them; what has happened is in its
state, and once lost it stays lost.
-/
import Mathlib.Tactic.Common

namespace PfsShell.Lib

variable {α β γ δ : Type*}

/-! ## 1. One computation -/

/-- A result has `P`. -/
def Only (P : α → Prop) (a : Option α) : Prop := ∀ x, a = some x → P x

section Only

variable {P P' : α → Prop} {Q : β → Prop} {a : Option α}

theorem Only.none : Only P Option.none := fun _ h => by cases h

theorem Only.some {x : α} (h : P x) : Only P (Option.some x) := fun _ hx => Option.some.inj hx ▸ h

theorem Only.mono (h : Only P a) (hP : ∀ x, P x → P' x) : Only P' a := fun x hx => hP x (h x hx)

theorem Only.bind {f : α → Option β} (h : Only P a) (hf : ∀ x, P x → Only Q (f x)) :
    Only Q (a.bind f) := by
  intro y hy
  obtain ⟨x, hx, hfx⟩ := Option.bind_eq_some_iff.mp hy
  exact hf x (h x hx) y hfx

theorem Only.map {f : α → β} (h : Only P a) (hf : ∀ x, P x → Q (f x)) : Only Q (a.map f) := by
  intro y hy
  obtain ⟨x, hx, rfl⟩ := Option.map_eq_some_iff.mp hy
  exact hf x (h x hx)

end Only

/-! ## 2. Two computations -/

/-- A result of `a` is lost, or a result of `b` is related to it. -/
def Follows (L : α → Prop) (R : α → β → Prop) (a : Option α) (b : Option β) : Prop :=
  ∀ x, a = some x → L x ∨ ∃ y, b = some y ∧ R x y

section Follows

variable {L : α → Prop} {R R' : α → β → Prop} {M : γ → Prop} {S : γ → δ → Prop} {a : Option α}
  {b : Option β}

theorem Follows.none : Follows L R Option.none b := fun _ h => by cases h

theorem Follows.some {x : α} {y : β} (h : R x y) : Follows L R (Option.some x) (Option.some y) :=
  fun _ hx => .inr ⟨y, rfl, Option.some.inj hx ▸ h⟩

/-- What is lost anyway need not be followed. -/
theorem Follows.lost (h : Only L a) : Follows L R a b := fun x hx => .inl (h x hx)

theorem Follows.bind {f : α → Option γ} {g : β → Option δ} (h : Follows L R a b)
    (hlost : ∀ x, L x → Only M (f x)) (hfg : ∀ x y, R x y → Follows M S (f x) (g y)) :
    Follows M S (a.bind f) (b.bind g) := by
  intro z hz
  obtain ⟨x, hx, hfx⟩ := Option.bind_eq_some_iff.mp hz
  rcases h x hx with hL | ⟨y, rfl, hxy⟩
  · exact .inl (hlost x hL z hfx)
  · exact hfg x y hxy z hfx

theorem Follows.map {f : α → γ} {g : β → δ} (h : Follows L R a b) (hlost : ∀ x, L x → M (f x))
    (hfg : ∀ x y, R x y → M (f x) ∨ S (f x) (g y)) : Follows M S (a.map f) (b.map g) := by
  intro z hz
  obtain ⟨x, hx, rfl⟩ := Option.map_eq_some_iff.mp hz
  rcases h x hx with hL | ⟨y, rfl, hxy⟩
  · exact .inl (hlost x hL)
  · exact (hfg x y hxy).imp_right fun hS => ⟨_, rfl, hS⟩

end Follows

end PfsShell.Lib
