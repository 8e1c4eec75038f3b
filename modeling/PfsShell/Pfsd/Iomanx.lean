/-
# What iomanX promises

iomanX is a parameter of the model; what pfsd relies on is stated here, for descriptors
(`FdLaws`) and for mounts (`MountLaws`).  Both speak of iomanX's state through a projection:
the set of descriptors that are open in it, and the set of pairs of a unit and a device that
are mounted in it.

How iomanX tells from a name which unit is meant is a parameter of the mount laws.  Taking the
whole text of the name is the simplest reading; iomanX itself reads up to the first colon
(`unitOf`).

`smallIomanx` is an iomanX that keeps just these two sets, as lists, and satisfies both groups
of laws whatever the reading.
-/
import Mathlib.Data.Set.Insert
import PfsShell.Pfsd.State

namespace PfsShell.Pfsd

open PfsShell.Lib

/-- The unit a path is served by: its text up to and including the first colon. -/
def unitOf (path : CStr) : Option CStr :=
  if 58 ∈ path then some (cutAt 58 path ++ [58]) else none

section Laws

variable {σ υ : Type}

/-! ## 1. Descriptors and mounts -/

/-- `iomanX_open` and `iomanX_dopen` return a non-negative descriptor that is not open, or a
negative error; `iomanX_close` returns 0 exactly when it closed an open descriptor; no other
call opens or closes one.  `fds` are the descriptors open in a state of iomanX. -/
structure FdLaws (io : IomanX σ) (fds : σ → Set CInt) : Prop where
  opens : ∀ (c : Call) (w : σ), c.Opens →
    (0 ≤ (io c w).1.ret ∧ (io c w).1.ret ∉ fds w ∧
      fds (io c w).2 = insert (io c w).1.ret (fds w)) ∨
    ((io c w).1.ret < 0 ∧ fds (io c w).2 = fds w)
  closes : ∀ (c : Call) (fd : CInt) (w : σ), c.closes = some fd →
    ((io c w).1.ret = 0 ∧ fd ∈ fds w ∧ fds (io c w).2 = fds w \ {fd}) ∨
    ((io c w).1.ret ≠ 0 ∧ fds (io c w).2 = fds w)
  others : ∀ (c : Call) (w : σ), ¬ c.Opens → c.closes = none → fds (io c w).2 = fds w

/-- `iomanX_close(-1)` is never 0. -/
def ClosesNoMinusOne (io : IomanX σ) : Prop :=
  ∀ (c : Call) (w : σ), c.closes = some (-1) → (io c w).1.ret ≠ 0

/-- `iomanX_read` and `iomanX_write` report no more than they were asked for. -/
def TransfersAtMost (io : IomanX σ) : Prop :=
  ∀ (fd : CInt) (buf : Option Mem) (n : CInt) (w : σ), 0 ≤ n →
    (io (.scepfsRead fd buf n) w).1.ret ≤ n ∧ (io (.scepfsWrite fd buf n) w).1.ret ≤ n

/-- `iomanX_mount` is -16 when the unit or the device is mounted; when it returns 0 it has
recorded the pair, and otherwise nothing; `iomanX_umount` removes what is on the unit; no other
call mounts or unmounts.  `mounts` are the pairs mounted in a state of iomanX. -/
structure MountLaws (io : IomanX σ) (unit : CStr → υ) (mounts : σ → Set (υ × CStr)) :
    Prop where
  busy : ∀ (f d : CStr) (flag : CInt) (arg : Option Mem) (len : CInt) (w : σ),
    (∃ m ∈ mounts w, m.1 = unit f ∨ m.2 = d) → (io (.scepfsMount f d flag arg len) w).1.ret = -16
  mounted : ∀ (f d : CStr) (flag : CInt) (arg : Option Mem) (len : CInt) (w : σ),
    (io (.scepfsMount f d flag arg len) w).1.ret = 0 →
      mounts (io (.scepfsMount f d flag arg len) w).2 = insert (unit f, d) (mounts w)
  refused : ∀ (f d : CStr) (flag : CInt) (arg : Option Mem) (len : CInt) (w : σ),
    (io (.scepfsMount f d flag arg len) w).1.ret ≠ 0 →
      mounts (io (.scepfsMount f d flag arg len) w).2 = mounts w
  unmounted : ∀ (f : CStr) (w : σ),
    mounts (io (.scepfsUmount f) w).2 =
      if (io (.scepfsUmount f) w).1.ret = 0 then mounts w \ {m | m.1 = unit f} else mounts w
  others : ∀ (c : Call) (w : σ), ¬ c.Mounts → mounts (io c w).2 = mounts w

end Laws

/-! ## 2. A small iomanX -/

/-- The open descriptors and the mounts. -/
structure SmallWorld (υ : Type) where
  fds : List CInt := []
  mounts : List (υ × CStr) := []

section Small

variable {υ : Type} [DecidableEq υ]

/-- An iomanX in which every path exists.  It has 32 descriptors, as iomanX has. -/
def smallIomanx (unit : CStr → υ) : IomanX (SmallWorld υ)
  | .scepfsOpen .., w | .scepfsDopen _, w =>
    match ((List.range 32).map Int32.ofNat).find? (· ∉ w.fds) with
    | some fd => ({ ret := fd }, { w with fds := fd :: w.fds })
    | none => ({ ret := -24 }, w)
  | .scepfsClose fd, w | .scepfsDclose fd, w =>
    if 0 ≤ fd ∧ fd ∈ w.fds then ({ ret := 0 }, { w with fds := w.fds.filter (· ≠ fd) })
    else ({ ret := -9 }, w)
  | .scepfsMount f d _ _ _, w =>
    if ∃ m ∈ w.mounts, m.1 = unit f ∨ m.2 = d then ({ ret := -16 }, w)
    else ({ ret := 0 }, { w with mounts := (unit f, d) :: w.mounts })
  | .scepfsUmount f, w =>
    if ∃ m ∈ w.mounts, m.1 = unit f then
      ({ ret := 0 }, { w with mounts := w.mounts.filter (·.1 ≠ unit f) })
    else ({ ret := -19 }, w)
  | _, w => ({}, w)

/-- The descriptors open in the small iomanX. -/
def SmallWorld.fdSet (w : SmallWorld υ) : Set CInt := {fd | 0 ≤ fd ∧ fd ∈ w.fds}

/-- The pairs mounted in the small iomanX. -/
def SmallWorld.mountSet (w : SmallWorld υ) : Set (υ × CStr) := {m | m ∈ w.mounts}

theorem smallIomanx_open (unit : CStr → υ) {c : Call} (hc : c.Opens) (w : SmallWorld υ) :
    (∃ fd : CInt, 0 ≤ fd ∧ fd ∉ w.fds ∧
      smallIomanx unit c w = ({ ret := fd }, { w with fds := fd :: w.fds })) ∨
    smallIomanx unit c w = ({ ret := -24 }, w) := by
  have hnonneg : ∀ fd ∈ (List.range 32).map Int32.ofNat, (0 : CInt) ≤ fd := by
    intro fd hfd
    obtain ⟨k, hk, rfl⟩ := List.mem_map.mp hfd
    exact (by decide : ∀ k < 32, (0 : CInt) ≤ Int32.ofNat k) k (List.mem_range.mp hk)
  cases hfind : ((List.range 32).map Int32.ofNat).find? (· ∉ w.fds) with
  | none =>
    refine .inr ?_
    cases c <;> first | exact hc.elim | simp only [smallIomanx, hfind]
  | some fd =>
    have hfree : fd ∉ w.fds := by simpa using List.find?_some hfind
    refine .inl ⟨fd, hnonneg fd (List.mem_of_find?_eq_some hfind), hfree, ?_⟩
    cases c <;> first | exact hc.elim | simp only [smallIomanx, hfind]

theorem smallIomanx_close (unit : CStr → υ) {c : Call} {fd : CInt} (hc : c.closes = some fd)
    (w : SmallWorld υ) : smallIomanx unit c w =
      if 0 ≤ fd ∧ fd ∈ w.fds then ({ ret := 0 }, { w with fds := w.fds.filter (· ≠ fd) })
      else ({ ret := -9 }, w) := by
  cases c <;> cases hc <;> rfl

theorem smallIomanx_fdLaws (unit : CStr → υ) :
    FdLaws (smallIomanx unit) SmallWorld.fdSet where
  opens c w hc := by
    rcases smallIomanx_open unit hc w with ⟨fd, h0, hfree, heq⟩ | heq
    · rw [heq]
      refine .inl ⟨h0, fun hmem => hfree hmem.2, Set.ext fun x => ?_⟩
      simp only [SmallWorld.fdSet, Set.mem_ofPred_eq, Set.mem_insert_iff, List.mem_cons]
      constructor
      · rintro ⟨hx, rfl | hmem⟩
        · exact .inl rfl
        · exact .inr ⟨hx, hmem⟩
      · rintro (rfl | ⟨hx, hmem⟩)
        · exact ⟨h0, .inl rfl⟩
        · exact ⟨hx, .inr hmem⟩
    · rw [heq]
      exact .inr ⟨(by decide : (-24 : CInt) < 0), rfl⟩
  closes c fd w hc := by
    rw [smallIomanx_close unit hc]
    by_cases h : 0 ≤ fd ∧ fd ∈ w.fds
    · rw [if_pos h]
      refine .inl ⟨rfl, h, Set.ext fun x => ?_⟩
      simp [SmallWorld.fdSet, and_assoc]
    · rw [if_neg h]
      exact .inr ⟨(by decide : (-9 : CInt) ≠ 0), rfl⟩
  others c w hopen hclose := by
    cases c with
    | scepfsOpen _ _ _ | scepfsDopen _ => exact absurd trivial hopen
    | scepfsClose _ | scepfsDclose _ => cases hclose
    | scepfsMount _ _ _ _ _ | scepfsUmount _ =>
      simp only [smallIomanx]
      split <;> rfl
    | _ => rfl

theorem smallIomanx_closesNoMinusOne (unit : CStr → υ) :
    ClosesNoMinusOne (smallIomanx unit) := by
  intro c w hc
  rw [smallIomanx_close unit hc, if_neg fun h => absurd h.1 (by decide)]
  exact (by decide : (-9 : CInt) ≠ 0)

theorem smallIomanx_mountLaws (unit : CStr → υ) :
    MountLaws (smallIomanx unit) unit SmallWorld.mountSet where
  busy f d flag arg len w h := by
    have hbusy : ∃ m ∈ w.mounts, m.1 = unit f ∨ m.2 = d := h
    simp only [smallIomanx, if_pos hbusy]
  mounted f d flag arg len w h := by
    by_cases hbusy : ∃ m ∈ w.mounts, m.1 = unit f ∨ m.2 = d
    · simp only [smallIomanx, if_pos hbusy] at h
      exact absurd h (by decide)
    · simp only [smallIomanx, if_neg hbusy]
      ext m
      simp [SmallWorld.mountSet]
  refused f d flag arg len w h := by
    by_cases hbusy : ∃ m ∈ w.mounts, m.1 = unit f ∨ m.2 = d
    · simp only [smallIomanx, if_pos hbusy]
    · simp only [smallIomanx, if_neg hbusy] at h
      exact absurd rfl h
  unmounted f w := by
    by_cases hon : ∃ m ∈ w.mounts, m.1 = unit f
    · simp only [smallIomanx, if_pos hon]
      ext m
      simp [SmallWorld.mountSet]
    · simp only [smallIomanx, if_neg hon]
      rw [if_neg (by decide)]
  others c w hc := by
    cases c with
    | scepfsMount _ _ _ _ _ | scepfsUmount _ => exact absurd trivial hc
    | scepfsOpen _ _ _ | scepfsDopen _ =>
      simp only [smallIomanx]
      split <;> rfl
    | scepfsClose _ | scepfsDclose _ =>
      simp only [smallIomanx]
      split <;> rfl
    | _ => rfl

end Small

end PfsShell.Pfsd
