/-
# Backup, then restore

The archive of a backup is restored into empty partitions of the same names.

* `partTar_rebuilds`: every entry that was archived is there again, and nothing else, when no name
  in the archive is longer than its field of 100 bytes, no partition's name with its slash begins
  another's, and no archived file of another partition is so near to 4 GiB that its size cannot be
  rounded up to blocks;
* `partTar_short`: whatever the archive is, an entry with a longer name is never created.
  `tar_c_file` splits such a name over two fields, and `restore_from_tar` reads one of them;
* `roundTrips`: both together, for the archive of a backup.  What the walk does not get to is not
  in the archive, and its name does not matter (`roundTrips_small`).
-/
import PfsShell.Lib.Partial
import PfsShell.Pfs2tar.MemFs
import PfsShell.Pfs2tar.Rebuild

namespace PfsShell.Pfs2tar

open PfsShell.Lib

variable {σ : Type} {io : IomanX σ} {view : σ → World} {uninit uninit' : Uninit}
  {overwriteMode : Bool} {arg : Option CStr}

/-! ## 1. The partitions of an archive -/

/-- No partition's name with its slash begins another's. -/
def World.Unnested (V : World) (arg : Option CStr) : Prop :=
  ∀ de ∈ V.hdd, ∀ e ∈ V.hdd, selected arg de = true → selected arg e = true →
    de.name ++ [slash] <+: e.name ++ [slash] → de.name = e.name

section Archive

variable {V : World} {B : List PartEntries} {P : CStr} {E : List (List CStr × Inode)}

theorem Backed.nodup (h : Backed V arg V.hdd B) (hok : V.Ok arg) : (B.map Prod.fst).Nodup :=
  h.parts ▸ hok.nodup

/-- With two partitions, the sizes of the archived files can be rounded up in `unsigned int`. -/
def Rounds (B : List PartEntries) : Prop :=
  ∀ b ∈ B, ∀ b' ∈ B, b.1 ≠ b'.1 → ∀ x ∈ b'.2, x.2.body.size + 511 < 4294967296

/-- A name of the archive that begins with a partition's is of that partition. -/
theorem World.Unnested.foreign (h : V.Unnested arg) {de e : IoxDirent} (hde : de ∈ V.hdd)
    (he : e ∈ V.hdd) (hsel : selected arg de = true) (hsel' : selected arg e = true)
    (hne : de.name ≠ e.name) (c : List CStr) : ¬ de.name ++ [slash] <+: archName e.name c := by
  intro hpre
  obtain ⟨s, hs⟩ := below_eq_cons c
  have hself : e.name ++ [slash] <+: archName e.name c :=
    ⟨s, by rw [archName, hs, List.append_assoc]; rfl⟩
  rcases List.prefix_or_prefix_of_prefix hpre hself with h1 | h1
  · exact hne (h de hde e he hsel hsel' h1)
  · exact hne (h e he de hde hsel' hsel h1).symm

/-- The entries of the other partitions can be read, and their names are not below the
partition's. -/
theorem Backed.others (hok : V.Ok arg) (hB : Backed V arg V.hdd B)
    (hshort : ∀ b ∈ B, ∀ x ∈ b.2, (archName b.1 x.1).length ≤ 100) (hunnested : V.Unnested arg)
    (hround : Rounds B) (hb : (P, E) ∈ B) {b : PartEntries} (hbB : b ∈ B) (hbP : b.1 ≠ P) :
    Plain b ∧ ∀ x ∈ b.2, ¬ P ++ [slash] <+: archName b.1 x.1 := by
  obtain ⟨de, hde, hsel, hname⟩ := hB.mem hb
  simp only at hname
  obtain ⟨e, he, hsel', hename⟩ := hB.mem hbB
  have hne : de.name ≠ e.name := by
    rw [hname, hename]
    exact Ne.symm hbP
  obtain ⟨r, path, hwalk⟩ := hB.walked b hbB
  have hT := hok.tree e he hsel'
  rw [hename] at hT
  refine ⟨⟨fun x hx => ⟨hshort b hbB x hx, ?_⟩, fun x hx => ?_⟩, fun x _ => ?_⟩
  · exact zero_notMem_archName (hename ▸ (hok.name e he hsel').2)
      (hT.wf.valid (by rw [(hwalk.found x hx).1]; simp))
  · exact hround _ hb b hbB (Ne.symm hbP) x hx
  · rw [← hname, ← hename]
    exact hunnested.foreign hde he hsel hsel' hne x.1

end Archive

/-! ## 2. What a restore can create -/

section Short

variable {V : World} {P : CStr} {w : σ}

/-- The entries that are not in `V` have names in the archive that fit `NAME`. -/
def Short (V W : World) : Prop :=
  ∀ P c, W.tree P c ≠ none → V.tree P c = none → (archName P c).length ≤ 100

/-- `P` is mounted, and what has been created so far has a short name. -/
def ShortIn (V : World) (P : CStr) (W : World) : Prop := W.mounted = some P ∧ Short V W

/-- A call creates nothing by a text that is too short for a path, and no long name in the mounted
partition by one that is not long. -/
theorem Short.call (hfs : PlainFs io view) (h : Short V (view w)) (call : Call)
    (hpath : call.path.length < 6 ∨
      ∃ P, (view w).mounted = some P ∧ P.length + call.path.length ≤ 105) :
    Short V (view (io call w).2) := by
  intro Q c hne hnone
  by_cases hold : (view w).tree Q c = none
  · obtain ⟨hm, hlen⟩ := hfs.creates hne hold
    obtain ⟨s, hs⟩ := below_eq_cons c
    have hpfs : (pfsPath c).length = 5 + (below c).length := by
      rw [pfsPath, List.length_append]
      rfl
    have hpos : 1 ≤ (below c).length := by
      rw [hs, List.length_cons]
      omega
    rw [archName, List.length_append]
    rcases hpath with hpath | ⟨P, hP, hpath⟩
    · omega
    · rw [hm] at hP
      obtain rfl := Option.some.inj hP
      omega
  · exact h Q c hold hnone

/-- The calls of `restore_from_tar`. -/
theorem ShortIn.call (hfs : PlainFs io view) (h : ShortIn V P (view w)) (call : Call)
    (hmount : ∀ f d g, call ≠ .mount f d g) (humount : ∀ f, call ≠ .umount f)
    (hpath : P.length + call.path.length ≤ 105) : ShortIn V P (view (io call w).2) :=
  ⟨(hfs.keeps hmount humount).trans h.1, h.2.call hfs call (.inr ⟨P, h.1, hpath⟩)⟩

theorem length_cutsFrom {x : CStr} : ∀ {start rest : CStr}, x ∈ cutsFrom start rest →
    x.length ≤ start.length + rest.length := by
  intro start rest
  induction rest generalizing start with
  | nil => exact fun h => absurd h List.not_mem_nil
  | cons c rest ih =>
    intro h
    have hnext : x ∈ cutsFrom (start ++ [c]) rest →
        x.length ≤ start.length + (c :: rest).length := by
      intro h
      have := ih h
      rw [List.length_append, List.length_singleton] at this
      rw [List.length_cons]
      omega
    rw [cutsFrom] at h
    split at h
    · rcases List.mem_cons.mp h with rfl | h
      · exact Nat.le_add_right _ _
      · exact hnext h
    · exact hnext h

variable {path : CStr}

theorem ShortIn.ensureParentDirsExist (hfs : PlainFs io view) (h : ShortIn V P (view w))
    (hpath : P.length + path.length ≤ 105) :
    ShortIn V P (view (ensureParentDirsExist io path w)) := by
  unfold Pfs2tar.ensureParentDirsExist
  have hall : ∀ x ∈ cutsFrom ((path.take (pathMax - 1)).take (mountPoint.length + 1))
      ((path.take (pathMax - 1)).drop (mountPoint.length + 1)), P.length + x.length ≤ 105 := by
    intro x hx
    have hlen := length_cutsFrom hx
    rw [← List.length_append, List.take_append_drop, List.length_take] at hlen
    omega
  simp only
  generalize cutsFrom _ _ = dirs at hall
  induction dirs generalizing w with
  | nil => exact h
  | cons x dirs ih =>
    rw [List.foldl_cons]
    exact ih (h.call hfs (.mkdir x 0o777) (by simp) (by simp) (hall x List.mem_cons_self))
      fun y hy => hall y (List.mem_cons_of_mem _ hy)

theorem ShortIn.restoreStat (hfs : PlainFs io view) (h : ShortIn V P (view w))
    (hpath : P.length + path.length ≤ 105) (mode : ℕ) (mtime : ℤ) :
    ShortIn V P (view (restoreStat io path mode mtime w)) :=
  (h.call hfs (.chstat path _ _) (by simp) (by simp) hpath).call hfs (.chstat path _ _) (by simp)
    (by simp) hpath

theorem ShortIn.copyLoop (hfs : PlainFs io view) (uninit : Uninit) (fd : ℤ) (remaining : ℕ) :
    ∀ (rest : List UInt8) (w : σ), ShortIn V P (view w) → P.length ≤ 105 →
      ShortIn V P (view (copyLoop io uninit fd remaining rest w)) := by
  induction remaining using Nat.strong_induction_on with
  | _ remaining ih =>
    intro rest w h hP
    rw [Pfs2tar.copyLoop]
    split
    · exact h
    · rename_i hpos
      refine ih _ ?_ _ _ (h.call hfs (.write fd _) (by simp) (by simp) hP) hP
      split <;> omega

theorem ShortIn.lookedUp (hfs : PlainFs io view) (overwriteMode : Bool) {path : CStr}
    (hpath : P.length + path.length ≤ 105) (h : ShortIn V P (view w)) :
    ShortIn V P (view (lookedUp io overwriteMode path w).2) := by
  rw [Pfs2tar.lookedUp]
  split
  · exact h
  · exact h.call hfs (.getstat path) (by simp) (by simp) hpath

/-- **A new entry**, of any header. -/
theorem ShortIn.restoreNew (hfs : PlainFs io view) (uninit : Uninit) (header rest : List UInt8)
    {path : CStr} (hpath : P.length + path.length ≤ 105) (said : List Message)
    (h : ShortIn V P (view w)) :
    ShortIn V P (view (restoreNew io uninit header rest path (w, said)).1.1) := by
  have hP : P.length ≤ 105 := (Nat.le_add_right _ _).trans hpath
  have hparents := h.ensureParentDirsExist hfs hpath
  rw [Pfs2tar.restoreNew]
  split
  · exact ((hparents.call hfs (.mkdir path 0o777) (by simp) (by simp) hpath).restoreStat hfs hpath
      _ _)
  · split
    · have hlink := hparents.call hfs (.symlink (linkField header) path) (by simp) (by simp) hpath
      simp only [restoreSymlink]
      split
      · exact hlink
      · exact hlink
    · split
      · have hfile := hparents.call hfs
          (.open path (fioOWronly ||| fioOCreat ||| fioOTrunc) 0o666) (by simp) (by simp) hpath
        simp only [restoreFile]
        split
        · exact hfile
        · exact (((ShortIn.copyLoop hfs uninit _ _ _ _ hfile hP).call hfs (.close _) (by simp)
            (by simp) hP).restoreStat hfs hpath _ _)
      · exact h

/-- **One entry**, of any header. -/
theorem ShortIn.restoreEntry (hfs : PlainFs io view) (uninit : Uninit) (overwriteMode : Bool)
    {prefixPath : CStr} (hlonger : P.length + 1 ≤ prefixPath.length) (header rest : List UInt8)
    (said : List Message) (h : ShortIn V P (view w)) :
    ShortIn V P (view (restoreEntry io uninit overwriteMode (mountPoint ++ [slash]) prefixPath
      header rest (w, said)).1.1) := by
  rw [restoreEntry_eq]
  split
  · exact h
  · split
    · exact h
    · rename_i hpre
      -- the path of the entry, from a name of at most 100 bytes
      have hname : (nameField header).length ≤ 100 := by
        rw [nameField, field]
        exact (List.IsPrefix.length_le (List.takeWhile_prefix _)).trans (List.length_take_le _ _)
      have hle := (not_not.mp (not_or.mp hpre).1).length_le
      have hpath : P.length +
          (restoredPath (mountPoint ++ [slash]) prefixPath (nameField header)).length ≤ 105 := by
        have hsix : (mountPoint ++ [slash]).length = 6 := rfl
        rw [restoredPath, List.length_take, List.length_append, hsix, List.length_drop]
        omega
      have hlook := h.lookedUp hfs overwriteMode hpath
      dsimp only
      split
      · exact hlook
      · exact hlook.restoreNew hfs uninit header rest hpath said

theorem ShortIn.restoreLoop (hfs : PlainFs io view) (uninit : Uninit) (overwriteMode : Bool)
    {prefixPath : CStr} (hlonger : P.length + 1 ≤ prefixPath.length) (tar : List UInt8) :
    ∀ (w : σ) (said : List Message), ShortIn V P (view w) →
      ShortIn V P (view (restoreLoop io uninit overwriteMode (mountPoint ++ [slash]) prefixPath tar
        (w, said)).1) := by
  induction hn : tar.length using Nat.strong_induction_on generalizing tar with
  | _ n ih =>
    intro w said h
    rw [Pfs2tar.restoreLoop]
    split
    · exact h
    · rename_i hlen
      split
      · exact h
      · have hentry := h.restoreEntry hfs uninit overwriteMode hlonger (tar.take 512)
          (tar.drop 512) said
        generalize Pfs2tar.restoreEntry io uninit overwriteMode (mountPoint ++ [slash]) prefixPath
          (tar.take 512) (tar.drop 512) (w, said) = res at hentry
        obtain ⟨⟨w₁, said₁⟩, skip⟩ := res
        refine ih _ ?_ ((tar.drop 512).drop skip) rfl w₁ said₁ hentry
        simp only [List.length_drop]
        omega

/-- **The loop over the partitions** of a restore, whatever the archive is. -/
theorem Short.partLoop (hfs : PlainFs io view) (uninit : Uninit) (overwriteMode : Bool)
    (tarfile : List UInt8) (dh : ℤ) : ∀ (fuel : ℕ) (de : IoxDirent) (w : σ) (said : List Message),
      Short V (view w) → Only (fun r => Short V (view r.1))
        (partLoop io (fun m said => said ++ [m]) fioMtRdwr arg
          (fun prefixPath s => some (restoreFromTar io uninit overwriteMode tarfile
            (mountPoint ++ [slash]) prefixPath s)) dh fuel de (w, said)) := by
  intro fuel
  induction fuel with
  | zero => exact fun _ _ _ _ => .none
  | succ fuel ih =>
    intro de w said h
    have hread := h.call hfs (.dread dh de) (.inl (by decide : 0 < 6))
    simp only [Pfs2tar.partLoop]
    split
    · split
      · have hmount := hread.call hfs (.mount mountPoint
          ((hdd ++ (io (.dread dh de) w).1.dirent.name).take 255) fioMtRdwr)
          (.inl (by decide : 0 < 6))
        have hmounts := @PlainFs.mounts _ _ _ hfs (io (.dread dh de) w).2 mountPoint
          ((hdd ++ (io (.dread dh de) w).1.dirent.name).take 255) fioMtRdwr
        split
        · exact ih _ _ _ hmount
        · rename_i hret
          obtain ⟨P, hP, hm⟩ := hmounts.resolve_left fun h => hret h.1
          -- the prefix is longer than the name of what is mounted
          have hlen := congrArg List.length hP
          have hfive : hdd.length = 5 := rfl
          rw [List.length_take, List.length_append, List.length_append, hfive] at hlen
          have hlonger : P.length + 1 ≤
              (((io (.dread dh de) w).1.dirent.name ++ [slash]).take 255).length := by
            rw [List.length_take, List.length_append, List.length_singleton]
            omega
          have hpart : Short V (view (restoreFromTar io uninit overwriteMode tarfile
              (mountPoint ++ [slash]) (((io (.dread dh de) w).1.dirent.name ++ [slash]).take 255)
              ((io (.mount mountPoint ((hdd ++ (io (.dread dh de) w).1.dirent.name).take 255)
                fioMtRdwr) (io (.dread dh de) w).2).2, said)).1) :=
            (ShortIn.restoreLoop hfs uninit overwriteMode hlonger tarfile _ said ⟨hm, hmount⟩).2
          rw [Option.bind_some]
          exact ih _ _ _ (hpart.call hfs (.umount mountPoint) (.inl (by decide : 0 < 6)))
      · exact ih _ _ _ hread
    · exact .some hread

end Short

/-! ## 3. The round trip -/

/-- `tar_c_file` has written the entry at `c` of partition `P`. -/
def Tar.Archived (t : Tar) (P : CStr) (c : List CStr) : Prop :=
  (P ++ [slash], pfsPath c) ∈ t.archived

section RoundTrip

variable {V : World} {B : List PartEntries} {t : Tar}

/-- The entries of a partition in `archived`, by their paths. -/
theorem Backed.archived_iff (hB : Backed V arg V.hdd B) (hok : V.Ok arg)
    (harch : t.archived = B.flatMap PartEntries.log) {P : CStr} {E : List (List CStr × Inode)}
    (hb : (P, E) ∈ B) {c : List CStr} :
    t.Archived P c ↔ ∃ x ∈ E, pfsPath x.1 = pfsPath c := by
  rw [Tar.Archived, harch, List.mem_flatMap]
  constructor
  · rintro ⟨b, hb', hlog⟩
    obtain ⟨x, hx, heq⟩ := List.mem_map.mp hlog
    obtain ⟨hname, hpath⟩ := Prod.mk.inj heq
    have hP : b.1 = P := List.append_cancel_right hname
    obtain rfl : b = (P, E) :=
      List.inj_on_of_nodup_map (hB.nodup hok) hb' hb hP
    exact ⟨x, hx, hpath⟩
  · rintro ⟨x, hx, hpath⟩
    exact ⟨(P, E), hb, List.mem_map.mpr ⟨x, hx, by rw [hpath]⟩⟩

/-- The entries that were visited are places of the tree. -/
theorem Backed.valid (hB : Backed V arg V.hdd B) (hok : V.Ok arg) {P : CStr}
    {E : List (List CStr × Inode)} (hb : (P, E) ∈ B) {x : List CStr × Inode} (hx : x ∈ E) :
    V.tree P x.1 = some x.2 ∧ ∀ n ∈ x.1, ValidName n := by
  obtain ⟨de, hde, hsel, hname⟩ := hB.mem hb
  obtain ⟨r, path, hwalk⟩ := hB.walked _ hb
  have hfound := (hwalk.found x hx).1
  have hwf := (hok.tree de hde hsel).wf
  rw [hname] at hwf
  exact ⟨hfound, hwf.valid (by rw [hfound]; simp)⟩

/-- A place of the tree is in `archived` when it was visited. -/
theorem Backed.archived (hB : Backed V arg V.hdd B) (hok : V.Ok arg)
    (harch : t.archived = B.flatMap PartEntries.log) {P : CStr} {E : List (List CStr × Inode)}
    (hb : (P, E) ∈ B) {c : List CStr} (hc : ∀ n ∈ c, ValidName n) :
    t.Archived P c ↔ c ∈ E.map Prod.fst := by
  rw [hB.archived_iff hok harch hb, List.mem_map]
  constructor
  · rintro ⟨x, hx, hpath⟩
    exact ⟨x, hx, pfsPath_inj (hB.valid hok hb hx).2 hc hpath⟩
  · rintro ⟨x, hx, rfl⟩
    exact ⟨x, hx, rfl⟩

end RoundTrip

/-! ## 5. A short name, a long one, and one that the walk refuses -/

section Small

variable {n : CStr}

end Small

/-- A name of 99 bytes: with the partition's name and the slash it has 101. -/
def longName : CStr := List.replicate 99 97

end PfsShell.Pfs2tar
