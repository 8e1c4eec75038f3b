/-
# A plain file system in memory

`memFs` is an iomanX that has its disk in memory: a `World`, with a list of the places where
entries can be, so that a directory can be listed, and a number from which on no descriptor is in
use.  It is a plain file system (`memFs_plain`), so the laws of `PlainFs` can be met.
-/
import Mathlib.Data.List.Dedup
import Mathlib.Data.Set.Finite.Basic
import PfsShell.Pfs2tar.Archive

namespace PfsShell.Pfs2tar

open PfsShell.Lib

/-! ## 1. Entries -/

/-- What `getstat` returns for an entry. -/
def Inode.stat (i : Inode) : IoxStat where
  mode := i.mode
  size := i.body.size % 4294967296
  mtime := i.mtime
  hisize := i.body.size / 4294967296

theorem Inode.stat_size (i : Inode) : i.stat.size = i.body.size % 4294967296 := by
  rw [Inode.stat]

theorem Inode.stat_hisize (i : Inode) : i.stat.hisize = i.body.size / 4294967296 := by
  rw [Inode.stat]

theorem Inode.describes_stat (i : Inode) : i.stat.Describes i where
  mode := rfl
  mtime := rfl
  size := by
    intro bytes hbody
    have hsize : i.body.size = bytes.length := by rw [hbody, Body.size]
    constructor
    · rw [Inode.stat_size, hsize]
    · rw [Inode.stat_hisize, hsize]

/-- Permission bits do not touch the type. -/
theorem Body.ifmt_or (b : Body) (mode : ℕ) :
    (b.ifmt ||| (mode &&& 0xFFF)) &&& fioSIfmt = b.ifmt := by
  have htype : b.ifmt &&& fioSIfmt = b.ifmt := by
    rcases b.fileType with h | h | h <;> rw [h] <;> rfl
  have hperm : 0xFFF &&& fioSIfmt = 0 := rfl
  rw [Nat.and_or_distrib_right, Nat.and_assoc, htype, hperm, Nat.and_zero, Nat.or_zero]

/-- A new entry. -/
def Inode.new (body : Body) (mode : ℕ) : Inode where
  mode := body.ifmt ||| (mode &&& 0xFFF)
  mtime := {}
  body := body
  typed := body.ifmt_or mode

/-- A file with another content. -/
def Inode.fill : Inode → List UInt8 → Inode
  | ⟨mode, mtime, .file _, typed⟩, bytes => ⟨mode, mtime, .file bytes, typed⟩
  | i, _ => i

theorem Inode.body_fill {i : Inode} {old : List UInt8} (h : i.body = .file old)
    (bytes : List UInt8) : (i.fill bytes).body = .file bytes := by
  obtain ⟨mode, mtime, body, typed⟩ := i
  subst h
  rfl

/-- `chstat`: the mode has to keep its type. -/
def Inode.chstat (i : Inode) (st : IoxStat) (mask : ℕ) : Inode :=
  if h : (if mask &&& fioCstMode ≠ 0 then st.mode else i.mode) &&& fioSIfmt = i.body.ifmt then
    { mode := if mask &&& fioCstMode ≠ 0 then st.mode else i.mode
      mtime := if mask &&& fioCstMt ≠ 0 then st.mtime else i.mtime
      body := i.body
      typed := h }
  else i

theorem Inode.chstat_eq {i i' : Inode} {st : IoxStat} {mask : ℕ} (hbody : i'.body = i.body)
    (hmode : i'.mode = if mask &&& fioCstMode ≠ 0 then st.mode else i.mode)
    (hmtime : i'.mtime = if mask &&& fioCstMt ≠ 0 then st.mtime else i.mtime) :
    i.chstat st mask = i' := by
  have htyped : (if mask &&& fioCstMode ≠ 0 then st.mode else i.mode) &&& fioSIfmt =
      i.body.ifmt := by rw [← hmode, ← hbody, i'.typed]
  obtain ⟨mode, mtime, body, typed⟩ := i'
  simp only at hbody hmode hmtime
  subst hbody hmode hmtime
  rw [Inode.chstat, dif_pos htyped]

/-! ## 2. States -/

/-- A world whose entries are at the given `places`, and whose descriptors are below `next`. -/
structure MemFs extends World where
  places : List (CStr × List CStr)
  next : ℕ
  placed : ∀ P c, tree P c ≠ none → (P, c) ∈ places
  unused : ∀ d : ℤ, ¬ (0 ≤ d ∧ d < next) → dirs d = none ∧ files d = none
  apart : ∀ d, dirs d = none ∨ files d = none

namespace MemFs

variable (s : MemFs)

/-- The place in the mounted partition that a text names: it has to be the path of it. -/
def place (path : CStr) : Option (CStr × List CStr) :=
  match s.mounted with
  | some P =>
    if pfsPath (namesOf (path.drop 5)) = path then some (P, namesOf (path.drop 5)) else none
  | none => none

/-- The entry that a text names, with its place. -/
def entry (path : CStr) : Option (CStr × List CStr × Inode) :=
  match s.place path with
  | some (P, c) => (s.tree P c).map fun i => (P, c, i)
  | none => none

/-- The entry at `c` is a directory. -/
def isDir (P : CStr) (c : List CStr) : Bool :=
  match (s.tree P c).map Inode.body with
  | some .dir => true
  | _ => false

/-- The place that a text names, if an entry can be created there. -/
def creatable (path : CStr) : Option (CStr × List CStr) :=
  match s.place path with
  | some (P, c) => if c ≠ [] ∧ s.tree P c = none ∧ s.isDir P c.dropLast then some (P, c) else none
  | none => none

/-- The names in the directory at `c`. -/
def names (P : CStr) (c : List CStr) : List CStr :=
  (s.places.filterMap fun x =>
    if x.1 = P ∧ x.2.dropLast = c ∧ s.tree x.1 x.2 ≠ none then x.2.getLast? else none).dedup

/-- The file behind a descriptor: its place, the position, and what is there. -/
def opened (f : ℤ) : Option (CStr × List CStr × ℕ × Inode × List UInt8) :=
  match s.mounted, s.files f with
  | some P, some (c, pos) =>
    match s.tree P c with
    | some i =>
      match i.body with
      | .file bytes => some (P, c, pos, i, bytes)
      | _ => none
    | none => none
  | _, _ => none

/-- The state with the entry `i` at `c` of partition `P`. -/
def put (P : CStr) (c : List CStr) (i : Inode) : MemFs :=
  { s with
    toWorld := s.toWorld.put P c i
    places := (P, c) :: s.places
    placed := by
      intro Q d h
      by_cases heq : Q = P ∧ d = c
      · rw [heq.1, heq.2]
        exact List.mem_cons_self
      · rw [World.tree_put_of_ne _ _ _ _ heq] at h
        exact List.mem_cons_of_mem _ (s.placed Q d h) }

/-- The state with other open directories and files. -/
def reopen (dirs : ℤ → Option (List IoxDirent)) (files : ℤ → Option (List CStr × ℕ)) (n : ℕ)
    (hunused : ∀ d : ℤ, ¬ (0 ≤ d ∧ d < n) → dirs d = none ∧ files d = none)
    (hapart : ∀ d, dirs d = none ∨ files d = none) : MemFs :=
  { s with
    toWorld := { s.toWorld with dirs := dirs, files := files }
    next := n
    unused := hunused
    apart := hapart }

variable {s}

/-- A descriptor that is in use. -/
theorem inUse {d : ℤ} (h : s.dirs d ≠ none ∨ s.files d ≠ none) : 0 ≤ d ∧ d < s.next := by
  by_contra hd
  rcases h with h | h
  · exact h (s.unused d hd).1
  · exact h (s.unused d hd).2

variable (s)

/-- The directory `d` gets a listing, or none; when it gets one, it is open or it is new. -/
def setDir (d : ℤ) (listing : Option (List IoxDirent))
    (h : listing ≠ none → s.files d = none ∧ 0 ≤ d ∧ d ≤ s.next) : MemFs :=
  s.reopen (Function.update s.dirs d listing) s.files (s.next + 1)
    (by
      intro e he
      obtain ⟨hdirs, hfiles⟩ := s.unused e (by omega)
      refine ⟨?_, hfiles⟩
      by_cases hed : e = d
      · subst hed
        rw [Function.update_self]
        by_contra hne
        have := h hne
        omega
      · rwa [Function.update_of_ne hed])
    (by
      intro e
      by_cases hed : e = d
      · subst hed
        rw [Function.update_self]
        by_cases hne : listing = none
        · exact .inl hne
        · exact .inr (h hne).1
      · rw [Function.update_of_ne hed]
        exact s.apart e)

/-- The file `f` gets a place and a position, or none; when it gets one, it is open or new. -/
def setFile (f : ℤ) (file : Option (List CStr × ℕ))
    (h : file ≠ none → s.dirs f = none ∧ 0 ≤ f ∧ f ≤ s.next) : MemFs :=
  s.reopen s.dirs (Function.update s.files f file) (s.next + 1)
    (by
      intro e he
      obtain ⟨hdirs, hfiles⟩ := s.unused e (by omega)
      refine ⟨hdirs, ?_⟩
      by_cases hef : e = f
      · subst hef
        rw [Function.update_self]
        by_contra hne
        have := h hne
        omega
      · rwa [Function.update_of_ne hef])
    (by
      intro e
      by_cases hef : e = f
      · subst hef
        rw [Function.update_self]
        by_cases hne : file = none
        · exact .inr hne
        · exact .inl (h hne).1
      · rw [Function.update_of_ne hef]
        exact s.apart e)

@[simp] theorem toWorld_put (P : CStr) (c : List CStr) (i : Inode) :
    (s.put P c i).toWorld = s.toWorld.put P c i := rfl

@[simp] theorem toWorld_setDir (d : ℤ) (listing : Option (List IoxDirent))
    (h : listing ≠ none → s.files d = none ∧ 0 ≤ d ∧ d ≤ s.next) :
    (s.setDir d listing h).toWorld = s.toWorld.setDir d listing := rfl

@[simp] theorem toWorld_setFile (f : ℤ) (file : Option (List CStr × ℕ))
    (h : file ≠ none → s.dirs f = none ∧ 0 ≤ f ∧ f ≤ s.next) :
    (s.setFile f file h).toWorld = s.toWorld.setFile f file := rfl

/-! ## 3. Calls -/

/-- An open directory, from which `listing` is still to be read. -/
def openDir (listing : List IoxDirent) : Reply × MemFs :=
  ({ ret := s.next }, s.setDir s.next (some listing)
    fun _ => ⟨(s.unused s.next (by omega)).2, by omega, le_refl _⟩)

/-- An open file, at its start. -/
def openFile (c : List CStr) : Reply × MemFs :=
  ({ ret := s.next }, s.setFile s.next (some (c, 0))
    fun _ => ⟨(s.unused s.next (by omega)).1, by omega, le_refl _⟩)

/-- The open directory `d` goes on to `listing`. -/
def advance (d : ℤ) (listing : List IoxDirent) : MemFs :=
  if h : s.dirs d ≠ none then
    s.setDir d (some listing) fun _ =>
      ⟨(s.apart d).resolve_left h, (inUse (.inl h)).1, (inUse (.inl h)).2.le⟩
  else s

/-- The open file `f` goes on to a position. -/
def seek (f : ℤ) (c : List CStr) (pos : ℕ) : MemFs :=
  if h : s.files f ≠ none then
    s.setFile f (some (c, pos)) fun _ =>
      ⟨(s.apart f).resolve_right h, (inUse (.inr h)).1, (inUse (.inr h)).2.le⟩
  else s

/-- A new entry. -/
def mknod (path : CStr) (body : Body) (mode : ℕ) : Reply × MemFs :=
  match s.creatable path with
  | some (P, c) => ({}, s.put P c (.new body mode))
  | none => ({ ret := -17 }, s)

end MemFs

/-- iomanX with its disk in memory. -/
def memFs : IomanX MemFs
  | .getstat path, s =>
    match s.entry path with
    | some (_, _, i) => ({ stat := i.stat }, s)
    | none => ({ ret := -2 }, s)
  | .dopen path, s =>
    if path = hdd then s.openDir s.hdd
    else
      match s.place path with
      | some (P, c) =>
        if s.isDir P c then s.openDir ((s.names P c).map fun n => { name := n })
        else ({ ret := -20 }, s)
      | none => ({ ret := -2 }, s)
  | .dread d de, s =>
    match s.dirs d with
    | some (e :: listing) => ({ ret := 1, dirent := e }, s.advance d listing)
    | some [] => ({ dirent := de }, s)
    | none => ({ ret := -1, dirent := de }, s)
  | .close d, s =>
    if s.dirs d ≠ none then ({}, s.setDir d none fun h => absurd rfl h)
    else if s.files d ≠ none then ({}, s.setFile d none fun h => absurd rfl h)
    else ({ ret := -9 }, s)
  | .open path flags mode, s =>
    if flags = fioORdonly then
      match s.entry path with
      | some (_, c, i) => if fioSIsreg i.mode then s.openFile c else ({ ret := -21 }, s)
      | none => ({ ret := -2 }, s)
    else
      match s.creatable path, s.entry path with
      | some (P, c), _ => (s.put P c (.new (.file []) mode)).openFile c
      | none, some (P, c, i) =>
        if fioSIsreg i.mode then (s.put P c (i.fill [])).openFile c else ({ ret := -21 }, s)
      | none, none => ({ ret := -2 }, s)
  | .read f size, s =>
    match s.opened f with
    | some (_, c, pos, _, bytes) =>
      let data := (bytes.drop pos).take size
      ({ ret := data.length, data := data }, s.seek f c (pos + data.length))
    | none => ({ ret := -9 }, s)
  | .write f data, s =>
    match s.opened f with
    | some (P, c, pos, i, bytes) =>
      ({ ret := data.length }, (s.put P c (i.fill (bytes.take pos ++ data ++
        bytes.drop (pos + data.length)))).seek f c (pos + data.length))
    | none => ({ ret := -9 }, s)
  | .readlink path size, s =>
    match s.entry path with
    | some (_, _, i) =>
      match i.body with
      | .link target => ({ ret := (target.take size).length, data := target.take size }, s)
      | _ => ({ ret := -22 }, s)
    | none => ({ ret := -2 }, s)
  | .mkdir path mode, s => s.mknod path .dir mode
  | .chstat path st mask, s =>
    match s.entry path with
    | some (P, c, i) => ({}, s.put P c (i.chstat st mask))
    | none => ({ ret := -2 }, s)
  | .symlink old new, s => s.mknod new (.link old) 0o777
  | .mount _ devname _, s =>
    if s.mounted = none ∧ s.hdd.any fun de => selected none de && hdd ++ de.name = devname then
      ({}, { s with mounted := some (devname.drop 5) })
    else ({ ret := -2 }, s)
  | .umount _, s => ({}, { s with mounted := none })

/-! ## 4. Laws -/

namespace MemFs

variable {s : MemFs} {P : CStr} {c : List CStr} {i : Inode} {path : CStr}

theorem place_pfsPath (h : s.toWorld.At P c) : s.place (pfsPath c) = some (P, c) := by
  have hdrop : (pfsPath c).drop 5 = below c := rfl
  simp only [place, h.1, hdrop, namesOf_below h.2, if_true]

theorem place_some (h : s.place path = some (P, c)) : s.mounted = some P ∧ pfsPath c = path := by
  unfold place at h
  split at h
  · rename_i hm
    split at h
    · rename_i hpath
      obtain ⟨rfl, rfl⟩ := Prod.mk.inj (Option.some.inj h)
      exact ⟨hm, hpath⟩
    · cases h
  · cases h

theorem entry_pfsPath (h : s.toWorld.At P c) (hi : s.tree P c = some i) :
    s.entry (pfsPath c) = some (P, c, i) := by
  simp only [entry, place_pfsPath h, hi, Option.map_some]

theorem entry_none (h : s.toWorld.At P c) (hi : s.tree P c = none) :
    s.entry (pfsPath c) = none := by
  simp only [entry, place_pfsPath h, hi, Option.map_none]

theorem entry_some (h : s.entry path = some (P, c, i)) : s.tree P c = some i := by
  unfold entry at h
  split at h
  · rename_i Q d hplace
    obtain ⟨j, hj, heq⟩ := Option.map_eq_some_iff.mp h
    obtain ⟨rfl, rfl, rfl⟩ : Q = P ∧ d = c ∧ j = i := by simpa using heq
    exact hj
  · cases h

theorem isDir_iff : s.isDir P c = true ↔ (s.tree P).IsDir c := by
  unfold isDir Tree.IsDir
  cases s.tree P c with
  | none => simp
  | some i =>
    simp only [Option.map_some, Option.some.injEq, exists_eq_left']
    cases i.body <;> simp

theorem creatable_pfsPath (h : s.toWorld.Creatable P c) :
    s.creatable (pfsPath c) = some (P, c) := by
  obtain ⟨hat, hne, hnone, hdir⟩ := h
  simp only [creatable, place_pfsPath hat]
  rw [if_pos ⟨hne, hnone, isDir_iff.mpr hdir⟩]

theorem creatable_none (h : s.toWorld.At P c) (hne : s.tree P c ≠ none) :
    s.creatable (pfsPath c) = none := by
  simp only [creatable, place_pfsPath h]
  rw [if_neg fun h => hne h.2.1]

theorem creatable_some (h : s.creatable path = some (P, c)) :
    s.mounted = some P ∧ pfsPath c = path := by
  unfold creatable at h
  split at h
  · rename_i Q d hplace
    split at h
    · obtain ⟨rfl, rfl⟩ := Prod.mk.inj (Option.some.inj h)
      exact place_some hplace
    · cases h
  · cases h

theorem mem_names {n : CStr} : n ∈ s.names P c ↔ s.tree P (c ++ [n]) ≠ none := by
  rw [names, List.mem_dedup, List.mem_filterMap]
  constructor
  · rintro ⟨⟨Q, d⟩, -, hx⟩
    split at hx
    · rename_i h
      obtain ⟨rfl, rfl, hne⟩ := h
      have hd : d = d.dropLast ++ [n] := (List.dropLast_append_getLast? n hx).symm
      rwa [← hd]
    · cases hx
  · intro hne
    refine ⟨(P, c ++ [n]), s.placed _ _ hne, ?_⟩
    rw [if_pos ⟨rfl, List.dropLast_concat, hne⟩, List.getLast?_concat]

theorem lists_names (s : MemFs) (P : CStr) (c : List CStr) :
    (s.tree P).Lists c ((s.names P c).map fun n => { name := n }) := by
  have hmap : ((s.names P c).map fun n => ({ name := n } : IoxDirent)).map IoxDirent.name =
      s.names P c := by
    rw [List.map_map]
    exact List.map_id _
  refine ⟨?_, fun de hde _ => ?_, fun n hn => ?_⟩
  · rw [hmap]
    exact List.nodup_dedup _
  · obtain ⟨n, hn, rfl⟩ := List.mem_map.mp hde
    exact mem_names.mp hn
  · rw [hmap]
    exact mem_names.mpr hn

theorem opened_eq {bytes : List UInt8} {f : ℤ} {pos : ℕ} (hm : s.mounted = some P)
    (hf : s.files f = some (c, pos)) (hi : s.tree P c = some i) (hbody : i.body = .file bytes) :
    s.opened f = some (P, c, pos, i, bytes) := by
  simp only [opened, hm, hf, hi, hbody]

theorem opened_some {bytes : List UInt8} {f : ℤ} {pos : ℕ}
    (h : s.opened f = some (P, c, pos, i, bytes)) : s.tree P c = some i := by
  unfold opened at h
  split at h
  · split at h
    · rename_i hj
      split at h
      · obtain ⟨rfl, rfl, -, rfl, -⟩ := by simpa using h
        exact hj
      · cases h
    · cases h
  · cases h

theorem free_next (s : MemFs) : s.toWorld.Free s.next :=
  ⟨by omega, s.unused s.next (by omega)⟩

theorem toWorld_advance {d : ℤ} (h : s.dirs d ≠ none) (listing : List IoxDirent) :
    (s.advance d listing).toWorld = s.toWorld.setDir d (some listing) := by
  rw [advance, dif_pos h, toWorld_setDir]

theorem toWorld_seek {f : ℤ} (h : s.files f ≠ none) (c : List CStr) (pos : ℕ) :
    (s.seek f c pos).toWorld = s.toWorld.setFile f (some (c, pos)) := by
  rw [seek, dif_pos h, toWorld_setFile]

theorem advance_same (d : ℤ) (listing : List IoxDirent) :
    (s.advance d listing).mounted = s.mounted ∧ (s.advance d listing).tree = s.tree := by
  unfold advance
  split
  · exact ⟨rfl, rfl⟩
  · exact ⟨rfl, rfl⟩

theorem seek_same (f : ℤ) (c : List CStr) (pos : ℕ) :
    (s.seek f c pos).mounted = s.mounted ∧ (s.seek f c pos).tree = s.tree := by
  unfold seek
  split
  · exact ⟨rfl, rfl⟩
  · exact ⟨rfl, rfl⟩

/-- At most the entry with the given path is created, in the mounted partition. -/
def Creates (path : CStr) (s s' : MemFs) : Prop :=
  s'.mounted = s.mounted ∧ ∀ P c, s'.tree P c ≠ none → s.tree P c = none →
    s.mounted = some P ∧ pfsPath c = path

theorem Creates.same {s' : MemFs} (hm : s'.mounted = s.mounted) (htree : s'.tree = s.tree) :
    Creates path s s' := by
  refine ⟨hm, fun P c hne hnone => ?_⟩
  rw [htree] at hne
  exact absurd hnone hne

theorem Creates.put (h : s.tree P c ≠ none ∨ s.mounted = some P ∧ pfsPath c = path) :
    Creates path s (s.put P c i) := by
  refine ⟨rfl, fun Q d hne hnone => ?_⟩
  by_cases heq : Q = P ∧ d = c
  · obtain ⟨rfl, rfl⟩ := heq
    exact h.resolve_left fun hne => hne hnone
  · rw [toWorld_put, World.tree_put_of_ne _ _ _ _ heq] at hne
    exact absurd hnone hne

theorem Creates.trans {s' s'' : MemFs} (h : Creates path s s') (hm : s''.mounted = s'.mounted)
    (htree : s''.tree = s'.tree) : Creates path s s'' := by
  refine ⟨hm.trans h.1, fun P c hne hnone => h.2 P c ?_ hnone⟩
  rwa [← htree]

theorem Creates.mknod (body : Body) (mode : ℕ) : Creates path s (s.mknod path body mode).2 := by
  unfold MemFs.mknod
  split
  · rename_i hplace
    exact .put (.inr (creatable_some hplace))
  · exact .same rfl rfl

/-- **What a call creates.** -/
theorem creates_call (call : Call) (s : MemFs) (hmount : ∀ f d g, call ≠ .mount f d g)
    (humount : ∀ f, call ≠ .umount f) : Creates call.path s (memFs call s).2 := by
  cases call with
  | getstat path =>
    simp only [memFs]
    split <;> exact .same rfl rfl
  | dopen path =>
    simp only [memFs]
    split
    · exact .same rfl rfl
    · split
      · split <;> exact .same rfl rfl
      · exact .same rfl rfl
  | dread d de =>
    simp only [memFs]
    split
    · exact .same (advance_same _ _).1 (advance_same _ _).2
    · exact .same rfl rfl
    · exact .same rfl rfl
  | close d =>
    simp only [memFs]
    split
    · exact .same rfl rfl
    · split <;> exact .same rfl rfl
  | «open» path flags mode =>
    simp only [memFs]
    split
    · split
      · split <;> exact .same rfl rfl
      · exact .same rfl rfl
    · split
      · rename_i hplace
        exact (Creates.put (.inr (creatable_some hplace))).trans rfl rfl
      · rename_i hentry
        split
        · refine (Creates.put (.inl ?_)).trans rfl rfl
          rw [entry_some hentry]
          exact Option.some_ne_none _
        · exact .same rfl rfl
      · exact .same rfl rfl
  | read f size =>
    simp only [memFs]
    split
    · exact .same (seek_same _ _ _).1 (seek_same _ _ _).2
    · exact .same rfl rfl
  | write f data =>
    simp only [memFs]
    split
    · rename_i hopened
      refine (Creates.put (.inl ?_)).trans (seek_same _ _ _).1 (seek_same _ _ _).2
      rw [opened_some hopened]
      exact Option.some_ne_none _
    · exact .same rfl rfl
  | readlink path size =>
    simp only [memFs]
    split
    · split <;> exact .same rfl rfl
    · exact .same rfl rfl
  | mkdir path mode => exact .mknod .dir mode
  | chstat path st mask =>
    simp only [memFs]
    split
    · rename_i hentry
      refine .put (.inl ?_)
      rw [entry_some hentry]
      exact Option.some_ne_none _
    · exact .same rfl rfl
  | symlink old new => exact .mknod (.link old) 0o777
  | mount f d g => exact absurd rfl (hmount f d g)
  | umount f => exact absurd rfl (humount f)

theorem reg_of_file {bytes : List UInt8} (h : i.body = .file bytes) : fioSIsreg i.mode = true :=
  (fioSIsreg_iff i).mpr ⟨bytes, h⟩

/-- The path of an entry is not `hdd0:`. -/
theorem pfsPath_ne_hdd (c : List CStr) : pfsPath c ≠ hdd := by
  intro h
  have hhead : (pfsPath c).head? = some 112 := rfl
  rw [h] at hhead
  exact absurd hhead (by decide)

/-- A partition that can be mounted. -/
theorem mount_any {de : IoxDirent} (hde : de ∈ s.hdd) (hsel : selected none de = true) :
    (s.hdd.any fun e => selected none e && hdd ++ e.name = hdd ++ de.name) = true :=
  List.any_eq_true.mpr ⟨de, hde, by rw [hsel]; simp⟩

end MemFs

open MemFs

/-- **It is a plain file system.** -/
theorem memFs_plain : PlainFs memFs MemFs.toWorld where
  getstat_some := fun hc hi => by
    simp only [memFs, entry_pfsPath hc hi]
    exact ⟨trivial, Inode.describes_stat _, trivial⟩
  getstat_none := fun hc hi => by
    simp only [memFs, entry_none hc hi]
    exact ⟨by decide, trivial⟩
  dopen_hdd := fun {s} => by
    simp only [memFs, if_true]
    exact ⟨s.next, rfl, free_next s, rfl⟩
  dopen_dir := fun {s P c} hc hdir => by
    simp only [memFs, if_neg (pfsPath_ne_hdd c), place_pfsPath hc, if_pos (isDir_iff.mpr hdir)]
    exact ⟨s.next, _, rfl, free_next s, lists_names s P c, rfl⟩
  dread_cons := fun {s d e listing} buffer hd => by
    have hne : s.dirs d ≠ none := by rw [hd]; exact Option.some_ne_none _
    simp only [memFs, hd, toWorld_advance hne]
    exact ⟨by decide, trivial, trivial⟩
  dread_nil := fun {s d} buffer hd => by
    simp only [memFs, hd, and_self]
  close_dir := fun {s d listing} hd => by
    have hne : s.dirs d ≠ none := by rw [hd]; exact Option.some_ne_none _
    simp only [memFs, if_pos hne, toWorld_setDir]
    exact ⟨le_refl _, trivial⟩
  close_file := fun {s f file} hf => by
    have hne : s.files f ≠ none := by rw [hf]; exact Option.some_ne_none _
    have hdir : ¬ s.dirs f ≠ none := fun h => hne ((s.apart f).resolve_left h)
    simp only [memFs, if_neg hdir, if_pos hne, toWorld_setFile]
    exact ⟨le_refl _, trivial⟩
  close_neg := fun {s d} hd => by
    obtain ⟨hdirs, hfiles⟩ := s.unused d (by omega)
    simp only [memFs, hdirs, hfiles, ne_eq, not_true_eq_false, if_false]
  open_read := fun {s P c i bytes} hc hi hbody => by
    simp only [memFs, if_true, entry_pfsPath hc hi, if_pos (reg_of_file hbody)]
    exact ⟨s.next, rfl, free_next s, rfl⟩
  open_create := fun {s P c} mode hc => by
    have hflags : ¬ fioOWronly ||| fioOCreat ||| fioOTrunc = fioORdonly := by decide
    simp only [memFs, if_neg hflags, creatable_pfsPath hc]
    exact ⟨s.next, .new (.file []) mode, rfl, free_next s, rfl, rfl⟩
  read := fun {s P c i bytes f pos n} hm hf hi hbody => by
    have hne : s.files f ≠ none := by rw [hf]; exact Option.some_ne_none _
    simp only [memFs, opened_eq hm hf hi hbody, toWorld_seek hne, and_self]
  write := fun {s P c i bytes f} data hm hf hi hbody => by
    have hne : (s.put P c (i.fill (bytes ++ data))).files f ≠ none := by
      rw [toWorld_put, World.files_put, hf]
      exact Option.some_ne_none _
    refine ⟨i.fill (bytes ++ data), Inode.body_fill hbody _, ?_⟩
    have hdrop : bytes.drop (bytes.length + data.length) = [] :=
      List.drop_of_length_le (Nat.le_add_right _ _)
    simp only [memFs, opened_eq hm hf hi hbody, List.take_length, hdrop, List.append_nil,
      List.length_append]
    rw [toWorld_seek hne, toWorld_put]
  readlink := fun hc hi hbody => by
    simp only [memFs, entry_pfsPath hc hi, hbody, and_self]
  mkdir_new := fun {s P c} mode hc => by
    refine ⟨.new .dir mode, rfl, ?_⟩
    simp only [memFs, mknod, creatable_pfsPath hc, toWorld_put]
  mkdir_old := fun mode hc hne => by
    simp only [memFs, mknod, creatable_none hc hne]
  symlink_new := fun {s P c} target hc => by
    refine ⟨.new (.link target) 0o777, rfl, ?_⟩
    simp only [memFs, mknod, creatable_pfsPath hc, toWorld_put]
    exact ⟨le_refl _, trivial⟩
  chstat := fun i' st mask hc hi hbody hmode hmtime => by
    simp only [memFs, entry_pfsPath hc hi, Inode.chstat_eq hbody hmode hmtime, toWorld_put]
  mount := fun {s de} flag hm hde hsel => by
    have hdrop : (hdd ++ de.name).drop 5 = de.name := rfl
    simp only [memFs, if_pos (And.intro hm (mount_any hde hsel)), hdrop]
    exact ⟨le_refl _, trivial⟩
  umount := fun {s} => rfl
  keeps := fun {s call} hmount humount => (creates_call call s hmount humount).1
  mounts := fun {s fsname devname flag} => by
    simp only [memFs]
    split
    · rename_i h
      obtain ⟨de, -, hde⟩ := List.any_eq_true.mp h.2
      obtain ⟨-, hname⟩ : selected none de = true ∧ hdd ++ de.name = devname := by simpa using hde
      exact .inr ⟨de.name, hname.symm, by rw [← hname]; rfl⟩
    · exact .inl ⟨Int.negSucc_lt_zero 1, rfl⟩
  creates := fun {s call P c} hne hnone => by
    by_cases hmount : ∃ f d g, call = .mount f d g
    · obtain ⟨f, d, g, rfl⟩ := hmount
      refine absurd hnone ?_
      simp only [memFs] at hne
      split at hne
      · exact hne
      · exact hne
    · by_cases humount : ∃ f, call = .umount f
      · obtain ⟨f, rfl⟩ := humount
        exact absurd hnone hne
      · obtain ⟨-, hnew⟩ := creates_call call s (fun f d g h => hmount ⟨f, d, g, h⟩)
          fun f h => humount ⟨f, h⟩
        obtain ⟨hm, hpath⟩ := hnew P c hne hnone
        exact ⟨hm, by rw [hpath]⟩

/-! ## 5. A small disk -/

/-- 9 September 2001. -/
def someDay : Stamp := { day := 9, month := 9, yearLow := 209, yearHigh := 7 }

/-- A directory with a file of three bytes in it. -/
def smallTree (n : CStr) : Tree := fun c =>
  if c = [] then some { Inode.new .dir 0o755 with mtime := someDay }
  else if c = [n] then some { Inode.new (.file [1, 2, 3]) 0o644 with mtime := someDay }
  else none

section Small

variable {n : CStr}

theorem smallTree_ne {c : List CStr} (h : smallTree n c ≠ none) : c = [] ∨ c = [n] := by
  unfold smallTree at h
  split at h
  · rename_i hc
    exact .inl hc
  · split at h
    · rename_i hc
      exact .inr hc
    · exact absurd rfl h

theorem smallTree_concat {c : List CStr} {m : CStr} (h : smallTree n (c ++ [m]) ≠ none) :
    c = [] ∧ m = n := by
  rcases smallTree_ne h with h | h
  · simp at h
  · have hsplit : c ++ [m] = [] ++ [n] := h
    obtain ⟨hc, hn⟩ := List.append_inj' hsplit rfl
    exact ⟨hc, List.head_eq_of_cons_eq hn⟩

theorem smallTree_wf (hn : ValidName n) : (smallTree n).Wf where
  root := ⟨_, rfl, rfl⟩
  parent := by
    intro c m h
    obtain ⟨rfl, rfl⟩ := smallTree_concat h
    exact ⟨⟨_, rfl, rfl⟩, hn⟩

theorem smallTree_finite : {c | smallTree n c ≠ none}.Finite :=
  (Set.finite_singleton [n]).insert [] |>.subset fun _ h => smallTree_ne h

theorem someDay_dated : someDay.Dated :=
  ⟨⟨by decide, by decide, by decide, by decide, by decide⟩, by decide⟩

theorem smallTree_ok (hn : ValidName n) : (smallTree n).Ok where
  wf := smallTree_wf hn
  finite := smallTree_finite
  entry := by
    intro c i hc hi
    rw [smallTree, if_neg hc] at hi
    split at hi
    · obtain rfl := Option.some.inj hi
      exact ⟨by decide, fun target hbody => (by cases hbody), someDay_dated⟩
    · cases hi

/-- A disk with the given tree as its partition `A`, whose entries are at `places`. -/
def diskOf (T : Tree) (places : List (List CStr)) (h : ∀ c, T c ≠ none → c ∈ places) : MemFs where
  hdd := [{ stat := { mode := 0x0100 }, name := ascii ['A'] }]
  tree := fun P => if P = ascii ['A'] then T else fun _ => none
  mounted := none
  dirs := fun _ => none
  files := fun _ => none
  places := places.map fun c => (ascii ['A'], c)
  next := 3
  placed := by
    intro P c hne
    by_cases hP : P = ascii ['A']
    · rw [if_pos hP] at hne
      rw [hP]
      exact List.mem_map_of_mem (h c hne)
    · rw [if_neg hP] at hne
      exact absurd rfl hne
  unused := fun _ _ => ⟨rfl, rfl⟩
  apart := fun _ => .inl rfl

/-- The disk with that one file. -/
def smallDisk (n : CStr) : MemFs :=
  diskOf (smallTree n) [[], [n]] fun c h => by
    rcases smallTree_ne h with rfl | rfl
    · exact List.mem_cons_self
    · exact List.mem_cons_of_mem _ List.mem_cons_self

theorem smallDisk_entry {de : IoxDirent} (hde : de ∈ (smallDisk n).hdd) :
    de.name = ascii ['A'] ∧ (smallDisk n).tree de.name = smallTree n := by
  rw [List.mem_singleton.mp hde]
  exact ⟨rfl, rfl⟩

theorem smallDisk_ok (hn : ValidName n) : (smallDisk n).Ok none where
  mounted := rfl
  nodup := List.nodup_singleton _
  name := by
    intro de hde _
    rw [(smallDisk_entry hde).1]
    exact ⟨by decide, by decide⟩
  tree := by
    intro de hde _
    rw [(smallDisk_entry hde).2]
    exact smallTree_ok hn

end Small

end PfsShell.Pfs2tar
