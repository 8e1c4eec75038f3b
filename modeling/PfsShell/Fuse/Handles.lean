/-
# Open files in FUSE

The operations of `src/iomanx_adapter.c` that open, close and remove files, and what reads and
writes mean to those who use the file system.

A `Session` is what such a user knows: which file a path names, which file a descriptor is open on,
and the bytes of each file.  There are no positions in it; `Does` are the operations on it, and any
of them may fail, and then changes nothing.

The driver has positions.  `Store` is a session as a driver keeps it, and `StoreLaws` is what its
calls do there.

* `openFlags_creat`, `openFlags_trunc`: what creates or truncates a file for FUSE does so for iomanX;
* `diskLaws`: the laws hold of a driver that keeps its files in memory.
-/
import PfsShell.Fuse.Links
import PfsShell.Fuse.Offsets
import PfsShell.Lib.Bytes

namespace PfsShell.Fuse

open PfsShell.Lib

/-! ## 1. The operations -/

/-- Calls with a path. -/
inductive NameCall
  | open (path : CStr) (flags : ℕ) (mode : Option ℕ)
  | remove (path : CStr)

/-- iomanX, as far as these go. -/
abbrev NameIomanX (σ : Type) := NameCall → σ → ℤ × σ

/-- What an operation returns, with the bytes that were read and the descriptor in `fi->fh`. -/
structure Answer where
  ret : ℤ := 0
  data : List UInt8 := []
  fh : Option ℕ := none
deriving DecidableEq

/-- A path that fits the buffers with the mount point in front of it. -/
structure Path where
  text : CStr
  fits : text.length + 6 < 1024

/-- The path iomanX gets. -/
def Path.translated (path : Path) : CStr := iomanxRoot ++ path.text

/-- `translate_path` does not write beyond its buffer. -/
theorem Path.translate (path : Path) : translatePath path.text 1024 = some path.translated :=
  translatePath_of_lt path.fits

/-- `O_ACCMODE` for iomanX. -/
def accessFlags (fuseFlags : ℕ) : ℕ :=
  let flags := 0
  let flags := if fuseFlags &&& 3 = 0 then flags ||| 0x0001 else flags
  let flags := if fuseFlags &&& 3 = 1 then flags ||| 0x0002 else flags
  if fuseFlags &&& 3 = 2 then flags ||| 0x0003 else flags

/-- The flags of `iomanx_adapter_open`: `O_NONBLOCK`, `O_APPEND`, `O_CREAT`, `O_TRUNC` and
`O_EXCL`. -/
def openFlags (fuseFlags : ℕ) : ℕ :=
  Pfs2tar.copyBits [(0o4000, 0x0010), (0o2000, 0x0100), (0o100, 0x0200), (0o1000, 0x0400),
    (0o200, 0x0800)] fuseFlags (accessFlags fuseFlags)

/-- The flags of `iomanx_adapter_create`. -/
def createFlags (fuseFlags : ℕ) : ℕ :=
  Pfs2tar.copyBits [(0o1000, 0x0400), (0o200, 0x0800)] fuseFlags
    (Pfs2tar.copyBits [(0o4000, 0x0010), (0o2000, 0x0100)] fuseFlags (accessFlags fuseFlags)
      ||| 0x0200)

section Operations

variable {σ : Type} (io : IomanX σ) (names : NameIomanX σ)

/-- What follows `iomanX_open`. -/
def opened (r : ℤ × σ) : Answer × σ :=
  if r.1 < 0 then ({ ret := r.1 }, r.2) else ({ fh := some r.1.toNat }, r.2)

/-- What follows a call of which only the failure is handed on. -/
def passed (r : ℤ × σ) : Answer × σ := if r.1 < 0 then ({ ret := r.1 }, r.2) else ({}, r.2)

/-- `iomanx_adapter_open`; the flags are in `fi`. -/
def iomanxAdapterOpen (path : CStr) (fi : Option ℕ) (w : σ) : Option (Answer × σ) :=
  match fi with
  | none => some ({}, w)
  | some flags => (translatePath path 1024).map fun translatedPath =>
      opened (names (.open translatedPath (openFlags flags) none) w)

/-- `iomanx_adapter_create`. -/
def iomanxAdapterCreate (path : CStr) (mode : ℕ) (fi : Option ℕ) (w : σ) : Option (Answer × σ) :=
  match fi with
  | none => some ({}, w)
  | some flags => (translatePath path 1024).map fun translatedPath =>
      opened (names (.open translatedPath (createFlags flags) (some (convertModeToIomanx mode))) w)

/-- `iomanx_adapter_unlink`. -/
def iomanxAdapterUnlink (path : CStr) (w : σ) : Option (Answer × σ) :=
  (translatePath path 1024).map fun translatedPath => passed (names (.remove translatedPath) w)

/-- `iomanx_adapter_release`. -/
def iomanxAdapterRelease (fi : Option FuseFileInfo) (w : σ) : Answer × σ :=
  match fi with
  | none => ({}, w)
  | some fi => passed ((io (.close (toInt fi.fh)) w).1.ret, (io (.close (toInt fi.fh)) w).2)

/-- `iomanx_adapter_ftruncate`: nothing is cut off. -/
def iomanxAdapterFtruncate (offset : ℤ) (fi : Option FuseFileInfo) (w : σ) : Answer × σ :=
  passed (iomanxAdapterLseek io offset fioSeekSet fi w)

end Operations

/-! ## 2. Flags -/

theorem copyBits_and (b src : ℕ) (table : List (ℕ × ℕ)) : ∀ dst,
    Pfs2tar.copyBits table src dst &&& b ≠ 0 ↔
      dst &&& b ≠ 0 ∨ ∃ p ∈ table, src &&& p.1 ≠ 0 ∧ p.2 &&& b ≠ 0 := by
  induction table with
  | nil => simp [Pfs2tar.copyBits]
  | cons p table ih =>
    intro dst
    have hcons : Pfs2tar.copyBits (p :: table) src dst =
        Pfs2tar.copyBits table src (if src &&& p.1 ≠ 0 then dst ||| p.2 else dst) := rfl
    rw [hcons, ih]
    by_cases hp : src &&& p.1 = 0
    · simp [hp]
    · simp only [ne_eq, hp, not_false_eq_true, if_true, Nat.and_or_distrib_right,
        Nat.or_eq_zero_iff, List.mem_cons, exists_eq_or_imp, true_and]
      tauto

/-- The access is in the low two bits. -/
theorem accessFlags_and (fuseFlags : ℕ) {b : ℕ} (hb : 3 &&& b = 0) :
    accessFlags fuseFlags &&& b = 0 := by
  have hlow : accessFlags fuseFlags = accessFlags fuseFlags &&& 3 := by
    unfold accessFlags
    split_ifs <;> rfl
  rw [hlow, Nat.and_assoc, hb, Nat.and_zero]

theorem openFlags_creat (flags : ℕ) : openFlags flags &&& 0x0200 ≠ 0 ↔ flags &&& 0o100 ≠ 0 := by
  rw [openFlags, copyBits_and, accessFlags_and flags (by decide)]
  simp

theorem openFlags_trunc (flags : ℕ) : openFlags flags &&& 0x0400 ≠ 0 ↔ flags &&& 0o1000 ≠ 0 := by
  rw [openFlags, copyBits_and, accessFlags_and flags (by decide)]
  simp

theorem createFlags_creat (flags : ℕ) : createFlags flags &&& 0x0200 ≠ 0 := by
  rw [createFlags, copyBits_and]
  left
  rw [Nat.and_or_distrib_right]
  simp

theorem createFlags_trunc (flags : ℕ) :
    createFlags flags &&& 0x0400 ≠ 0 ↔ flags &&& 0o1000 ≠ 0 := by
  have hnone : Pfs2tar.copyBits [(0o4000, 0x0010), (0o2000, 0x0100)] flags (accessFlags flags)
      &&& 0x0400 = 0 := by
    by_contra h
    rw [← ne_eq, copyBits_and, accessFlags_and flags (by decide)] at h
    simp at h
  rw [createFlags, copyBits_and, Nat.and_or_distrib_right, hnone]
  simp

/-! ## 3. What the operations are for -/

/-- Up to `size` bytes of a file, from `offset` on. -/
def pread (xs : List UInt8) (offset size : ℕ) : List UInt8 := (xs.drop offset).take size

/-- `ys` over what is at `offset`, and beyond the end. -/
def pwrite (xs : List UInt8) (offset : ℕ) (ys : List UInt8) : List UInt8 :=
  xs.take offset ++ ys ++ xs.drop (offset + ys.length)

@[simp] theorem length_pread {xs : List UInt8} {offset size : ℕ} :
    (pread xs offset size).length = min size (xs.length - offset) := by
  simp [pread]

theorem length_le_pwrite {xs ys : List UInt8} {offset : ℕ} (h : offset ≤ xs.length) :
    xs.length ≤ (pwrite xs offset ys).length := by
  simp only [pwrite, List.length_append, List.length_take, List.length_drop]
  omega

/-- What a user of the file system knows: the file a path names, the file a descriptor is open on,
and the bytes of a file. -/
structure Session (φ : Type) where
  name : CStr → Option φ
  file : ℤ → Option φ
  bytes : φ → List UInt8

/-- The file is new: no path names it, no descriptor is open on it, and it is empty. -/
def Session.New {φ : Type} (s : Session φ) (g : φ) : Prop :=
  (∀ path, s.name path ≠ some g) ∧ (∀ fd, s.file fd ≠ some g) ∧ s.bytes g = []

/-- **`fd` was opened**, and was not in use: on the file the path names, or, where files are created,
on a new one that it names from now on.  The file may be emptied. -/
structure Session.Opened {φ : Type} [DecidableEq φ] (s : Session φ) (path : CStr)
    (creat trunc : Prop) (fd : ℤ) (g : φ) (s' : Session φ) : Prop where
  unused : s.file fd = none
  named : s.name path = some g ∧ s'.name = s.name ∨
    creat ∧ s.name path = none ∧ s.New g ∧ s'.name = Function.update s.name path (some g)
  file : s'.file = Function.update s.file fd (some g)
  emptied : trunc → s'.bytes = Function.update s.bytes g []
  kept : ¬ trunc → s'.bytes = s.bytes

theorem Session.Opened.congr {φ : Type} [DecidableEq φ] {s s' : Session φ} {path : CStr}
    {creat trunc creat' trunc' : Prop} {fd : ℤ} {g : φ} (h : s.Opened path creat trunc fd g s')
    (hcreat : creat ↔ creat') (htrunc : trunc ↔ trunc') :
    s.Opened path creat' trunc' fd g s' where
  unused := h.unused
  named := by
    rw [← hcreat]
    exact h.named
  file := h.file
  emptied := fun ht => h.emptied (htrunc.mpr ht)
  kept := fun ht => h.kept fun h' => ht (htrunc.mp h')

/-- An operation of FUSE on files; `fi` may be NULL. -/
inductive FuseCall
  | open (path : Path) (fi : Option ℕ)
  | create (path : Path) (mode : ℕ) (fi : Option ℕ)
  | unlink (path : Path)
  | release (fi : Option FuseFileInfo)
  | read (size : ℕ) (offset : ℤ) (fi : Option FuseFileInfo)
  | write (buf : List UInt8) (offset : ℤ) (fi : Option FuseFileInfo)
  | ftruncate (offset : ℤ) (fi : Option FuseFileInfo)

/-- **The operations as their user sees them.**  Data is read and written where the call says,
whatever was done in between. -/
inductive FuseCall.Does {φ : Type} [DecidableEq φ] :
    FuseCall → Session φ → Answer → Session φ → Prop
  | failed {o : FuseCall} {s : Session φ} {a : Answer} (h : a.ret < 0) : Does o s a s
  | openNothing {path : Path} {s : Session φ} : Does (.open path none) s {} s
  | createNothing {path : Path} {mode : ℕ} {s : Session φ} : Does (.create path mode none) s {} s
  | releaseNothing {s : Session φ} : Does (.release none) s {} s
  | open {path : Path} {flags fh : ℕ} {g : φ} {s s' : Session φ}
      (h : s.Opened path.translated (flags &&& 0o100 ≠ 0) (flags &&& 0o1000 ≠ 0) (toInt fh) g s') :
      Does (.open path (some flags)) s { fh := some fh } s'
  | create {path : Path} {mode flags fh : ℕ} {g : φ} {s s' : Session φ}
      (h : s.Opened path.translated True (flags &&& 0o1000 ≠ 0) (toInt fh) g s') :
      Does (.create path mode (some flags)) s { fh := some fh } s'
  | unlink {path : Path} {s : Session φ} :
      Does (.unlink path) s {} { s with name := Function.update s.name path.translated none }
  | release {fi : FuseFileInfo} {s : Session φ} :
      Does (.release (some fi)) s {} { s with file := Function.update s.file (toInt fi.fh) none }
  | read {size offset : ℕ} {fi : FuseFileInfo} {g : φ} {s : Session φ}
      (hfile : s.file (toInt fi.fh) = some g) :
      Does (.read size offset (some fi)) s
        { ret := (pread (s.bytes g) offset size).length, data := pread (s.bytes g) offset size } s
  | write {buf : List UInt8} {offset n : ℕ} {fi : FuseFileInfo} {g : φ} {s : Session φ}
      (hfile : s.file (toInt fi.fh) = some g) (hin : offset ≤ (s.bytes g).length)
      (hn : n ≤ buf.length) :
      Does (.write buf offset (some fi)) s { ret := n }
        { s with bytes := Function.update s.bytes g (pwrite (s.bytes g) offset (buf.take n)) }
  | ftruncate {offset : ℤ} {fi : FuseFileInfo} {s : Session φ} :
      Does (.ftruncate offset (some fi)) s {} s

/-! ## 4. What the driver does -/

/-- A session as a driver keeps it, with the position of each descriptor; `wide` says that it has
`lseek64`. -/
structure Store (σ φ : Type) where
  session : σ → Session φ
  pos : σ → ℤ → ℕ
  wide : Bool

section Store

variable {σ φ : Type} [DecidableEq φ]

/-- Only `fd` may have moved. -/
def Store.Still (S : Store σ φ) (fd : ℤ) (w w' : σ) : Prop :=
  ∀ fd', fd' ≠ fd → S.pos w' fd' = S.pos w fd'

/-- **A seek to `offset`** changes no file.  It fails, or `fd` stands there, not behind the end of
its file. -/
structure Store.Seeks (S : Store σ φ) (fd offset : ℤ) (w : σ) (r : Reply × σ) : Prop where
  same : S.session r.2 = S.session w
  still : S.Still fd w r.2
  int : -2 ^ 31 ≤ r.1.ret
  there : 0 ≤ r.1.ret → r.1.ret = offset ∧ (S.pos r.2 fd : ℤ) = offset ∧
    ∀ g, (S.session w).file fd = some g → S.pos r.2 fd ≤ ((S.session w).bytes g).length

/-- **What the calls of iomanX do**, on a descriptor that is open.  Any of them may fail; a seek says
-48 only where the driver has no such seek. -/
structure StoreLaws (io : IomanX σ) (names : NameIomanX σ) (S : Store σ φ) : Prop where
  lseek64 : ∀ w fd offset, S.wide = true → ((S.session w).file fd).isSome →
    S.Seeks fd offset w (io (.lseek64 fd offset fioSeekSet) w) ∧
      (io (.lseek64 fd offset fioSeekSet) w).1.ret ≠ -48
  unsupported : ∀ w fd offset, S.wide = false →
    (io (.lseek64 fd offset fioSeekSet) w).1.ret = -48 ∧
      S.session (io (.lseek64 fd offset fioSeekSet) w).2 = S.session w ∧
      S.Still fd w (io (.lseek64 fd offset fioSeekSet) w).2
  lseek : ∀ w fd offset, ((S.session w).file fd).isSome →
    S.Seeks fd offset w (io (.lseek fd offset fioSeekSet) w)
  reads : ∀ w fd g (size : ℕ), (S.session w).file fd = some g → size < 2 ^ 31 →
    S.session (io (.read fd size) w).2 = S.session w ∧ S.Still fd w (io (.read fd size) w).2 ∧
      (0 ≤ (io (.read fd size) w).1.ret →
        (io (.read fd size) w).1.data = pread ((S.session w).bytes g) (S.pos w fd) size ∧
          (io (.read fd size) w).1.ret = (pread ((S.session w).bytes g) (S.pos w fd) size).length)
  writes : ∀ w fd g (buf : List UInt8), (S.session w).file fd = some g →
    S.pos w fd ≤ ((S.session w).bytes g).length → buf.length < 2 ^ 31 →
    S.Still fd w (io (.write fd buf buf.length) w).2 ∧
      ((io (.write fd buf buf.length) w).1.ret < 0 →
        S.session (io (.write fd buf buf.length) w).2 = S.session w) ∧
      (0 ≤ (io (.write fd buf buf.length) w).1.ret →
        ∃ n ≤ buf.length, (io (.write fd buf buf.length) w).1.ret = n ∧
          S.session (io (.write fd buf buf.length) w).2 =
            { S.session w with
              bytes := Function.update (S.session w).bytes g
                (pwrite ((S.session w).bytes g) (S.pos w fd) (buf.take n)) })
  closes : ∀ w fd, ((S.session w).file fd).isSome →
    S.Still fd w (io (.close fd) w).2 ∧
      ((io (.close fd) w).1.ret < 0 → S.session (io (.close fd) w).2 = S.session w) ∧
      (0 ≤ (io (.close fd) w).1.ret → S.session (io (.close fd) w).2 =
        { S.session w with file := Function.update (S.session w).file fd none })
  opens : ∀ w path flags mode,
    (∀ fd, ((S.session w).file fd).isSome →
      S.pos (names (.open path flags mode) w).2 fd = S.pos w fd) ∧
      (names (.open path flags mode) w).1 < 2 ^ 31 ∧
      ((names (.open path flags mode) w).1 < 0 →
        S.session (names (.open path flags mode) w).2 = S.session w) ∧
      (0 ≤ (names (.open path flags mode) w).1 →
        ∃ g, (S.session w).Opened path (flags &&& 0x0200 ≠ 0) (flags &&& 0x0400 ≠ 0)
          (names (.open path flags mode) w).1 g (S.session (names (.open path flags mode) w).2))
  removes : ∀ w path, S.pos (names (.remove path) w).2 = S.pos w ∧
    ((names (.remove path) w).1 < 0 →
      S.session (names (.remove path) w).2 = S.session w) ∧
    (0 ≤ (names (.remove path) w).1 → S.session (names (.remove path) w).2 =
      { S.session w with name := Function.update (S.session w).name path none })

end Store

/-! ## 5. A driver in memory -/

/-- A driver that keeps its files in memory.  Files and descriptors are numbered, and no number is
used again. -/
structure Disk where
  session : Session ℕ
  pos : ℤ → ℕ := fun _ => 0
  files : ℕ := 0
  fds : ℕ := 0
  name_lt : ∀ path g, session.name path = some g → g < files
  file_lt : ∀ fd g, session.file fd = some g → g < files ∧ fd < fds
  unwritten : ∀ g, files ≤ g → session.bytes g = []

namespace Disk

/-- `fd` is moved. -/
def move (d : Disk) (fd : ℤ) (pos : ℕ) : Disk := { d with pos := Function.update d.pos fd pos }

/-- The bytes of a file that is there are replaced. -/
def fill (d : Disk) (g : ℕ) (hg : g < d.files) (bytes : List UInt8) : Disk :=
  { d with
    session := { d.session with bytes := Function.update d.session.bytes g bytes }
    unwritten := by
      intro g' hg'
      have hne : g' ≠ g := by omega
      simpa [hne] using d.unwritten g' hg' }

/-- The next descriptor is opened on a file that is there. -/
def attach (d : Disk) (g : ℕ) (hg : g < d.files) : Disk :=
  { d with
    session := { d.session with file := Function.update d.session.file d.fds (some g) }
    pos := Function.update d.pos d.fds 0
    fds := d.fds + 1
    file_lt := by
      intro fd g' h
      by_cases hfd : fd = d.fds
      · subst hfd
        obtain rfl : g = g' := by simpa using h
        exact ⟨hg, by omega⟩
      · obtain ⟨hlt, hfds⟩ := d.file_lt fd g' (by simpa [hfd] using h)
        exact ⟨hlt, by omega⟩ }

/-- A file is made. -/
def make (d : Disk) (path : CStr) : Disk :=
  { d with
    session := { d.session with name := Function.update d.session.name path (some d.files) }
    files := d.files + 1
    name_lt := by
      intro path' g h
      by_cases hpath : path' = path
      · subst hpath
        obtain rfl : d.files = g := by simpa using h
        omega
      · have hlt := d.name_lt path' g (by simpa [hpath] using h)
        omega
    file_lt := by
      intro fd g h
      obtain ⟨hlt, hfds⟩ := d.file_lt fd g h
      exact ⟨by omega, hfds⟩
    unwritten := fun g hg => d.unwritten g (by omega) }

/-- A descriptor is closed. -/
def detach (d : Disk) (fd : ℤ) : Disk :=
  { d with
    session := { d.session with file := Function.update d.session.file fd none }
    file_lt := by
      intro fd' g h
      by_cases hfd : fd' = fd
      · simp [hfd] at h
      · exact d.file_lt fd' g (by simpa [hfd] using h) }

/-- A name is taken away. -/
def forget (d : Disk) (path : CStr) : Disk :=
  { d with
    session := { d.session with name := Function.update d.session.name path none }
    name_lt := by
      intro path' g h
      by_cases hpath : path' = path
      · simp [hpath] at h
      · exact d.name_lt path' g (by simpa [hpath] using h) }

/-- A seek from the start. -/
def seek (d : Disk) (fd offset : ℤ) : Reply × Disk :=
  match d.session.file fd with
  | none => ({ ret := -9 }, d)
  | some g =>
    if 0 ≤ offset ∧ offset ≤ (d.session.bytes g).length then
      ({ ret := offset }, d.move fd offset.toNat)
    else ({ ret := -22 }, d)

/-- An empty disk. -/
def empty : Disk where
  session := { name := fun _ => none, file := fun _ => none, bytes := fun _ => [] }
  name_lt := by simp
  file_lt := by simp
  unwritten := by simp

end Disk

/-- Its calls with a descriptor. -/
def diskTransfers : IomanX Disk
  | .lseek64 fd offset _, d => d.seek fd offset
  | .lseek fd offset _, d => d.seek fd offset
  | .read fd size, d =>
    match d.session.file fd with
    | none => ({ ret := -9 }, d)
    | some g =>
      let data := pread (d.session.bytes g) (d.pos fd) size.toNat
      ({ ret := data.length, data := data }, d.move fd (d.pos fd + data.length))
  | .write fd buf _, d =>
    match h : d.session.file fd with
    | none => ({ ret := -9 }, d)
    | some g =>
      ({ ret := buf.length }, (d.fill g (d.file_lt fd g h).1
        (pwrite (d.session.bytes g) (d.pos fd) buf)).move fd (d.pos fd + buf.length))
  | .close fd, d =>
    if (d.session.file fd).isSome then ({}, d.detach fd) else ({ ret := -9 }, d)
  | .dopen _, d | .dread _ _, d => ({ ret := -1 }, d)

/-- Its calls with a path. -/
def diskNames : NameIomanX Disk
  | .open path flags _, d =>
    if 2 ^ 31 ≤ d.fds then (-24, d)
    else
      match h : d.session.name path with
      | some g =>
        let d' := d.attach g (d.name_lt path g h)
        (d.fds, if flags &&& 0x0400 ≠ 0 then d'.fill g (d.name_lt path g h) [] else d')
      | none =>
        if flags &&& 0x0200 = 0 then (-2, d)
        else (d.fds, (d.make path).attach d.files (Nat.lt_succ_self _))
  | .remove path, d =>
    if (d.session.name path).isSome then (0, d.forget path) else (-2, d)

def diskStore : Store Disk ℕ where
  session := Disk.session
  pos := Disk.pos
  wide := true

section Disk

variable {d : Disk} {fd offset : ℤ} {g : ℕ}

/-- A descriptor that is open is not the next one. -/
theorem Disk.ne_fds (d : Disk) {fd : ℤ} (h : (d.session.file fd).isSome) : fd ≠ d.fds := by
  obtain ⟨g, hg⟩ := Option.isSome_iff_exists.mp h
  exact Int.ne_of_lt (d.file_lt fd g hg).2

theorem Disk.file_fds (d : Disk) : d.session.file d.fds = none := by
  by_contra h
  exact d.ne_fds (Option.isSome_iff_ne_none.mpr h) rfl

/-- A seek that is refused. -/
theorem Disk.refuses (d : Disk) (fd offset : ℤ) {r : ℤ} (hr : -2 ^ 31 ≤ r ∧ r < 0) :
    diskStore.Seeks fd offset d ({ ret := r }, d) where
  same := rfl
  still := fun _ _ => rfl
  int := hr.1
  there := fun h => absurd h (Int.not_le.mpr hr.2)

theorem Disk.seek_seeks (d : Disk) (fd offset : ℤ) :
    diskStore.Seeks fd offset d (d.seek fd offset) := by
  unfold Disk.seek
  split
  · exact d.refuses fd offset (by decide)
  · rename_i g hfile
    split
    · rename_i hin
      have hint : -2 ^ 31 ≤ offset := by omega
      refine ⟨rfl, fun fd' hfd => ?_, hint, fun _ => ⟨rfl, ?_, fun g' hg' => ?_⟩⟩
      · simp [diskStore, Disk.move, hfd]
      · simpa [diskStore, Disk.move] using hin.1
      · obtain rfl := Option.some.inj (hfile.symm.trans hg')
        simpa [diskStore, Disk.move] using hin.2
    · exact d.refuses fd offset (by decide)

theorem Disk.seek_ne (d : Disk) (fd offset : ℤ) : (d.seek fd offset).1.ret ≠ -48 := by
  unfold Disk.seek
  split
  · simp
  · split
    · rename_i hin
      have hne : offset ≠ -48 := by omega
      exact hne
    · simp

theorem diskTransfers_read (hfile : d.session.file fd = some g) (size : ℕ) :
    diskTransfers (.read fd size) d =
      ({ ret := (pread (d.session.bytes g) (d.pos fd) size).length,
         data := pread (d.session.bytes g) (d.pos fd) size },
        d.move fd (d.pos fd + (pread (d.session.bytes g) (d.pos fd) size).length)) := by
  simp [diskTransfers, hfile]

theorem diskTransfers_write (hfile : d.session.file fd = some g) (buf : List UInt8) (size : ℤ) :
    diskTransfers (.write fd buf size) d =
      ({ ret := buf.length }, (d.fill g (d.file_lt fd g hfile).1
        (pwrite (d.session.bytes g) (d.pos fd) buf)).move fd (d.pos fd + buf.length)) := by
  simp only [diskTransfers]
  split
  · rename_i hnone
    rw [hfile] at hnone
    cases hnone
  · rename_i g' hsome
    obtain rfl := Option.some.inj (hfile.symm.trans hsome)
    rfl

/-- An open of a file that is there. -/
theorem Disk.attach_opened {path : CStr} {flags : ℕ} (hname : d.session.name path = some g)
    (hg : g < d.files) : d.session.Opened path (flags &&& 0x0200 ≠ 0) (flags &&& 0x0400 ≠ 0) d.fds g
      (if flags &&& 0x0400 ≠ 0 then (d.attach g hg).fill g hg [] else d.attach g hg).session where
  unused := d.file_fds
  named := by
    left
    refine ⟨hname, ?_⟩
    split_ifs <;> rfl
  file := by split_ifs <;> rfl
  emptied := fun h => by
    rw [if_pos h]
    rfl
  kept := fun h => by
    rw [if_neg h]
    rfl

/-- An open that makes the file. -/
theorem Disk.make_opened {path : CStr} {flags : ℕ} (hname : d.session.name path = none)
    (hcreat : flags &&& 0x0200 ≠ 0) : d.session.Opened path (flags &&& 0x0200 ≠ 0)
      (flags &&& 0x0400 ≠ 0) d.fds d.files
      ((d.make path).attach d.files (Nat.lt_succ_self _)).session where
  unused := d.file_fds
  named := by
    refine .inr ⟨hcreat, hname, ⟨fun path' h => ?_, fun fd h => ?_, d.unwritten _ le_rfl⟩, rfl⟩
    · exact absurd (d.name_lt path' _ h) (lt_irrefl _)
    · exact absurd (d.file_lt fd _ h).1 (lt_irrefl _)
  file := rfl
  emptied := fun _ => by
    -- a new file is empty as it is
    funext g
    by_cases hg : g = d.files
    · subst hg
      simpa [Disk.make, Disk.attach] using d.unwritten _ le_rfl
    · simp [Disk.make, Disk.attach, hg]
  kept := fun _ => rfl

/-- **The laws hold of it.** -/
theorem diskLaws : StoreLaws diskTransfers diskNames diskStore where
  lseek64 d fd offset _ _ := ⟨d.seek_seeks fd offset, d.seek_ne fd offset⟩
  unsupported _ _ _ h := by cases h
  lseek d fd offset _ := d.seek_seeks fd offset
  reads d fd g size hfile _ := by
    rw [diskTransfers_read hfile]
    exact ⟨rfl, fun fd' hfd => by simp [diskStore, Disk.move, hfd], fun _ => ⟨rfl, rfl⟩⟩
  writes d fd g buf hfile _ _ := by
    rw [diskTransfers_write hfile]
    refine ⟨fun fd' hfd => by simp [diskStore, Disk.move, Disk.fill, hfd], fun h => ?_,
      fun _ => ⟨buf.length, le_rfl, rfl, ?_⟩⟩
    · exact absurd h (by simp)
    · rw [List.take_length]
      rfl
  closes d fd hopen := by
    have hgo : diskTransfers (.close fd) d = ({}, d.detach fd) := if_pos hopen
    rw [hgo]
    exact ⟨fun _ _ => rfl, fun h => absurd h (lt_irrefl 0), fun _ => rfl⟩
  opens d path flags mode := by
    simp only [diskNames]
    split
    · exact ⟨fun _ _ => rfl, by simp, fun _ => rfl, fun h => absurd h (by simp)⟩
    · rename_i hfds
      have hint : (d.fds : ℤ) < 2 ^ 31 := by omega
      split
      · rename_i g hname
        refine ⟨fun fd hfd => ?_, hint, fun h => ?_, fun _ => ⟨g, d.attach_opened hname _⟩⟩
        · have hne := d.ne_fds hfd
          split_ifs <;> simp [diskStore, Disk.attach, Disk.fill, hne]
        · exact absurd h (by simp)
      · rename_i hname
        by_cases hcreat : flags &&& 0x0200 = 0
        · rw [if_pos hcreat]
          exact ⟨fun _ _ => rfl, by simp, fun _ => rfl, fun h => absurd h (by simp)⟩
        · rw [if_neg hcreat]
          refine ⟨fun fd hfd => ?_, hint, fun h => ?_, fun _ => ⟨_, d.make_opened hname hcreat⟩⟩
          · simp [diskStore, Disk.attach, Disk.make, d.ne_fds hfd]
          · exact absurd h (by simp)
  removes d path := by
    simp only [diskNames]
    split
    · exact ⟨rfl, fun h => absurd h (lt_irrefl 0), fun _ => rfl⟩
    · exact ⟨rfl, fun _ => rfl, fun h => absurd h (by simp)⟩

end Disk

end PfsShell.Fuse
