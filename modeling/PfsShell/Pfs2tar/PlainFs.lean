/-
# A plain file system

What iomanX is taken to be: a disk of partitions, each with a tree of directories, files and
links (`Tree`), of which one at a time is mounted; open directories, which list what is in them;
and open files, with a position.  `PlainFs` says what the calls do to such a `World` when they do
not fail: `view` is what a state of iomanX looks like.

A call says nothing about what it need not: the order of a listing, the numbers of descriptors,
and the mode and the time an entry is created with are open.  Creating an entry leaves everything
else as it was, its directory too, and `chstat` sets the fields of its mask and no others.

Entries are named by the list of the names on the way to them; `pfsPath` is the text for it.
-/
import Mathlib.Data.List.Nodup
import Mathlib.Data.Finset.Card
import PfsShell.Pfs2tar.Restore

namespace PfsShell.Pfs2tar

open PfsShell.Lib

/-! ## 1. Trees -/

/-- A name an entry can have. -/
structure ValidName (n : CStr) : Prop where
  ne_nil : n ≠ []
  slash : slash ∉ n
  nul : 0 ∉ n
  dots : isDots n = false

/-- What an entry holds. -/
inductive Body
  | dir
  | file (bytes : List UInt8)
  | link (target : CStr)

/-- The type bits of an entry. -/
def Body.ifmt : Body → ℕ
  | .dir => fioSIfdir
  | .file _ => fioSIfreg
  | .link _ => fioSIflnk

/-- An entry: the type in its mode is that of what it holds. -/
structure Inode where
  mode : ℕ
  mtime : Stamp
  body : Body
  typed : mode &&& fioSIfmt = body.ifmt

/-- The entries of a partition, by the names on the way to them; the root is at `[]`. -/
abbrev Tree := List CStr → Option Inode

/-- A directory is at `c`. -/
def Tree.IsDir (T : Tree) (c : List CStr) : Prop := ∃ i, T c = some i ∧ i.body = .dir

/-- The root is a directory, and so is what every other entry is in. -/
structure Tree.Wf (T : Tree) : Prop where
  root : T.IsDir []
  parent : ∀ c n, T (c ++ [n]) ≠ none → T.IsDir c ∧ ValidName n

/-- The text of an entry's path below the root, and for the root of the slash that it is. -/
def slashed (c : List CStr) : CStr := c.flatMap (slash :: ·)

def below (c : List CStr) : CStr := if c = [] then [slash] else slashed c

/-- The path of an entry of the mounted partition. -/
def pfsPath (c : List CStr) : CStr := mountPoint ++ below c

/-- What `getstat` says of an entry. -/
structure IoxStat.Describes (st : IoxStat) (i : Inode) : Prop where
  mode : st.mode = i.mode
  mtime : st.mtime = i.mtime
  size : ∀ bytes, i.body = .file bytes →
    st.size = bytes.length % 4294967296 ∧ st.hisize = bytes.length / 4294967296

/-- A listing of the directory at `c`: every entry in it once, and possibly the two dots. -/
structure Tree.Lists (T : Tree) (c : List CStr) (listing : List IoxDirent) : Prop where
  nodup : (listing.map IoxDirent.name).Nodup
  sound : ∀ de ∈ listing, isDots de.name = false → T (c ++ [de.name]) ≠ none
  complete : ∀ n, T (c ++ [n]) ≠ none → n ∈ listing.map IoxDirent.name

/-! ## 2. Worlds -/

/-- A disk, with what is mounted and open. -/
structure World where
  hdd : List IoxDirent
  tree : CStr → Tree
  mounted : Option CStr
  dirs : ℤ → Option (List IoxDirent)
  files : ℤ → Option (List CStr × ℕ)

/-- The world with the entry `i` at `c` of partition `P`. -/
def World.put (V : World) (P : CStr) (c : List CStr) (i : Inode) : World :=
  { V with tree := Function.update V.tree P (Function.update (V.tree P) c (some i)) }

/-- The world in which the directory `d` still lists `listing`, or is closed. -/
def World.setDir (V : World) (d : ℤ) (listing : Option (List IoxDirent)) : World :=
  { V with dirs := Function.update V.dirs d listing }

/-- The world in which the file `f` stands for an entry and a position in it, or is closed. -/
def World.setFile (V : World) (f : ℤ) (file : Option (List CStr × ℕ)) : World :=
  { V with files := Function.update V.files f file }

/-- A descriptor that is not in use. -/
def World.Free (V : World) (d : ℤ) : Prop := 0 ≤ d ∧ V.dirs d = none ∧ V.files d = none

/-- `c` is a place in the mounted partition `P`. -/
def World.At (V : World) (P : CStr) (c : List CStr) : Prop :=
  V.mounted = some P ∧ ∀ n ∈ c, ValidName n

/-- `c` is a place in the mounted partition `P` where an entry can be created. -/
def World.Creatable (V : World) (P : CStr) (c : List CStr) : Prop :=
  V.At P c ∧ c ≠ [] ∧ V.tree P c = none ∧ (V.tree P).IsDir c.dropLast

/-! ## 3. Calls -/

/-- The path a call is given. -/
def Call.path : Call → CStr
  | .getstat path | .dopen path | .open path _ _ | .readlink path _ | .mkdir path _
  | .chstat path _ _ | .symlink _ path => path
  | .dread _ _ | .close _ | .read _ _ | .write _ _ | .mount _ _ _ | .umount _ => []

/-- **iomanX is a plain file system whose calls do not fail.**  Each law is about one call, in a
state `w`; the reply is `(io call w).1` and the next state is `(io call w).2`. -/
structure PlainFs {σ : Type} (io : IomanX σ) (view : σ → World) : Prop where
  getstat_some : ∀ {w P c i}, (view w).At P c → (view w).tree P c = some i →
    (io (.getstat (pfsPath c)) w).1.ret = 0 ∧ (io (.getstat (pfsPath c)) w).1.stat.Describes i ∧
      view (io (.getstat (pfsPath c)) w).2 = view w
  getstat_none : ∀ {w P c}, (view w).At P c → (view w).tree P c = none →
    (io (.getstat (pfsPath c)) w).1.ret < 0 ∧ view (io (.getstat (pfsPath c)) w).2 = view w
  dopen_hdd : ∀ {w}, ∃ d, (io (.dopen hdd) w).1.ret = d ∧ (view w).Free d ∧
    view (io (.dopen hdd) w).2 = (view w).setDir d (some (view w).hdd)
  dopen_dir : ∀ {w P c}, (view w).At P c → ((view w).tree P).IsDir c →
    ∃ d listing, (io (.dopen (pfsPath c)) w).1.ret = d ∧ (view w).Free d ∧
      ((view w).tree P).Lists c listing ∧
      view (io (.dopen (pfsPath c)) w).2 = (view w).setDir d (some listing)
  dread_cons : ∀ {w d e listing} buffer, (view w).dirs d = some (e :: listing) →
    0 < (io (.dread d buffer) w).1.ret ∧ (io (.dread d buffer) w).1.dirent = e ∧
      view (io (.dread d buffer) w).2 = (view w).setDir d (some listing)
  dread_nil : ∀ {w d} buffer, (view w).dirs d = some [] →
    (io (.dread d buffer) w).1.ret = 0 ∧ view (io (.dread d buffer) w).2 = view w
  close_dir : ∀ {w d listing}, (view w).dirs d = some listing →
    0 ≤ (io (.close d) w).1.ret ∧ view (io (.close d) w).2 = (view w).setDir d none
  close_file : ∀ {w f file}, (view w).files f = some file →
    0 ≤ (io (.close f) w).1.ret ∧ view (io (.close f) w).2 = (view w).setFile f none
  close_neg : ∀ {w d}, d < 0 → view (io (.close d) w).2 = view w
  open_read : ∀ {w P c i bytes}, (view w).At P c → (view w).tree P c = some i →
    i.body = .file bytes → ∃ f, (io (.open (pfsPath c) fioORdonly 0) w).1.ret = f ∧
      (view w).Free f ∧
      view (io (.open (pfsPath c) fioORdonly 0) w).2 = (view w).setFile f (some (c, 0))
  open_create : ∀ {w P c} mode, (view w).Creatable P c → ∃ f i,
    (io (.open (pfsPath c) (fioOWronly ||| fioOCreat ||| fioOTrunc) mode) w).1.ret = f ∧
      (view w).Free f ∧ i.body = .file [] ∧
      view (io (.open (pfsPath c) (fioOWronly ||| fioOCreat ||| fioOTrunc) mode) w).2 =
        ((view w).put P c i).setFile f (some (c, 0))
  read : ∀ {w P c i bytes f pos n}, (view w).mounted = some P →
    (view w).files f = some (c, pos) → (view w).tree P c = some i → i.body = .file bytes →
    (io (.read f n) w).1.ret = ((bytes.drop pos).take n).length ∧
      (io (.read f n) w).1.data = (bytes.drop pos).take n ∧
      view (io (.read f n) w).2 =
        (view w).setFile f (some (c, pos + ((bytes.drop pos).take n).length))
  write : ∀ {w P c i bytes f} data, (view w).mounted = some P →
    (view w).files f = some (c, bytes.length) → (view w).tree P c = some i →
    i.body = .file bytes → ∃ i', i'.body = .file (bytes ++ data) ∧
      view (io (.write f data) w).2 =
        ((view w).put P c i').setFile f (some (c, (bytes ++ data).length))
  readlink : ∀ {w P c i target n}, (view w).At P c → (view w).tree P c = some i →
    i.body = .link target → (io (.readlink (pfsPath c) n) w).1.data = target.take n ∧
      view (io (.readlink (pfsPath c) n) w).2 = view w
  mkdir_new : ∀ {w P c} mode, (view w).Creatable P c → ∃ i, i.body = .dir ∧
    view (io (.mkdir (pfsPath c) mode) w).2 = (view w).put P c i
  mkdir_old : ∀ {w P c} mode, (view w).At P c → (view w).tree P c ≠ none →
    view (io (.mkdir (pfsPath c) mode) w).2 = view w
  symlink_new : ∀ {w P c} target, (view w).Creatable P c → ∃ i, i.body = .link target ∧
    0 ≤ (io (.symlink target (pfsPath c)) w).1.ret ∧
      view (io (.symlink target (pfsPath c)) w).2 = (view w).put P c i
  chstat : ∀ {w P c i} i' st mask, (view w).At P c → (view w).tree P c = some i →
    i'.body = i.body → i'.mode = (if mask &&& fioCstMode ≠ 0 then st.mode else i.mode) →
    i'.mtime = (if mask &&& fioCstMt ≠ 0 then st.mtime else i.mtime) →
    view (io (.chstat (pfsPath c) st mask) w).2 = (view w).put P c i'
  mount : ∀ {w de} flag, (view w).mounted = none → de ∈ (view w).hdd → selected none de = true →
    0 ≤ (io (.mount mountPoint (hdd ++ de.name) flag) w).1.ret ∧
      view (io (.mount mountPoint (hdd ++ de.name) flag) w).2 =
        { view w with mounted := some de.name }
  umount : ∀ {w}, view (io (.umount mountPoint) w).2 = { view w with mounted := none }
  /-- Only mounting and unmounting change what is mounted. -/
  keeps : ∀ {w call}, (∀ fsname devname flag, call ≠ .mount fsname devname flag) →
    (∀ fsname, call ≠ .umount fsname) → (view (io call w).2).mounted = (view w).mounted
  /-- Mounting fails, or it mounts what it is told to. -/
  mounts : ∀ {w fsname devname flag},
    ((io (.mount fsname devname flag) w).1.ret < 0 ∧
      (view (io (.mount fsname devname flag) w).2).mounted = (view w).mounted) ∨
    ∃ P, devname = hdd ++ P ∧ (view (io (.mount fsname devname flag) w).2).mounted = some P
  /-- An entry is created in the mounted partition, by a text that names it and so is no shorter
  than its path. -/
  creates : ∀ {w call P c}, (view (io call w).2).tree P c ≠ none → (view w).tree P c = none →
    (view w).mounted = some P ∧ (pfsPath c).length ≤ call.path.length

/-! ## 4. Paths -/

theorem slashed_append (c d : List CStr) : slashed (c ++ d) = slashed c ++ slashed d :=
  List.flatMap_append

theorem slashed_concat (c : List CStr) (n : CStr) :
    slashed (c ++ [n]) = slashed c ++ slash :: n := by
  rw [slashed_append]
  simp [slashed]

theorem below_of_ne_nil {c : List CStr} (h : c ≠ []) : below c = slashed c := if_neg h

theorem below_concat (c : List CStr) (n : CStr) : below (c ++ [n]) = slashed c ++ slash :: n := by
  rw [below_of_ne_nil (by simp), slashed_concat]

/-- A path begins with a slash, the root's too. -/
theorem below_eq_cons (c : List CStr) : ∃ s, below c = slash :: s := by
  cases c with
  | nil => exact ⟨[], rfl⟩
  | cons n c => exact ⟨n ++ slashed c, by rw [below_of_ne_nil (by simp)]; simp [slashed]⟩

theorem pfsPath_concat (c : List CStr) (n : CStr) :
    pfsPath (c ++ [n]) = mountPoint ++ slashed c ++ slash :: n := by
  rw [pfsPath, below_concat, List.append_assoc]

/-- The names in a text. -/
def namesOf (path : CStr) : List CStr := (path.splitOn slash).filter (· ≠ [])

theorem slashed_eq_intercalate (c : List CStr) : slashed c = [slash].intercalate ([] :: c) := by
  induction c with
  | nil => rfl
  | cons n c ih =>
    have hcons : slashed (n :: c) = slash :: n ++ slashed c := by simp [slashed]
    rw [List.intercalate_cons_cons, hcons]
    cases c with
    | nil => simp [slashed]
    | cons m c =>
      rw [List.intercalate_cons_cons, List.nil_append] at ih
      rw [List.intercalate_cons_cons, ih]
      simp

/-- **The names in a path are those of the entry.** -/
theorem namesOf_below {c : List CStr} (h : ∀ n ∈ c, ValidName n) : namesOf (below c) = c := by
  by_cases hc : c = []
  · subst hc
    decide
  · have hsplit : (below c).splitOn slash = [] :: c := by
      rw [below_of_ne_nil hc, slashed_eq_intercalate]
      refine List.splitOn_intercalate slash (fun l hl => ?_) (by simp)
      rcases List.mem_cons.mp hl with rfl | hl
      · exact List.not_mem_nil
      · exact (h l hl).slash
    rw [namesOf, hsplit, List.filter_cons_of_neg (by simp), List.filter_eq_self]
    intro l hl
    simpa using (h l hl).ne_nil

/-- Different entries have different paths. -/
theorem pfsPath_inj {c d : List CStr} (hc : ∀ n ∈ c, ValidName n) (hd : ∀ n ∈ d, ValidName n)
    (h : pfsPath c = pfsPath d) : c = d := by
  rw [← namesOf_below hc, ← namesOf_below hd, List.append_cancel_left h]

theorem length_pfsPath_concat (c : List CStr) (n : CStr) :
    (pfsPath (c ++ [n])).length = 6 + (slashed c).length + n.length := by
  rw [pfsPath_concat]
  simp only [List.length_append, List.length_cons]
  have : mountPoint.length = 5 := rfl
  omega

theorem length_pfsPath_root : (pfsPath []).length = 6 := rfl

theorem length_pfsPath {c : List CStr} (h : c ≠ []) :
    (pfsPath c).length = 5 + (slashed c).length := by
  rw [pfsPath, below_of_ne_nil h, List.length_append]
  rfl

/-- What `do_wrapped_ftw` keeps of a directory's path: all of it, but not the slash of the root. -/
theorem take_pfsPath {c : List CStr} (h : ∀ n ∈ c, ValidName n) :
    (if (pfsPath c).getLast? = some slash then (pfsPath c).length - 1 else (pfsPath c).length) =
      (mountPoint ++ slashed c).length := by
  rcases List.eq_nil_or_concat' c with rfl | ⟨p, n, rfl⟩
  · rfl
  · have hn : ValidName n := h n (by simp)
    obtain ⟨m, x, hx⟩ := (List.eq_nil_or_concat' n).resolve_left hn.ne_nil
    have hlast : (pfsPath (p ++ [n])).getLast? = some x := by
      rw [pfsPath_concat, hx]
      simp [List.getLast?_append, List.getLast?_cons]
    have hne : x ≠ slash := fun he => hn.slash (by rw [hx, he]; simp)
    rw [hlast, if_neg (by simpa using hne), pfsPath, below_of_ne_nil (by simp)]

theorem take_trunk (c : List CStr) :
    (pfsPath c).take (mountPoint ++ slashed c).length = mountPoint ++ slashed c := by
  rcases eq_or_ne c [] with rfl | hne
  · rfl
  · rw [pfsPath, below_of_ne_nil hne, List.take_length]

/-- The entries of a tree have names that entries can have. -/
theorem Tree.Wf.valid {T : Tree} (hT : T.Wf) {c : List CStr} (h : T c ≠ none) :
    ∀ n ∈ c, ValidName n := by
  induction c using List.reverseRecOn with
  | nil => simp
  | append_singleton c n ih =>
    obtain ⟨⟨i, hi, -⟩, hn⟩ := hT.parent c n h
    intro m hm
    rcases List.mem_append.mp hm with hm | hm
    · exact ih (by simp [hi]) m hm
    · rw [List.mem_singleton.mp hm]
      exact hn

/-! ## 5. Entries and worlds -/

theorem fioSIsdir_iff (i : Inode) : fioSIsdir i.mode = true ↔ i.body = .dir := by
  rw [fioSIsdir, decide_eq_true_eq, i.typed]
  cases i.body <;> simp [Body.ifmt, fioSIfdir, fioSIfreg, fioSIflnk]

theorem fioSIsreg_iff (i : Inode) : fioSIsreg i.mode = true ↔ ∃ bytes, i.body = .file bytes := by
  rw [fioSIsreg, decide_eq_true_eq, i.typed]
  cases i.body <;> simp [Body.ifmt, fioSIfdir, fioSIfreg, fioSIflnk]

theorem fioSIslnk_iff (i : Inode) : fioSIslnk i.mode = true ↔ ∃ target, i.body = .link target := by
  rw [fioSIslnk, decide_eq_true_eq, i.typed]
  cases i.body <;> simp [Body.ifmt, fioSIfdir, fioSIfreg, fioSIflnk]

theorem Body.fileType (b : Body) : FileType b.ifmt := by
  cases b <;> simp [Body.ifmt, FileType]

namespace World

variable (V : World) (P : CStr) (c : List CStr) (i j : Inode)

theorem tree_put_of_ne {Q : CStr} {d : List CStr} (h : ¬ (Q = P ∧ d = c)) :
    (V.put P c i).tree Q d = V.tree Q d := by
  unfold put
  by_cases hQ : Q = P
  · subst hQ
    have hd : d ≠ c := fun hd => h ⟨rfl, hd⟩
    simp [hd]
  · simp [hQ]

@[simp] theorem files_put : (V.put P c i).files = V.files := rfl

@[simp] theorem setDir_setDir (d : ℤ) (l m : Option (List IoxDirent)) :
    (V.setDir d l).setDir d m = V.setDir d m := by
  simp [setDir]

theorem setDir_self {d : ℤ} {l : Option (List IoxDirent)} (h : V.dirs d = l) :
    V.setDir d l = V := by
  simp [setDir, ← h]

@[simp] theorem dirs_setDir (d : ℤ) (l : Option (List IoxDirent)) : (V.setDir d l).dirs d = l := by
  simp [setDir]

@[simp] theorem setFile_setFile (f : ℤ) (a b : Option (List CStr × ℕ)) :
    (V.setFile f a).setFile f b = V.setFile f b := by
  simp [setFile]

theorem setFile_self {f : ℤ} {a : Option (List CStr × ℕ)} (h : V.files f = a) :
    V.setFile f a = V := by
  simp [setFile, ← h]

@[simp] theorem files_setFile (f : ℤ) (a : Option (List CStr × ℕ)) :
    (V.setFile f a).files f = a := by
  simp [setFile]

end World

end PfsShell.Pfs2tar
