/-
# What a restore puts into the files

`restore_from_tar` announces a file that it could create, and neither `fread` nor `iomanX_write`
has a say in that.  `turn` is what the loop does for one header: the writes, each with the value
`iomanX_write` returned, and what is printed.

* `restoreEntry_logged`: the record of the writes changes nothing;
* `restore_faithful_iff`: every file has the bytes of the archive and is announced only when it has
  all of them, if and only if every file that is created has its content in the archive and every
  write takes all it is given.
-/
import PfsShell.Pfs2tar.Alignment

namespace PfsShell.Pfs2tar

open PfsShell.Lib

variable {σ : Type}

/-! ## 1. Writes -/

/-- A call of `iomanX_write`, and the value it returned. -/
structure Write where
  data : List UInt8
  ret : ℤ

/-- What `iomanX_write` took: as many bytes as it says, and none with an error. -/
def Write.accepted (x : Write) : List UInt8 := x.data.take x.ret.toNat

/-- What the writes put into a file that was empty, one behind the other. -/
def fileBytes (xs : List Write) : List UInt8 := xs.flatMap Write.accepted

/-- All that `iomanX_write` was given. -/
def givenBytes (xs : List Write) : List UInt8 := xs.flatMap Write.data

/-- iomanX, with a record of the writes. -/
def logged (io : IomanX σ) : IomanX (σ × List Write)
  | .write fd data, (w, xs) =>
    let (reply, w) := io (.write fd data) w
    (reply, w, xs ++ [⟨data, reply.ret⟩])
  | c, (w, xs) =>
    let (reply, w) := io c w
    (reply, w, xs)

theorem length_accepted_le (x : Write) : x.accepted.length ≤ x.data.length :=
  List.length_take_le' _ _

theorem length_fileBytes_le (xs : List Write) :
    (fileBytes xs).length ≤ (givenBytes xs).length := by
  induction xs with
  | nil => exact le_rfl
  | cons x xs ih =>
    have hx := length_accepted_le x
    simp only [fileBytes, givenBytes, List.flatMap_cons, List.length_append] at ih ⊢
    omega

/-- As many bytes are taken as given when each write takes all of its own. -/
theorem length_fileBytes_eq_iff (xs : List Write) :
    (fileBytes xs).length = (givenBytes xs).length ↔
      ∀ x ∈ xs, x.data.length ≤ x.ret.toNat := by
  induction xs with
  | nil => simp [fileBytes, givenBytes]
  | cons x xs ih =>
    have hx := length_accepted_le x
    have hxs := length_fileBytes_le xs
    have htake : x.accepted.length = x.data.length ↔ x.data.length ≤ x.ret.toNat := by
      rw [Write.accepted, List.length_take]
      omega
    rw [List.forall_mem_cons, ← ih, ← htake]
    simp only [fileBytes, givenBytes, List.flatMap_cons, List.length_append] at hxs ⊢
    omega

/-- Then they are the same. -/
theorem fileBytes_eq_givenBytes {xs : List Write} (h : ∀ x ∈ xs, x.data.length ≤ x.ret.toNat) :
    fileBytes xs = givenBytes xs :=
  List.flatMap_congr fun x hx => List.take_of_length_le (h x hx)

/-! ## 2. The content of a file -/

section Logged

variable {io : IomanX σ} {uninit : Uninit}

theorem ensureParentDirsExist_logged (io : IomanX σ) (path : CStr) (w : σ) (xs : List Write) :
    ensureParentDirsExist (logged io) path (w, xs) = (ensureParentDirsExist io path w, xs) := by
  unfold ensureParentDirsExist
  dsimp only
  generalize cutsFrom _ _ = dirs
  induction dirs generalizing w with
  | nil => rfl
  | cons dir dirs ih => exact ih _

variable (io uninit) in
/-- The writes of a copy: together they are given `remaining` bytes, which are those of the
archive as far as it goes. -/
theorem copyLoop_logged (fd : ℤ) (remaining : ℕ) : ∀ (rest : List UInt8) (w : σ),
    ∃ ys, (∀ xs, copyLoop (logged io) uninit fd remaining rest (w, xs) =
        (copyLoop io uninit fd remaining rest w, xs ++ ys)) ∧
      (givenBytes ys).length = remaining ∧
      (remaining ≤ rest.length → givenBytes ys = rest.take remaining) := by
  induction remaining using Nat.strong_induction_on with
  | _ remaining ih =>
    intro rest w
    by_cases hzero : remaining = 0
    · refine ⟨[], fun xs => ?_, hzero.symm, fun _ => by rw [hzero]; rfl⟩
      rw [copyLoop, copyLoop.eq_def io, dif_pos hzero, dif_pos hzero, List.append_nil]
    · obtain ⟨chunk, hchunk⟩ : ∃ chunk, chunk = if 512 < remaining then 512 else remaining :=
        ⟨_, rfl⟩
      have hle : chunk ≤ remaining ∧ 0 < chunk := by
        rw [hchunk]
        split <;> omega
      obtain ⟨data, hdata⟩ : ∃ data, data = window
          (overlay (uninit.buf remaining) 0 (rest.take chunk)) 0 chunk := ⟨_, rfl⟩
      have hlen : data.length = chunk := by rw [hdata, length_window]
      obtain ⟨ys, hloop, htotal, hbytes⟩ := ih (remaining - chunk) (by omega) (rest.drop chunk)
        (io (.write fd data) w).2
      refine ⟨⟨data, (io (.write fd data) w).1.ret⟩ :: ys, fun xs => ?_, ?_, fun hfull => ?_⟩
      · have hstep := hloop (xs ++ [⟨data, (io (.write fd data) w).1.ret⟩])
        rw [copyLoop, copyLoop.eq_def io, dif_neg hzero, dif_neg hzero]
        simp only [← hchunk, ← hdata]
        rw [List.append_assoc, List.singleton_append] at hstep
        exact hstep
      · rw [givenBytes, List.flatMap_cons, List.length_append, hlen]
        rw [givenBytes] at htotal
        omega
      · have hhead : data = rest.take chunk := by
          rw [hdata, window_overlay_take _ _ (by rw [List.length_take]; omega), List.take_take,
            Nat.min_self]
        rw [givenBytes, List.flatMap_cons]
        rw [givenBytes] at hbytes
        rw [hbytes (by rw [List.length_drop]; omega), hhead, ← List.take_add,
          Nat.add_sub_cancel' hle.1]

end Logged

/-! ## 3. One turn of the loop -/

section Turn

variable (io : IomanX σ) (uninit : Uninit) (overwriteMode : Bool) (mountPath prefixPath : CStr)

/-- The writes of one turn of `restore_from_tar`'s loop, and what it prints. -/
def turn (header rest : List UInt8) (w : σ) : List Write × List Message :=
  let ((s, said), _) := restoreEntry (logged io) uninit overwriteMode mountPath prefixPath header
    rest ((w, []), [])
  (s.2, said)

/-- The entry is a new file, and it can be created. -/
def CreatesFile (header : List UInt8) (w : σ) : Prop :=
  let fullPath := restoredPath mountPath prefixPath (nameField header)
  nameField header ≠ [] ∧ IsNew io overwriteMode mountPath prefixPath header w ∧
    (typeField header = 48 ∨ typeField header = 0) ∧
    0 ≤ (io (.open fullPath (fioOWronly ||| fioOCreat ||| fioOTrunc) 0o666)
      (ensureParentDirsExist io fullPath (lookedUp io overwriteMode fullPath w).2)).1.ret

/-- What a turn prints, when it does not announce a file. -/
def Unannounced (new : List Message) : Prop :=
  ∀ name type size posixMode, .restoringFile name type size posixMode ∉ new

/-- **What one turn does.**  It copies the content of a file and announces it, when the file is
created, and else it writes nothing and announces nothing. -/
inductive Turned (header rest : List UInt8) (w : σ) : List Write → List Message → Prop
  | copied {xs : List Write} (name : CStr) (type : UInt8) (posixMode : ℕ)
      (hcreates : CreatesFile io overwriteMode mountPath prefixPath header w)
      (htotal : (givenBytes xs).length = sizeField header)
      (hbytes : sizeField header ≤ rest.length → givenBytes xs = rest.take (sizeField header)) :
      Turned header rest w xs [.restoringFile name type (sizeField header) posixMode]
  | other {new : List Message}
      (hnot : ¬ CreatesFile io overwriteMode mountPath prefixPath header w)
      (hnew : Unannounced new) : Turned header rest w [] new

end Turn

section Turned

variable {io : IomanX σ} {uninit : Uninit} {overwriteMode : Bool} {mountPath prefixPath : CStr}

theorem lookedUp_logged (path : CStr) (w : σ) (xs : List Write) :
    lookedUp (logged io) overwriteMode path (w, xs) =
      ((lookedUp io overwriteMode path w).1, (lookedUp io overwriteMode path w).2, xs) := by
  unfold lookedUp
  split
  · rfl
  · rfl

/-- The type of a file, and `iomanX_open` succeeds. -/
def Opens (io : IomanX σ) (header : List UInt8) (fullPath : CStr) (w : σ) : Prop :=
  (typeField header = 48 ∨ typeField header = 0) ∧
    0 ≤ (io (.open fullPath (fioOWronly ||| fioOCreat ||| fioOTrunc) 0o666)
      (ensureParentDirsExist io fullPath w)).1.ret

theorem unannounced_nil : Unannounced [] := fun _ _ _ _ h => absurd h List.not_mem_nil

theorem unannounced_singleton {m : Message}
    (h : ∀ name type size posixMode, m ≠ .restoringFile name type size posixMode) :
    Unannounced [m] :=
  fun name type size posixMode hmem =>
    h name type size posixMode (List.mem_singleton.mp hmem).symm

/-- A part of the body does the same with the record of the writes as without it: it writes `xs`
and prints `new`. -/
def Records (plain : σ × List Message → (σ × List Message) × ℕ)
    (recorded : (σ × List Write) × List Message → ((σ × List Write) × List Message) × ℕ) (w : σ)
    (xs : List Write) (new : List Message) : Prop :=
  ∃ w' skip, ∀ said, recorded ((w, []), said) = (((w', xs), said ++ new), skip) ∧
    plain (w, said) = ((w', said ++ new), skip)

variable (io) in
theorem restoreDir_logged (fullPath : CStr) (iomanxMode : ℕ) (mtime : ℤ) (w : σ) :
    Records (restoreDir io fullPath iomanxMode mtime)
      (restoreDir (logged io) fullPath iomanxMode mtime) w [] [] := by
  refine ⟨restoreStat io fullPath iomanxMode mtime
    (io (.mkdir fullPath 0o777) (ensureParentDirsExist io fullPath w)).2, 0, fun said => ⟨?_, ?_⟩⟩
  · rw [restoreDir, ensureParentDirsExist_logged, List.append_nil]
    rfl
  · rw [restoreDir, List.append_nil]

variable (io) in
theorem restoreSymlink_logged (fullPath linkTarget : CStr) (w : σ) :
    ∃ m, (∀ name type size posixMode, m ≠ .restoringFile name type size posixMode) ∧
      Records (restoreSymlink io fullPath linkTarget)
        (restoreSymlink (logged io) fullPath linkTarget) w [] [m] := by
  simp only [Records, restoreSymlink, ensureParentDirsExist_logged, logged]
  split
  · exact ⟨_, fun _ _ _ _ h => (by cases h), _, _, fun said => ⟨rfl, rfl⟩⟩
  · exact ⟨_, fun _ _ _ _ h => (by cases h), _, _, fun said => ⟨rfl, rfl⟩⟩

variable (io uninit) in
/-- A file is not created, or its content is copied. -/
theorem restoreFile_logged (name fullPath : CStr) (type : UInt8) (size posixMode iomanxMode : ℕ)
    (mtime : ℤ) (rest : List UInt8) (w : σ) :
    ∃ xs new, Records
        (restoreFile io uninit name fullPath type size posixMode iomanxMode mtime rest)
        (restoreFile (logged io) uninit name fullPath type size posixMode iomanxMode mtime rest)
        w xs new ∧
      (if 0 ≤ (io (.open fullPath (fioOWronly ||| fioOCreat ||| fioOTrunc) 0o666)
            (ensureParentDirsExist io fullPath w)).1.ret then
          new = [.restoringFile name type size posixMode] ∧ (givenBytes xs).length = size ∧
            (size ≤ rest.length → givenBytes xs = rest.take size)
        else xs = [] ∧ new = [.createFailed fullPath]) := by
  simp only [Records, restoreFile, ensureParentDirsExist_logged]
  obtain ⟨reply, hreply⟩ : ∃ reply, reply =
      io (.open fullPath (fioOWronly ||| fioOCreat ||| fioOTrunc) 0o666)
        (ensureParentDirsExist io fullPath w) := ⟨_, rfl⟩
  have hlogged : logged io (.open fullPath (fioOWronly ||| fioOCreat ||| fioOTrunc) 0o666)
      (ensureParentDirsExist io fullPath w, []) = (reply.1, reply.2, []) := by
    rw [hreply]
    rfl
  rw [hlogged, ← hreply]
  by_cases hopen : reply.1.ret < 0
  · refine ⟨[], [.createFailed fullPath], ⟨reply.2, skipSize size, fun said => ?_⟩, ?_⟩
    · rw [if_pos hopen, if_pos hopen]
      exact ⟨rfl, rfl⟩
    · rw [if_neg (Int.not_le.mpr hopen)]
      exact ⟨rfl, rfl⟩
  · obtain ⟨xs, hcopy, htotal, hbytes⟩ :=
      copyLoop_logged io uninit reply.1.ret size rest reply.2
    refine ⟨xs, [.restoringFile name type size posixMode],
      ⟨restoreStat io fullPath iomanxMode mtime (io (.close reply.1.ret)
          (copyLoop io uninit reply.1.ret size rest reply.2)).2,
        if size % 512 ≠ 0 then size + (512 - size % 512) else size, fun said => ⟨?_, ?_⟩⟩, ?_⟩
    · rw [if_neg hopen, hcopy, List.nil_append]
      rfl
    · rw [if_neg hopen]
    · rw [if_pos (Int.not_lt.mp hopen)]
      exact ⟨rfl, htotal, hbytes⟩

variable (io uninit) in
/-- A new entry, with and without the record of the writes. -/
theorem restoreNew_logged (header rest : List UInt8) (fullPath : CStr) (w : σ) :
    ∃ xs new, Records (restoreNew io uninit header rest fullPath)
        (restoreNew (logged io) uninit header rest fullPath) w xs new ∧
      ((Opens io header fullPath w ∧ (∃ name type posixMode,
          new = [.restoringFile name type (sizeField header) posixMode]) ∧
          (givenBytes xs).length = sizeField header ∧
          (sizeField header ≤ rest.length → givenBytes xs = rest.take (sizeField header))) ∨
        (¬ Opens io header fullPath w ∧ xs = [] ∧ Unannounced new)) := by
  unfold restoreNew
  by_cases hdir : typeField header = 53
  · simp only [if_pos hdir]
    refine ⟨[], [], restoreDir_logged io .., .inr ⟨?_, rfl, unannounced_nil⟩⟩
    rintro ⟨ht, -⟩
    rw [hdir] at ht
    exact absurd ht (by decide)
  by_cases hlink : typeField header = 50
  · simp only [if_neg hdir, if_pos hlink]
    obtain ⟨m, hm, hrecords⟩ := restoreSymlink_logged io fullPath (linkField header) w
    refine ⟨[], [m], hrecords, .inr ⟨?_, rfl, unannounced_singleton hm⟩⟩
    rintro ⟨ht, -⟩
    rw [hlink] at ht
    exact absurd ht (by decide)
  by_cases hfile : typeField header = 48 ∨ typeField header = 0
  · simp only [if_neg hdir, if_neg hlink, if_pos hfile]
    obtain ⟨xs, new, hrecords, hcases⟩ := restoreFile_logged io uninit (nameField header)
      fullPath (typeField header) (sizeField header) (modeField header)
      (convertPosixModeToIomanx (modeField header)) (mtimeField header) rest w
    refine ⟨xs, new, hrecords, ?_⟩
    split at hcases
    · rename_i hopen
      obtain ⟨hnew, htotal, hbytes⟩ := hcases
      exact .inl ⟨⟨hfile, hopen⟩, ⟨_, _, _, hnew⟩, htotal, hbytes⟩
    · rename_i hopen
      obtain ⟨rfl, rfl⟩ := hcases
      exact .inr ⟨fun h => hopen h.2, rfl, unannounced_singleton fun _ _ _ _ h => by cases h⟩
  · simp only [if_neg hdir, if_neg hlink, if_neg hfile]
    refine ⟨[], [], ⟨w, skipSize (sizeField header), fun said => ?_⟩,
      .inr ⟨fun h => hfile h.1, rfl, unannounced_nil⟩⟩
    rw [List.append_nil]
    exact ⟨rfl, rfl⟩

variable (io uninit overwriteMode mountPath prefixPath) in
/-- **The record changes nothing**, and the turn is a copy or writes nothing. -/
theorem restoreEntry_logged (header rest : List UInt8) (w : σ) : ∃ xs new w' skip,
    (∀ said, restoreEntry (logged io) uninit overwriteMode mountPath prefixPath header rest
          ((w, []), said) = (((w', xs), said ++ new), skip) ∧
        restoreEntry io uninit overwriteMode mountPath prefixPath header rest (w, said) =
          ((w', said ++ new), skip)) ∧
      Turned io overwriteMode mountPath prefixPath header rest w xs new := by
  simp only [restoreEntry_eq, lookedUp_logged]
  by_cases hname : nameField header = []
  · refine ⟨[], [], w, 0, fun said => ?_, .other (fun h => h.1 hname) unannounced_nil⟩
    rw [if_pos hname, if_pos hname, List.append_nil]
    exact ⟨rfl, rfl⟩
  by_cases hpre : ¬ prefixPath <+: nameField header ∨
      (nameField header).drop prefixPath.length = []
  · refine ⟨[], [], w, skipSize (sizeField header), fun said => ?_,
      .other (fun h => ?_) unannounced_nil⟩
    · rw [if_neg hname, if_neg hname, if_pos hpre, if_pos hpre, List.append_nil]
      exact ⟨rfl, rfl⟩
    · rcases hpre with hpre | hroot
      · exact hpre h.2.1.1
      · exact h.2.1.2.1 hroot
  simp only [if_neg hname, if_neg hpre]
  rw [not_or, not_not] at hpre
  obtain ⟨found, w₁, hlook⟩ : ∃ found w₁, lookedUp io overwriteMode
      (restoredPath mountPath prefixPath (nameField header)) w = (found, w₁) := ⟨_, _, rfl⟩
  simp only [hlook]
  cases found with
  | true =>
    refine ⟨[], [.skippingExisting (nameField header)], w₁, skipSize (sizeField header),
      fun said => ⟨rfl, rfl⟩, .other (fun h => ?_) (unannounced_singleton fun _ _ _ _ h => ?_)⟩
    · have hfound := h.2.1.2.2
      rw [hlook] at hfound
      cases hfound
    · cases h
  | false =>
    have hcreates : CreatesFile io overwriteMode mountPath prefixPath header w ↔
        Opens io header (restoredPath mountPath prefixPath (nameField header)) w₁ := by
      simp only [CreatesFile, hlook, Opens]
      exact ⟨fun h => h.2.2, fun h => ⟨hname, ⟨hpre.1, hpre.2, by rw [hlook]⟩, h⟩⟩
    obtain ⟨xs, new, ⟨w', skip, hrun⟩, hcases⟩ := restoreNew_logged io uninit header rest
      (restoredPath mountPath prefixPath (nameField header)) w₁
    refine ⟨xs, new, w', skip, hrun, ?_⟩
    rcases hcases with ⟨hopens, ⟨name, type, posixMode, rfl⟩, htotal, hbytes⟩ |
      ⟨hopens, rfl, hnew⟩
    · exact .copied name type posixMode (hcreates.mpr hopens) htotal hbytes
    · exact .other (hcreates.not.mpr hopens) hnew

theorem turn_turned (header rest : List UInt8) (w : σ) :
    Turned io overwriteMode mountPath prefixPath header rest w
      (turn io uninit overwriteMode mountPath prefixPath header rest w).1
      (turn io uninit overwriteMode mountPath prefixPath header rest w).2 := by
  obtain ⟨xs, new, w', skip, hrun, hturned⟩ := restoreEntry_logged io uninit overwriteMode
    mountPath prefixPath header rest w
  simp only [turn, (hrun []).1, List.nil_append]
  exact hturned

end Turned

/-! ## 4. A whole restore -/

section Restore

variable (io : IomanX σ) (uninit : Uninit) (overwriteMode : Bool) (mountPath prefixPath : CStr)

/-- The bytes in the file are those of the archive at the same places of the entry's content, and
an announced file has all of them. -/
structure Faithful (rest : List UInt8) (size : ℕ) (xs : List Write) (new : List Message) :
    Prop where
  bytes : fileBytes xs <+: rest.take size
  announced : ∀ name type n posixMode, .restoringFile name type n posixMode ∈ new →
    n ≤ rest.length ∧ (fileBytes xs).length = n

/-- The loop goes on at this header. -/
def GoesOn (tar : List UInt8) : Prop := ¬ tar.length < 512 ∧ tar.head? ≠ some 0

/-- Every turn of the loop is faithful. -/
def RestoresFaithfully (tarfile : List UInt8) (s : σ × List Message) : Prop :=
  ∀ tar w said, TurnsTo io uninit overwriteMode mountPath prefixPath (tarfile, s) (tar, w, said) →
    GoesOn tar → Faithful (tar.drop 512) (sizeField (tar.take 512))
      (turn io uninit overwriteMode mountPath prefixPath (tar.take 512) (tar.drop 512) w).1
      (turn io uninit overwriteMode mountPath prefixPath (tar.take 512) (tar.drop 512) w).2

/-- Every file that is created has its content in the archive, and `iomanX_write` takes all it is
given for it. -/
def Supplied (tarfile : List UInt8) (s : σ × List Message) : Prop :=
  ∀ tar w said, TurnsTo io uninit overwriteMode mountPath prefixPath (tarfile, s) (tar, w, said) →
    GoesOn tar → CreatesFile io overwriteMode mountPath prefixPath (tar.take 512) w →
      sizeField (tar.take 512) ≤ (tar.drop 512).length ∧
        ∀ x ∈ (turn io uninit overwriteMode mountPath prefixPath (tar.take 512) (tar.drop 512) w).1,
          x.data.length ≤ x.ret.toNat

variable {io} {overwriteMode} {mountPath prefixPath} in
/-- One turn. -/
theorem Turned.faithful_iff {header rest : List UInt8} {w : σ} {xs : List Write}
    {new : List Message} (h : Turned io overwriteMode mountPath prefixPath header rest w xs new) :
    Faithful rest (sizeField header) xs new ↔
      (CreatesFile io overwriteMode mountPath prefixPath header w →
        sizeField header ≤ rest.length ∧ ∀ x ∈ xs, x.data.length ≤ x.ret.toNat) := by
  cases h with
  | copied name type posixMode hcreates htotal hbytes =>
    rw [← length_fileBytes_eq_iff, htotal]
    constructor
    · intro h _
      exact h.announced _ _ _ _ List.mem_cons_self
    · intro h
      obtain ⟨hsize, hlen⟩ := h hcreates
      have hfull : fileBytes xs = givenBytes xs :=
        fileBytes_eq_givenBytes ((length_fileBytes_eq_iff xs).mp (hlen.trans htotal.symm))
      constructor
      · rw [hfull, hbytes hsize]
      · intro _ _ n _ hmem
        cases List.mem_singleton.mp hmem
        exact ⟨hsize, hlen⟩
  | other hnot hnew =>
    refine iff_of_true ⟨List.nil_prefix, fun _ _ _ _ hmem => ?_⟩
      fun hcreates => absurd hcreates hnot
    exact absurd hmem (hnew _ _ _ _)

/-- **When a restore is faithful**: exactly when every file that is created has its content in the
archive, and every write takes all it is given. -/
theorem restore_faithful_iff (tarfile : List UInt8) (s : σ × List Message) :
    RestoresFaithfully io uninit overwriteMode mountPath prefixPath tarfile s ↔
      Supplied io uninit overwriteMode mountPath prefixPath tarfile s := by
  constructor
  · intro h tar w said hq hgoes
    exact (turn_turned _ _ _).faithful_iff.mp (h tar w said hq hgoes)
  · intro h tar w said hq hgoes
    exact (turn_turned _ _ _).faithful_iff.mpr (h tar w said hq hgoes)

end Restore

/-- An iomanX on which every call succeeds, and a write takes all it is given. -/
def takesAll : IomanX Unit
  | .write _ data, w => ({ ret := data.length }, w)
  | _, w => ({}, w)

/-- The header of the file `f` of the partition `A`, which has five bytes. -/
def fiveBytes : List UInt8 :=
  (ascii ['A', '/', 'f'] ++ List.replicate 121 0) ++
    (octalDigits 11 5 ++ 0 :: List.replicate 376 0)

theorem createsFile_fiveBytes :
    CreatesFile takesAll true (mountPoint ++ [slash]) (ascii ['A', '/']) fiveBytes () :=
  ⟨by decide, ⟨by decide, by decide, rfl⟩, .inr (by decide), by decide⟩

/-- **An archive that is cut off** behind two of the five bytes: the file is announced. -/
theorem cut_off_announced : ¬ RestoresFaithfully takesAll {} true (mountPoint ++ [slash])
    (ascii ['A', '/']) (fiveBytes ++ [1, 2]) ((), []) := by
  intro h
  have hlen : fiveBytes.length = 512 := by
    simp only [fiveBytes, ascii, List.length_append, List.length_replicate, List.length_map,
      List.length_cons, List.length_nil, length_octalDigits]
  have hgoes : GoesOn (fiveBytes ++ [1, 2]) := by
    rw [GoesOn, List.length_append, hlen]
    exact ⟨by decide, by decide⟩
  have hturn := h _ () [] .refl hgoes
  rw [List.take_left' hlen, List.drop_left' hlen] at hturn
  have hsize : sizeField fiveBytes = 5 := by decide
  have hsupplied := (turn_turned _ _ _).faithful_iff.mp hturn createsFile_fiveBytes
  rw [hsize] at hsupplied
  exact absurd hsupplied.1 (by decide)

end PfsShell.Pfs2tar
