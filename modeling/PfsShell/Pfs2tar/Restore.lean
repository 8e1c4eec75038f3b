/-
# The restore

`restore_from_tar` reads the archive from its start once for every partition, and puts back the
entries whose name begins with the partition's.  The rest of the archive behind the position of
the stream stands for the stream: reading and seeking drop bytes from it.
-/
import PfsShell.Pfs2tar.Backup

namespace PfsShell.Pfs2tar

open PfsShell.Lib

variable {σ : Type}

/-! ## 1. Directories -/

/-- The texts in front of the slashes of a text that comes after `done`. -/
def cutsFrom (done : CStr) : CStr → List CStr
  | [] => []
  | c :: rest =>
    if c = slash then done :: cutsFrom (done ++ [c]) rest else cutsFrom (done ++ [c]) rest

/-- `ensure_parent_dirs_exist`.  `tmp` holds 255 characters; the first slash is not looked at. -/
def ensureParentDirsExist (io : IomanX σ) (path : CStr) (w : σ) : σ :=
  let tmp := path.take (pathMax - 1)
  (cutsFrom (tmp.take (mountPoint.length + 1)) (tmp.drop (mountPoint.length + 1))).foldl
    (fun w dir => (io (.mkdir dir 0o777) w).2) w

/-! ## 2. One entry -/

/-- `iomanX_chstat` with the mode, and with the times. -/
def restoreStat (io : IomanX σ) (fullPath : CStr) (iomanxMode : ℕ) (mtime : ℤ) (w : σ) : σ :=
  let time := convertPosixTimeToIoxTime mtime
  let w := (io (.chstat fullPath { mode := iomanxMode } fioCstMode) w).2
  (io (.chstat fullPath { mtime := time, atime := time, ctime := time }
    (fioCstMt ||| fioCstAt ||| fioCstCt)) w).2

/-- The loop that copies the content of a file, `remaining` bytes of it, to `fd`.  `fread` stops
at the end of the archive, and `iomanX_write` is given the whole chunk all the same. -/
def copyLoop (io : IomanX σ) (uninit : Uninit) (fd : ℤ) (remaining : ℕ) (rest : List UInt8)
    (w : σ) : σ :=
  if _h : remaining = 0 then w
  else
    let chunk := if 512 < remaining then 512 else remaining
    let buf := overlay (uninit.buf remaining) 0 (rest.take chunk)
    copyLoop io uninit fd (remaining - chunk) (rest.drop chunk)
      (io (.write fd (window buf 0 chunk)) w).2
termination_by remaining
decreasing_by
  split <;> omega

/-- `((size + 511) / 512) * 512`, in `unsigned int`. -/
def skipSize (size : ℕ) : ℕ := u32 (size + 511 : ℕ) / 512 * 512

/-- The part of `restore_from_tar` for a directory.  The second result of this part, of the next
two and of the whole is how many of the bytes behind the header are read or skipped. -/
def restoreDir (io : IomanX σ) (fullPath : CStr) (iomanxMode : ℕ) (mtime : ℤ) :
    σ × List Message → (σ × List Message) × ℕ
  | (w, said) =>
    let w := ensureParentDirsExist io fullPath w
    let w := (io (.mkdir fullPath 0o777) w).2
    ((restoreStat io fullPath iomanxMode mtime w, said), 0)

/-- The part of `restore_from_tar` for a link. -/
def restoreSymlink (io : IomanX σ) (fullPath linkTarget : CStr) :
    σ × List Message → (σ × List Message) × ℕ
  | (w, said) =>
    let w := ensureParentDirsExist io fullPath w
    let (reply, w) := io (.symlink linkTarget fullPath) w
    if reply.ret < 0 then ((w, said ++ [.symlinkFailed fullPath linkTarget reply.ret]), 0)
    else ((w, said ++ [.restoringSymlink fullPath linkTarget]), 0)

/-- The part of `restore_from_tar` for a file, whose content begins `rest`. -/
def restoreFile (io : IomanX σ) (uninit : Uninit) (name fullPath : CStr) (type : UInt8)
    (size posixMode iomanxMode : ℕ) (mtime : ℤ) (rest : List UInt8) :
    σ × List Message → (σ × List Message) × ℕ
  | (w, said) =>
    let w := ensureParentDirsExist io fullPath w
    let (reply, w) := io (.open fullPath (fioOWronly ||| fioOCreat ||| fioOTrunc) 0o666) w
    if reply.ret < 0 then ((w, said ++ [.createFailed fullPath]), skipSize size)
    else
      let w := copyLoop io uninit reply.ret size rest w
      let w := (io (.close reply.ret) w).2
      ((restoreStat io fullPath iomanxMode mtime w,
          said ++ [.restoringFile name type size posixMode]),
        if size % 512 ≠ 0 then size + (512 - size % 512) else size)

/-- The body of `restore_from_tar`'s loop; the bytes behind the header are `rest`. -/
def restoreEntry (io : IomanX σ) (uninit : Uninit) (overwriteMode : Bool)
    (pfsMountPath prefixPath : CStr) (header rest : List UInt8) :
    σ × List Message → (σ × List Message) × ℕ
  | (w, said) =>
    let name := nameField header
    if name = [] then ((w, said), 0)
    else
      let size := sizeField header
      let type := typeField header
      let mtime := mtimeField header
      let posixMode := modeField header
      let iomanxMode := convertPosixModeToIomanx posixMode
      if ¬ prefixPath <+: name then ((w, said), skipSize size)
      else
        let relPath := name.drop prefixPath.length
        if relPath = [] then ((w, said), skipSize size)
        else
          let fullPath := (pfsMountPath ++ relPath).take 511
          let (found, w) :=
            if overwriteMode then (false, w)
            else
              let (reply, w) := io (.getstat fullPath) w
              (decide (reply.ret = 0), w)
          if found then ((w, said ++ [.skippingExisting name]), skipSize size)
          else if type = 53 then restoreDir io fullPath iomanxMode mtime (w, said)
          else if type = 50 then restoreSymlink io fullPath (linkField header) (w, said)
          else if type = 48 ∨ type = 0 then
            restoreFile io uninit name fullPath type size posixMode iomanxMode mtime rest (w, said)
          else ((w, said), skipSize size)

/-- The lookup of an entry that may exist already, and the state after it. -/
def lookedUp (io : IomanX σ) (overwriteMode : Bool) (fullPath : CStr) (w : σ) : Bool × σ :=
  if overwriteMode then (false, w)
  else
    let (reply, w) := io (.getstat fullPath) w
    (decide (reply.ret = 0), w)

/-- The path an entry is restored to. -/
def restoredPath (mountPath prefixPath name : CStr) : CStr :=
  (mountPath ++ name.drop prefixPath.length).take 511

/-- The body of the loop from the lookup on, when the entry is new. -/
def restoreNew (io : IomanX σ) (uninit : Uninit) (header rest : List UInt8) (fullPath : CStr)
    (s : σ × List Message) : (σ × List Message) × ℕ :=
  let iomanxMode := convertPosixModeToIomanx (modeField header)
  if typeField header = 53 then restoreDir io fullPath iomanxMode (mtimeField header) s
  else if typeField header = 50 then restoreSymlink io fullPath (linkField header) s
  else if typeField header = 48 ∨ typeField header = 0 then
    restoreFile io uninit (nameField header) fullPath (typeField header) (sizeField header)
      (modeField header) iomanxMode (mtimeField header) rest s
  else (s, skipSize (sizeField header))

/-- The body of the loop, by the tests it makes. -/
theorem restoreEntry_eq {io : IomanX σ} {uninit : Uninit} {overwriteMode : Bool}
    {mountPath prefixPath : CStr} (header rest : List UInt8) (w : σ) (said : List Message) :
    restoreEntry io uninit overwriteMode mountPath prefixPath header rest (w, said) =
      if nameField header = [] then ((w, said), 0)
      else if ¬ prefixPath <+: nameField header ∨
          (nameField header).drop prefixPath.length = [] then
        ((w, said), skipSize (sizeField header))
      else
        let fullPath := restoredPath mountPath prefixPath (nameField header)
        if (lookedUp io overwriteMode fullPath w).1 then
          (((lookedUp io overwriteMode fullPath w).2,
            said ++ [.skippingExisting (nameField header)]), skipSize (sizeField header))
        else
          restoreNew io uninit header rest fullPath ((lookedUp io overwriteMode fullPath w).2,
            said) := by
  rw [restoreEntry]
  dsimp only
  by_cases hname : nameField header = []
  · rw [if_pos hname, if_pos hname]
  rw [if_neg hname, if_neg hname]
  by_cases hpre : ¬ prefixPath <+: nameField header
  · rw [if_pos hpre, if_pos (.inl hpre)]
  by_cases hroot : (nameField header).drop prefixPath.length = []
  · rw [if_neg hpre, if_pos hroot, if_pos (.inr hroot)]
  rw [if_neg hpre, if_neg hroot, if_neg (not_or.mpr ⟨hpre, hroot⟩)]
  rfl

/-! ## 3. The archive and the partitions -/

/-- The loop of `restore_from_tar`. -/
def restoreLoop (io : IomanX σ) (uninit : Uninit) (overwriteMode : Bool)
    (pfsMountPath prefixPath : CStr) (tar : List UInt8) (s : σ × List Message) :
    σ × List Message :=
  if _h : tar.length < 512 then s
  else if tar.head? = some 0 then s
  else
    let (s, skip) := restoreEntry io uninit overwriteMode pfsMountPath prefixPath (tar.take 512)
      (tar.drop 512) s
    restoreLoop io uninit overwriteMode pfsMountPath prefixPath ((tar.drop 512).drop skip) s
termination_by tar.length
decreasing_by
  simp only [List.length_drop]
  omega

/-- `restore_from_tar`. -/
def restoreFromTar (io : IomanX σ) (uninit : Uninit) (overwriteMode : Bool)
    (tarfile : List UInt8) (pfsMountPath prefixPath : CStr) (s : σ × List Message) :
    σ × List Message :=
  restoreLoop io uninit overwriteMode pfsMountPath prefixPath tarfile s

end PfsShell.Pfs2tar
