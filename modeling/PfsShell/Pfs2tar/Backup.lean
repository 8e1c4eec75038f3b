/-
# The backup

`do_wrapped_ftw` walks a directory tree and calls a function for every entry, the directory
before what is in it.  `tar_c_file` is that function for a backup: it writes one entry of the
archive.  `tar_part` mounts one partition after the other and walks it, and `main` ends the
archive with two blocks of zeros.

The walk is over any callback with a state `τ` of its own; the whole state is iomanX's and that.
The loops end when iomanX ends them, so they are given `fuel`, and `none` is a run that has not
ended.
-/
import PfsShell.Pfs2tar.Header

namespace PfsShell.Pfs2tar

open PfsShell.Lib

variable {σ τ : Type}

/-! ## 1. The walk -/

/-- `path_info_t`. -/
structure PathInfo where
  origLen : ℕ
  pathPrefix : CStr

/-- `wrapped_ftw_callback`. -/
abbrev Callback (σ τ : Type) := PathInfo → CStr → IoxStat → σ × τ → Option (ℤ × σ × τ)

/-- `de.name` is `"."` or `".."`. -/
def isDots (name : CStr) : Bool := name = [46] || name = [46, 46]

/-- The loop of `do_wrapped_ftw` over the directory `d`, with the recursive call for its entries.
`l` and `j` are the lengths of the directory's path, with and without a slash at its end; what
comes back is the returned value and the path buffer. -/
def ftwLoop (io : IomanX σ) (doEntry : CStr → σ × τ → Option (ℤ × CStr × σ × τ)) (d : ℤ)
    (l j : ℕ) : ℕ → IoxDirent → CStr → σ × τ → Option (ℤ × CStr × σ × τ)
  | 0, _, _, _ => none
  | fuel + 1, de, path, (w, t) =>
    let (reply, w) := io (.dread d de) w
    let de := reply.dirent
    if reply.ret ≠ 0 ∧ reply.ret ≠ -1 then
      if isDots de.name then ftwLoop io doEntry d l j fuel de path (w, t)
      else if pathMax - l ≤ de.name.length then some (-1, path, (io (.close d) w).2, t)
      else
        (doEntry (path.take j ++ slash :: de.name) (w, t)).bind fun (r, path, w, t) =>
          if r ≠ 0 then some (r, path, (io (.close d) w).2, t)
          else ftwLoop io doEntry d l j fuel de path (w, t)
    else some (0, path.take l, (io (.close d) w).2, t)

section Loop

variable {io : IomanX σ} {doEntry : CStr → σ × τ → Option (ℤ × CStr × σ × τ)} {d : ℤ} {l j : ℕ}
  {de : IoxDirent} {path path' : CStr} {w w₁ w₂ : σ} {t t₂ : τ} {reply : Reply} {r : ℤ}

/-- The directory ends. -/
theorem ftwLoop_end (hio : io (.dread d de) w = (reply, w₁)) (hret : reply.ret = 0) (fuel : ℕ) :
    ftwLoop io doEntry d l j (fuel + 1) de path (w, t) =
      some (0, path.take l, (io (.close d) w₁).2, t) := by
  simp only [ftwLoop, hio, hret]
  exact if_neg fun h => h.1 rfl

/-- One of the two dots is passed over. -/
theorem ftwLoop_dots (hio : io (.dread d de) w = (reply, w₁)) (hret : 0 < reply.ret)
    (hdots : isDots reply.dirent.name = true) (fuel : ℕ) :
    ftwLoop io doEntry d l j (fuel + 1) de path (w, t) =
      ftwLoop io doEntry d l j fuel reply.dirent path (w₁, t) := by
  have hgo : reply.ret ≠ 0 ∧ reply.ret ≠ -1 := by omega
  simp only [ftwLoop, hio, if_pos hgo, if_pos hdots]

/-- A name is refused that does not fit behind the directory's path. -/
theorem ftwLoop_long (hio : io (.dread d de) w = (reply, w₁)) (hret : 0 < reply.ret)
    (hdots : ¬isDots reply.dirent.name = true) (hlong : pathMax - l ≤ reply.dirent.name.length)
    (fuel : ℕ) : ftwLoop io doEntry d l j (fuel + 1) de path (w, t) =
      some (-1, path, (io (.close d) w₁).2, t) := by
  have hgo : reply.ret ≠ 0 ∧ reply.ret ≠ -1 := by omega
  simp only [ftwLoop, hio, if_pos hgo, if_neg hdots, if_pos hlong]

/-- An entry is walked; an error ends the loop. -/
theorem ftwLoop_entry (hio : io (.dread d de) w = (reply, w₁)) (hret : 0 < reply.ret)
    (hdots : ¬isDots reply.dirent.name = true) (hlong : ¬pathMax - l ≤ reply.dirent.name.length)
    (hrun : doEntry (path.take j ++ slash :: reply.dirent.name) (w₁, t) =
      some (r, path', w₂, t₂)) (fuel : ℕ) :
    ftwLoop io doEntry d l j (fuel + 1) de path (w, t) =
      if r ≠ 0 then some (r, path', (io (.close d) w₂).2, t₂)
      else ftwLoop io doEntry d l j fuel reply.dirent path' (w₂, t₂) := by
  have hgo : reply.ret ≠ 0 ∧ reply.ret ≠ -1 := by omega
  simp only [ftwLoop, hio, if_pos hgo, if_neg hdots, if_neg hlong, hrun, Option.bind_some]

end Loop

/-- `do_wrapped_ftw`. -/
def doWrappedFtw (io : IomanX σ) (uninit : Uninit) (fn : Callback σ τ) (pi : PathInfo) :
    ℕ → CStr → σ × τ → Option (ℤ × CStr × σ × τ)
  | 0, _, _ => none
  | fuel + 1, path, (w, t) =>
    let l := path.length
    let j := if path.getLast? = some slash then l - 1 else l
    let (reply, w) := io (.getstat path) w
    if reply.ret < 0 then some (-1, path, w, t)
    else
      (fn pi path reply.stat (w, t)).bind fun (r, w, t) =>
        if r ≠ 0 then some (r, path, w, t)
        else if fioSIsdir reply.stat.mode then
          let (dir, w) := io (.dopen path) w
          if 0 ≤ dir.ret then
            ftwLoop io (doWrappedFtw io uninit fn pi fuel) dir.ret l j fuel uninit.dirent path
              (w, t)
          else some (-1, path, w, t)
        else some (0, path.take l, w, t)

/-- `wrapped_ftw`. -/
def wrappedFtw (io : IomanX σ) (uninit : Uninit) (fuel : ℕ) (pathPrefix path : CStr)
    (fn : Callback σ τ) (s : σ × τ) : Option (ℤ × σ × τ) :=
  if pathMax < path.length then some (-1, s)
  else
    (doWrappedFtw io uninit fn { origLen := path.length, pathPrefix := pathPrefix } fuel path
      s).map fun (r, _, s) => (r, s)

/-! ## 2. One entry -/

/-- What a backup has done: the file `tarfile_handle` stands for, and what was printed.
`archived` is for the proofs: the entries written, by the prefix and the path `tar_c_file` was
given. -/
structure Tar where
  tarfile : List UInt8 := []
  said : List Message := []
  archived : List (CStr × CStr) := []

def Tar.say (t : Tar) (m : Message) : Tar := { t with said := t.said ++ [m] }

/-- The `do ... while` loop that writes a block and reads the next one; `l` is the length of what
is in the block. -/
def blockLoop (io : IomanX σ) (f : ℤ) :
    ℕ → (ℕ → UInt8) → ℤ → σ → List UInt8 → Option (σ × List UInt8)
  | 0, _, _, _, _ => none
  | fuel + 1, b, l, w, tarfile =>
    let b := if l < END then overlay b l.toNat (List.replicate (END - l.toNat) 0) else b
    let tarfile := tarfile ++ window b 0 END
    if 0 ≤ f then
      let (reply, w) := io (.read f END) w
      if 0 < reply.ret then
        blockLoop io f fuel (overlay b 0 (reply.data.take END)) reply.ret w tarfile
      else some (w, tarfile)
    else some (w, tarfile)

/-- The end of `tar_c_file`, from the type on: `b` is the header so far. -/
def tarBody (io : IomanX σ) (fuel : ℕ) (pi : PathInfo) (inPath : CStr) (st : IoxStat)
    (b : ℕ → UInt8) : σ × Tar → Option (ℤ × σ × Tar)
  | (w, t) =>
    let (b, f, w) :=
      if fioSIsreg st.mode then
        let (reply, w) := io (.open inPath fioORdonly 0) w
        (storeSize st.size (storeType '0' b), reply.ret, w)
      else if fioSIsdir st.mode then (storeType '5' b, -1, w)
      else if fioSIslnk st.mode then
        let (reply, w) := io (.readlink inPath 100) w
        (overlay (storeType '2' b) LINK (reply.data.take 100), -1, w)
      else (b, -1, w)
    (blockLoop io f fuel (storeChecksum b) END w t.tarfile).map fun (w, tarfile) =>
      (0, (io (.close f) w).2,
        { t with tarfile := tarfile, archived := t.archived ++ [(pi.pathPrefix, inPath)] })

/-- `tar_c_file`. -/
def tarCFile (io : IomanX σ) (fuel : ℕ) : Callback σ Tar
  | pi, inPath, st, (w, t) =>
    if fioSIsreg st.mode ∧ st.hisize ≠ 0 then some (0, w, t.say (.tooLarge inPath))
    else
      let path := (pi.pathPrefix ++ inPath.drop pi.origLen).take 511
      if path.length = 0 then some (0, w, t)
      else
        match storePath path headerStart with
        | .noSlash => some (0, w, t.say (.pathTooLong inPath))
        | .tooLong => some (0, w, t)
        | .stored b => tarBody io fuel pi inPath st (storeStat st.mode st.mtime b) (w, t)

/-! ## 3. The partitions -/

/-- The test of both commands for a PFS partition of the given name, or of any name. -/
def selected (arg : Option CStr) (de : IoxDirent) : Bool :=
  de.stat.mode = 0x0100 && de.stat.attr ≠ 1 && (arg = none || arg = some de.name)

/-- The loop of `tar_part` and `part_tar` over the partitions: each one selected is mounted, given
to `doPart` with the prefix of its names in the archive, and unmounted. -/
def partLoop (io : IomanX σ) (say : Message → τ → τ) (flag : ℕ) (arg : Option CStr)
    (doPart : CStr → σ × τ → Option (σ × τ)) (dh : ℤ) : ℕ → IoxDirent → σ × τ → Option (σ × τ)
  | 0, _, _ => none
  | fuel + 1, de, (w, t) =>
    let (reply, w) := io (.dread dh de) w
    let de := reply.dirent
    if reply.ret ≠ 0 ∧ reply.ret ≠ -1 then
      if selected arg de then
        let devname := (hdd ++ de.name).take 255
        let (mounted, w) := io (.mount mountPoint devname flag) w
        if mounted.ret < 0 then
          partLoop io say flag arg doPart dh fuel de (w, say (.mountFailed devname mounted.ret) t)
        else
          (doPart ((de.name ++ [slash]).take 255) (w, t)).bind fun (w, t) =>
            partLoop io say flag arg doPart dh fuel de ((io (.umount mountPoint) w).2, t)
      else partLoop io say flag arg doPart dh fuel de (w, t)
    else some (w, t)

/-- `tar_part` and `part_tar` around their loop. -/
def eachPart (io : IomanX σ) (uninit : Uninit) (say : Message → τ → τ) (flag : ℕ)
    (arg : Option CStr) (doPart : CStr → σ × τ → Option (σ × τ)) (fuel : ℕ) (s : σ × τ) :
    Option (ℤ × σ × τ) :=
  let (dir, w) := io (.dopen hdd) s.1
  if 0 ≤ dir.ret then
    (partLoop io say flag arg doPart dir.ret fuel uninit.dirent (w, s.2)).map fun (w, t) =>
      let (reply, w) := io (.close dir.ret) w
      if reply.ret < 0 then (-1, w, say (.dcloseFailed reply.ret) t) else (0, w, t)
  else some (dir.ret, w, say (.dopenFailed dir.ret) s.2)

/-- `tar_part`. -/
def tarPart (io : IomanX σ) (uninit : Uninit) (arg : Option CStr) (fuel : ℕ) (s : σ × Tar) :
    Option (ℤ × σ × Tar) :=
  eachPart io uninit (fun m t => t.say m) fioMtRdonly arg
    (fun prefixPath s =>
      (wrappedFtw io uninit fuel prefixPath (mountPoint ++ [slash]) (tarCFile io fuel) s).map
        Prod.snd)
    fuel s

/-- The backup of `main`: `tar_part`, and two blocks of zeros. -/
def backup (io : IomanX σ) (uninit : Uninit) (arg : Option CStr) (fuel : ℕ) (w : σ) :
    Option (σ × Tar) :=
  (tarPart io uninit arg fuel (w, {})).map fun (_, w, t) =>
    (w, { t with tarfile := t.tarfile ++ List.replicate 512 0 ++ List.replicate 512 0 })

end PfsShell.Pfs2tar
