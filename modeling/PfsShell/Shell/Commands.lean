/-
# The commands

The functions of `src/shell.c` that run one command each, and those of `src/hl.c` they call.
The arguments are `argv`, the name of the command first.
-/
import PfsShell.Lib.Octal
import PfsShell.Shell.Session

namespace PfsShell.Shell

open PfsShell.Lib

variable {σ : Type}

/-- What a command returns, and the session afterwards. -/
abbrev Outcome (σ : Type) := Option (ℤ × Session σ)

/-- `argv[i]`. -/
def arg (argv : List CStr) (i : ℕ) : CStr := argv.getD i []

/-! ## 1. Partitions and directories -/

/-- The `char tmp[256]` of the commands on a file: `"pfs0:"`, the current directory, and the
argument. -/
def inCurrentDir (ctx : Context) (name : CStr) : Option CStr :=
  let tmp := pfs ++ ctx.path
  buffer 256 ((if tmp.getLast? = some slash then tmp else tmp ++ [slash]) ++ name)

/-- The commands that make one call on a path and complain when it fails. -/
def onPath (io : IomanX σ) (tmp : Option CStr) (c : CStr → Call) (s : Session σ) : Outcome σ :=
  tmp.map fun tmp =>
    let (reply, s) := s.call io (c tmp)
    (reply.ret, if reply.ret < 0 then s.say (.failed tmp reply.ret) else s)

/-- `do_mount`. -/
def doMount (io : IomanX σ) (argv : List CStr) (s : Session σ) : Outcome σ :=
  (buffer 256 (hdd ++ arg argv 1)).map fun mountPoint =>
    let s := { s with ctx := { s.ctx with mountPoint := mountPoint } }
    let (reply, s) := s.call io (.mount pfs mountPoint 0)
    if 0 ≤ reply.ret then (0, { s with ctx := { s.ctx with mount := true } })
    else (reply.ret, s.say (.failed mountPoint reply.ret))

/-- `do_umount`. -/
def doUmount (io : IomanX σ) (s : Session σ) : Outcome σ :=
  let (reply, s) := s.call io (.umount pfs)
  if 0 ≤ reply.ret then some (0, { s with ctx := { s.ctx with mount := false } })
  else some (reply.ret, s.say (.failed (ascii ['u', 'm', 'o', 'u', 'n', 't']) reply.ret))

/-- `do_pwd`. -/
def doPwd (s : Session σ) : Outcome σ := some (0, s.say (.line s.ctx.path))

/-- The path `do_cd` writes to `ctx->path`. -/
def cdPath (path name : CStr) : Option CStr :=
  if name = [slash] then some [slash]
  else if name = [46, 46] ∨ name = [46, 46, slash] then
    -- without a slash in the path, `*slash = '\0'` is a write through a null pointer
    (strrchr slash path).map fun i => if i ≠ 0 then path.take i else path.take 1
  else if name.head? = some slash then buffer 256 name
  else buffer 256 ((if 1 < path.length then path ++ [slash] else path) ++ name)

/-- `do_cd`. -/
def doCd (io : IomanX σ) (argv : List CStr) (s : Session σ) : Outcome σ :=
  let backup := s.ctx.path
  (cdPath s.ctx.path (arg argv 1)).bind fun path =>
    let s := { s with ctx := { s.ctx with path := path } }
    (buffer 256 (pfs ++ path)).map fun tmp =>
      let (reply, s) := s.call io (.chdir tmp)
      if reply.ret < 0 then
        (reply.ret, { s.say (.failed tmp reply.ret) with ctx := { s.ctx with path := backup } })
      else (reply.ret, s)

/-- `do_mkdir`. -/
def doMkdir (io : IomanX σ) (argv : List CStr) (s : Session σ) : Outcome σ :=
  onPath io (inCurrentDir s.ctx (arg argv 1)) (.mkdir · 0o777) s

/-- `do_rmdir`. -/
def doRmdir (io : IomanX σ) (argv : List CStr) (s : Session σ) : Outcome σ :=
  onPath io (inCurrentDir s.ctx (arg argv 1)) .rmdir s

/-- `do_rm`. -/
def doRm (io : IomanX σ) (argv : List CStr) (s : Session σ) : Outcome σ :=
  onPath io (inCurrentDir s.ctx (arg argv 1)) .remove s

/-- `do_rename`. -/
def doRename (io : IomanX σ) (argv : List CStr) (s : Session σ) : Outcome σ :=
  onPath io
    (if s.ctx.mount then inCurrentDir s.ctx (arg argv 1) else buffer 256 (hdd ++ arg argv 1))
    (.rename · (arg argv 2)) s

/-- `do_rmpart`. -/
def doRmpart (io : IomanX σ) (argv : List CStr) (s : Session σ) : Outcome σ :=
  onPath io (buffer 256 (hdd ++ arg argv 1)) .remove s

/-! ## 2. Copies -/

/-- The loop of `do_get` and `do_put`: it copies from `read` to `write`, and leaves the result of
the last write, or -1 after one that did not take everything. -/
def copyLoop (io : IomanX σ) (read : Call) (write : List UInt8 → Call)
    (complain : ℤ → ℤ → Message) : ℕ → ℤ → Session σ → Outcome σ
  | 0, _, _ => none
  | fuel + 1, result, s =>
    let (len, s) := s.call io read
    if 0 < len.ret then
      let (written, s) := s.call io (write (len.data.take len.ret.toNat))
      if written.ret ≠ len.ret then some (-1, s.say (complain written.ret len.ret))
      else copyLoop io read write complain fuel written.ret s
    else some (result, s)

/-- `do_get`. -/
def doGet (io : IomanX σ) (fuel : ℕ) (argv : List CStr) (s : Session σ) : Outcome σ :=
  (inCurrentDir s.ctx (arg argv 1)).bind fun tmp =>
    let (inFd, s) := s.call io (.open tmp fioORdonly 0)
    if 0 ≤ inFd.ret then
      let (outFd, s) := s.call io (.hostOpen (arg argv 1) (oCreat ||| oWronly) 0o664)
      if outFd.ret ≠ -1 then
        (copyLoop io (.read inFd.ret 4096) (.hostWrite outFd.ret) (fun _ _ => .perror (arg argv 1))
          fuel 0 s).map fun (_, s) =>
            let (result, s) := s.call io (.hostClose outFd.ret)
            (result.ret, (s.call io (.close inFd.ret)).2)
      else some (-1, ((s.say (.perror (arg argv 1))).call io (.close inFd.ret)).2)
    else some (inFd.ret, s.say (.failed tmp inFd.ret))

/-- `do_put`. -/
def doPut (io : IomanX σ) (fuel : ℕ) (argv : List CStr) (s : Session σ) : Outcome σ :=
  (inCurrentDir s.ctx (arg argv 1)).bind fun tmp =>
    let (inFd, s) := s.call io (.hostOpen (arg argv 1) oRdonly 0)
    if inFd.ret ≠ -1 then
      let (outFd, s) := s.call io (.open tmp (fioOWronly ||| fioOCreat) 0o666)
      if 0 ≤ outFd.ret then
        (copyLoop io (.hostRead inFd.ret (8 * 4096)) (.write outFd.ret)
          (fun result len => if result < 0 then .failed tmp result else .wroteShort tmp result len)
          fuel 0 s).map fun (_, s) =>
            let (result, s) := s.call io (.close outFd.ret)
            (result.ret, (s.call io (.hostClose inFd.ret)).2)
      else some (outFd.ret, ((s.say (.failed tmp outFd.ret)).call io (.hostClose inFd.ret)).2)
    else some (-1, s.say (.perror (arg argv 1)))

/-! ## 3. Listings -/

/-- The loop over a directory: `while ((result = iomanX_dread(dh, &dirent)) && result != -1)`. -/
def dreadLoop (io : IomanX σ) (dh : ℤ) (visit : IoxDirent → Session σ → Session σ) :
    ℕ → IoxDirent → Session σ → Outcome σ
  | 0, _, _ => none
  | fuel + 1, de, s =>
    let (reply, s) := s.call io (.dread dh de)
    if reply.ret ≠ 0 ∧ reply.ret ≠ -1 then
      dreadLoop io dh visit fuel reply.dirent (visit reply.dirent s)
    else some (reply.ret, s)

/-- `list_dir_objects`. -/
def listDirObjects (io : IomanX σ) (uninit : IoxDirent) (fuel : ℕ) (dh : ℤ) (lsmode : Bool) :
    Session σ → Outcome σ :=
  dreadLoop io dh (fun de s => s.say (.object lsmode de)) fuel uninit

/-- `lspart`.  Without `-l` it prints the partitions that are neither free nor sub-partitions. -/
def lspart (io : IomanX σ) (uninit : IoxDirent) (fuel : ℕ) (lsmode : Bool) (s : Session σ) :
    Outcome σ :=
  let (dh, s) := s.call io (.dopen hdd)
  if 0 ≤ dh.ret then
    (dreadLoop io dh.ret (fun de s =>
      if lsmode ∨ (de.stat.attr = 0 ∧ de.stat.mode ≠ 0) then s.say (.partition lsmode de) else s)
      fuel uninit s).map fun (_, s) =>
        let (result, s) := s.call io (.close dh.ret)
        if result.ret < 0 then (-1, s.say (.dcloseFailed result.ret)) else (0, s)
  else some (dh.ret, s.say (.dopenFailed hdd dh.ret))

/-- `do_ls`. -/
def doLs (io : IomanX σ) (uninit : IoxDirent) (fuel : ℕ) (argv : List CStr) (s : Session σ) :
    Outcome σ :=
  let lsmode := decide (1 < argv.length ∧ (arg argv 1).take 2 = ascii ['-', 'l'])
  if s.ctx.mount then
    (buffer 256 (pfs ++ s.ctx.path)).bind fun dirPath =>
      let (dh, s) := s.call io (.dopen dirPath)
      if 0 ≤ dh.ret then
        (listDirObjects io uninit fuel dh.ret lsmode s).map fun (_, s) =>
          (0, (s.call io (.close dh.ret)).2)
      else some (dh.ret, s.say (.failed (ascii ['l', 's']) dh.ret))
  else
    (lspart io uninit fuel lsmode s).map fun (result, s) =>
      (result, if result < 0 then s.say (.failed (ascii ['l', 's', 'p', 'a', 'r', 't']) result)
        else s)

/-! ## 4. Disks -/

/-- The sum `do_df` makes over the partitions. -/
def usedSectors (io : IomanX σ) (dh : ℤ) :
    ℕ → IoxDirent → UInt32 → Session σ → Option (UInt32 × Session σ)
  | 0, _, _, _ => none
  | fuel + 1, de, used, s =>
    let (reply, s) := s.call io (.dread dh de)
    let de := reply.dirent
    if reply.ret ≠ 0 ∧ reply.ret ≠ -1 then
      usedSectors io dh fuel de
        (if de.stat.mode ≠ 0 ∧ de.stat.attr = 0 then used + de.stat.private1 else used) s
    else some (used, s)

/-- `do_df`.  A division by zero has no result. -/
def doDf (io : IomanX σ) (uninit : IoxDirent) (fuel : ℕ) (s : Session σ) : Outcome σ :=
  if s.ctx.mount then
    let (reply, s) := s.call io (.getstat s.ctx.mountPoint)
    if reply.ret < 0 then some (reply.ret, s.say (.unableToGetStats s.ctx.mountPoint reply.ret))
    else
      let total := reply.stat.private1 - reply.stat.private0 * 4 - 4 * 1024 * 2
      let (zonesz, s) := s.call io (.devctl pfs pdiocZonesz)
      let (zonefree, s) := s.call io (.devctl pfs pdiocZonefree)
      let free := UInt32.ofInt zonesz.ret * UInt32.ofInt zonefree.ret / 512
      if total = 0 then none
      else
        let device := s.ctx.mountPoint.drop 5
        let capacity := (total - free) * 100 / total
        if total / 2048 < 10000 then
          some (0, s.say (.df device .miB (total / 2048) ((total - free) / 2048) (free / 2048)
            capacity))
        else
          some (0, s.say (.df device .giB (total / (2048 * 1024)) ((total - free) / (2048 * 1024))
            (free / (2048 * 1024)) capacity))
  else
    let (dh, s) := s.call io (.dopen hdd)
    if dh.ret < 0 then some (dh.ret, s.say (.unableToOpen hdd dh.ret))
    else
      (usedSectors io dh.ret fuel uninit 0 s).bind fun (used, s) =>
        let (_, s) := s.call io (.close dh.ret)
        let size := s.totalSectors + 1
        let free := size - used
        if size = 0 then none
        else
          some (0, s.say (.df hdd .giB (size / (2048 * 1024)) (used / (2048 * 1024))
            (free / (2048 * 1024)) (used * 100 / size)))

/-- `total_sectors = iomanX_devctl("hdd0:", HDIOC_TOTALSECTOR, ...)`, then `do_df`, whose result
is not used. -/
def measure (io : IomanX σ) (uninit : IoxDirent) (fuel : ℕ) (s : Session σ) :
    Option (Session σ) :=
  let (total, s) := s.call io (.devctl hdd hdiocTotalsector)
  (doDf io uninit fuel { s with totalSectors := UInt32.ofInt total.ret }).map (·.2)

/-- `do_device`.  It ends the process when a driver does not start. -/
def doDevice (io : IomanX σ) (uninit : IoxDirent) (fuel : ℕ) (argv : List CStr) (s : Session σ) :
    Outcome σ :=
  let (_, s) := s.call io (.setAtadDevicePath (arg argv 1))
  let (result, s) := s.call io .initApa
  if result.ret < 0 then none
  else
    let (result, s) := s.call io .initPfs
    if result.ret < 0 then none
    else
      let (result, s) := s.call io .initHdlfs
      if result.ret < 0 then none
      else
        (measure io uninit fuel { s with ctx := { s.ctx with setup := true } }).map fun s => (0, s)

/-- `mkpfs`. -/
def mkpfs (io : IomanX σ) (name : CStr) (s : Session σ) : Outcome σ :=
  (buffer 256 (hdd ++ name)).map fun tmp =>
    let (reply, s) := s.call io (.format (ascii ['p', 'f', 's', ':']) tmp [8192, 0x2d66, 0])
    (reply.ret, s)

/-- `do_initialize`. -/
def doInitialize (io : IomanX σ) (uninit : IoxDirent) (fuel : ℕ) (argv : List CStr)
    (s : Session σ) : Outcome σ :=
  if argv.length = 1 then some (0, s.say .useInitialize)
  else
    let (reply, s) := s.call io (.format hdd [] [])
    (if 0 ≤ reply.ret then
        (mkpfs io (ascii ['_', '_', 'n', 'e', 't']) s).bind fun (result, s) =>
        (mkpfs io (ascii ['_', '_', 's', 'y', 's', 't', 'e', 'm']) s).bind fun (_, s) =>
        (mkpfs io (ascii ['_', '_', 's', 'y', 's', 'c', 'o', 'n', 'f']) s).bind fun (_, s) =>
        (mkpfs io (ascii ['_', '_', 'c', 'o', 'm', 'm', 'o', 'n']) s).map fun (_, s) => (result, s)
      else some (reply.ret, s)).bind fun (result, s) =>
    let format := ascii ['f', 'o', 'r', 'm', 'a', 't']
    (measure io uninit fuel (if result < 0 then s.say (.failed format result) else s)).map
      fun s => (result, s)

/-! ## 5. Partitions of a given size -/

/-- The digits at the start of a text, as a number. -/
def leadingNumber : CStr → ℕ → ℕ
  | [], n => n
  | c :: s, n => if 48 ≤ c ∧ c ≤ 57 then leadingNumber s (10 * n + (c.toNat - 48)) else n

/-- `strtoul(s, NULL, 10)`. -/
def strtoul (s : CStr) : UInt64 :=
  let s := s.dropWhile isSpace
  let digits := if s.head? = some 43 ∨ s.head? = some 45 then s.drop 1 else s
  let n := leadingNumber digits 0
  if 2 ^ 64 ≤ n then UInt64.ofNat (2 ^ 64 - 1)
  else if s.head? = some 45 then -UInt64.ofNat n
  else UInt64.ofNat n

/-- `sizesString` and `sizesMB` of `do_mkpart`. -/
def sizes : List (CStr × UInt32) :=
  [(ascii ['8', 'M'], 8), (ascii ['1', '6', 'M'], 16), (ascii ['3', '2', 'M'], 32),
   (ascii ['6', '4', 'M'], 64), (ascii ['1', '2', '8', 'M'], 128),
   (ascii ['2', '5', '6', 'M'], 256), (ascii ['5', '1', '2', 'M'], 512),
   (ascii ['1', 'G'], 1024), (ascii ['2', 'G'], 2048),
   (ascii ['4', 'G'], 4096), (ascii ['8', 'G'], 8192), (ascii ['1', '6', 'G'], 16384),
   (ascii ['3', '2', 'G'], 32768)]

/-- `sizesString[i]` and `sizesMB[i]`. -/
def sizeAt (i : ℕ) : CStr × UInt32 := sizes.getD i ([], 0)

/-- `fsType` of `do_mkpart`. -/
def fsTypes : List CStr :=
  [ascii ['M', 'B', 'R'], ascii ['E', 'X', 'T', '2', 'S', 'W', 'A', 'P'],
   ascii ['E', 'X', 'T', '2'], ascii ['R', 'E', 'I', 'S', 'E', 'R'], ascii ['P', 'F', 'S'],
   ascii ['C', 'F', 'S'], ascii ['H', 'D', 'L']]

/-- The two variables of `do_mkpart` that its loops change, with `i` and `partfd`. -/
structure Making where
  sizeInMb : UInt32
  i : ℕ
  partfd : ℤ
  result : ℤ := -1

/-- `while (result < 0 && i > 0)`: the main partition, of the largest size that fits and can be
created. -/
def mainLoop (io : IomanX σ) (name partType : CStr) : ℕ → Making → Session σ →
    Option (Making × Session σ)
  | 0, m, s => some ({ m with i := 0 }, s)
  | i + 1, m, s =>
    if m.result < 0 then
      let m := { m with i := i }
      if (sizeAt i).2 ≤ m.sizeInMb then
        (buffer 128 (hdd ++ name ++ ascii [',', ',', ','] ++ (sizeAt i).1 ++ ascii [','] ++
          partType)).bind fun tmp =>
          let (reply, s) := s.call io (.open tmp (fioORdwr ||| fioOCreat) 0)
          if 0 ≤ reply.ret then
            mainLoop io name partType i { m with
              partfd := reply.ret
              sizeInMb := m.sizeInMb - (sizeAt i).2
              result := reply.ret } (s.say (.mainCreated (sizeAt i).1))
          else mainLoop io name partType i { m with partfd := reply.ret } s
      else mainLoop io name partType i m s
    else some ({ m with i := i + 1 }, s)

/-- `while (size_in_mb > 0 && j >= 0)`: the sub-partitions.  `j` is one more than in the source,
0 when it is over. -/
def subLoop (io : IomanX σ) (partfd : ℤ) : ℕ → ℕ → UInt32 → Session σ →
    Option (UInt32 × Session σ)
  | 0, _, _, _ => none
  | _ + 1, 0, size, s => some (size, s)
  | fuel + 1, j + 1, size, s =>
    if 0 < size then
      if (sizeAt j).2 ≤ size then
        let (reply, s) := s.call io (.ioctl2 partfd hiocaddsub (sizeAt j).1)
        if 0 ≤ reply.ret then
          subLoop io partfd fuel (j + 1) (size - (sizeAt j).2) (s.say (.subCreated (sizeAt j).1))
        else subLoop io partfd fuel j size s
      else subLoop io partfd fuel j size s
    else some (size, s)

/-- The size of `do_mkpart`'s second argument, in megabytes. -/
def sizeArg (text : CStr) : Option UInt32 :=
  if text.getLast? = some 77 then some (strtoul text.dropLast).toUInt32
  else if text.getLast? = some 71 then some (strtoul text.dropLast * 1024).toUInt32
  else none

/-- `do_mkpart`.  An argument that is empty is read in front of its first byte. -/
def doMkpart (io : IomanX σ) (fuel : ℕ) (argv : List CStr) (s : Session σ) : Outcome σ :=
  let name := arg argv 1
  (buffer 37 (hdd ++ name)).bind fun openString =>
    let (reply, s) := s.call io (.open openString fioORdonly 0)
    if reply.ret ≠ -2 then some (-1, ((s.call io (.close reply.ret)).2).say (.partitionExists name))
    else if arg argv 2 = [] then none
    else
      match sizeArg (arg argv 2) with
      | none => some (-1, s.say (.badSize (arg argv 2)))
      | some size =>
        if arg argv 3 ∉ fsTypes then some (-1, s.say (.badFsType (arg argv 3)))
        else
          (mainLoop io name (arg argv 3) 9 ⟨size, 9, reply.ret, -1⟩ s).bind fun (m, s) =>
            (if 0 ≤ m.partfd then subLoop io m.partfd fuel (m.i + 1) m.sizeInMb s
              else some (m.sizeInMb, s)).bind fun (_, s) =>
              (if 0 ≤ m.result then
                  let s := (s.call io (.close m.partfd)).2
                  if (arg argv 3).take 3 = ascii ['P', 'F', 'S'] then mkpfs io name s
                  else some (0, s)
                else some (m.result, s)).map fun (result, s) =>
                (result, if result < 0 then s.say (.failed name result) else s)

/-! ## 6. The host -/

/-- `do_lcd`. -/
def doLcd (io : IomanX σ) (argv : List CStr) (s : Session σ) : Outcome σ :=
  if argv.length = 1 then
    let (reply, s) := s.call io (.hostGetcwd 256)
    if reply.ret ≠ 0 then some (0, s.say (.line reply.data)) else some (-1, s)
  else
    let (reply, s) := s.call io (.hostChdir (arg argv 1))
    some (reply.ret, s)

/-- `do_help`. -/
def doHelp (s : Session σ) : Outcome σ := some (0, s)

end PfsShell.Shell
