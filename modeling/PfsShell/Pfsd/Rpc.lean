/-
# The request handlers of pfsd

The functions of `pfsd.c` from `find_free_mount_info` to `event_handler_func`, in the order of
the source.  A handler takes the daemon before and gives the daemon after, together with the
value of its `rpcret`; the reply it writes to the client's socket is in `sent`.

Messages printed to the daemon's terminal are left out, and so is `output_statistics`, which
only prints.
-/
import PfsShell.Pfsd.State

namespace PfsShell.Pfsd

open PfsShell.Lib

/-! ## 1. The requests -/

/-- The payloads of `pfsd_common.h`, one constructor for each `PFSD_REQ_*`; `unknown` is every
other value of `m_command`. -/
inductive Request
  | pfsdReqOpen (mName : CStr) (mFlags mMode : CInt)
  | pfsdReqLseek (mFd mOffset mWhence : CInt)
  | pfsdReqLseek64 (mFd : CInt) (mOffset : Int64) (mWhence : CInt)
  | pfsdReqRead (mFd mPtrUseshmptr mSize : CInt)
  | pfsdReqWrite (mFd mPtrUseshmptr mSize : CInt)
  | pfsdReqClose (mFd : CInt)
  | pfsdReqDopen (mName : CStr)
  | pfsdReqDread (mFd mIoxDirentUseshmptr : CInt)
  | pfsdReqDclose (mFd : CInt)
  | pfsdReqChstat (mName : CStr) (mStatUseshmptr mMask : CInt)
  | pfsdReqGetstat (mName : CStr) (mStatUseshmptr : CInt)
  | pfsdReqMkdir (mName : CStr) (mMode : CInt)
  | pfsdReqRmdir (mName : CStr)
  | pfsdReqChdir (mName : CStr)
  | pfsdReqRemove (mName : CStr)
  | pfsdReqRename (mOld mNew : CStr)
  | pfsdReqIoctl (mFd mCmd mArgUseshmptr : CInt)
  | pfsdReqIoctl2 (mFd mCmd mArgUseshmptr mArglen mBufUseshmptr mBuflen : CInt)
  | pfsdReqSymlink (mOld mNew : CStr)
  | pfsdReqReadlink (mName : CStr) (mBufUseshmptr mBuflen : CInt)
  | pfsdReqSync (mDev : CStr) (mFlag : CInt)
  | pfsdReqFormat (mDev mBlockdev : CStr) (mArgUseshmptr mArglen : CInt)
  | pfsdReqMount (mFsname mDevname : CStr) (mFlag mArgUseshmptr mArglen : CInt)
  | pfsdReqUmount (mFsname : CStr)
  | pfsdReqDevctl (mName : CStr) (mCmd mArgUseshmptr mArglen mBufUseshmptr mBuflen : CInt)
  | pfsdReqSetreadahead (mEnabled : CInt)
  | pfsdReqGetreadahead
  | pfsdReqGetmountpoint (mPath : CStr)
  | pfsdReqIoctl2Hioctransfer (mFd : CInt) (mSub mSector mSize mMode : UInt32)
      (mBufferUseshmptr : CInt)
  | unknown (mCommand : CInt)
  deriving DecidableEq

/-! ## 2. The tables: slots, name translation, open files -/

/-- `m_new` of a packet whose `m_old` becomes `first`, when `m_new` held `second`: the two lie one
behind the other, so a `first` of 1024 bytes or more goes on over it. -/
def secondName (first second : CStr) : CStr :=
  if first.length < 1024 then second else first.drop 1024

/-- `m_old` of a packet that holds `first` from there on, when `m_new` becomes `second`. -/
def firstName (first second : CStr) : CStr :=
  if first.length < 1024 then first else first.take 1024 ++ second

namespace Tables

/-- `find_free_mount_info`: the first free slot, 32 when there is none. -/
def findFreeMountInfo (t : Tables) : ℕ := scan (fun i => (t.gMountlistItems i).mPid = 0) 32

/-- `umount_cleanup`: the strings are freed and the pointers stay. -/
def umountCleanup (t : Tables) (inMountlistIndex : ℕ) : Tables :=
  { t with
    gMountlistItems := Function.update t.gMountlistItems inMountlistIndex
      ({ t.gMountlistItems inMountlistIndex with mPid := 0 }) }

/-- The scan `rpc_remap_name` starts with: the client's first slot whose prefix the name
begins with, 32 when there is none. -/
def remapSlot (t : Tables) (inName : CStr) (inPid : CInt) : ℕ :=
  scan (fun i => (t.gMountlistItems i).mPid = inPid ∧
    (t.gMountlistItems i).mStrFsPrefix <+: inName) 32

/-- The loop of `rpc_remap_name` over the containers of all occupied slots: a name that
begins with one of them is cut to the empty string. -/
def rejectContainers (t : Tables) (inName : CStr) : CStr :=
  (List.range 32).foldl (fun name i =>
    if (t.gMountlistItems i).mPid ≠ 0 ∧ (t.gMountlistItems i).mStrContainerPath <+: name
    then [] else name) inName

/-- `rpc_remap_name`. -/
def rpcRemapName (t : Tables) (inName : CStr) (inPid : CInt) : CStr :=
  let i := t.remapSlot inName inPid
  if i < 32 then
    (t.gMountlistItems i).mStrContainerPath ++
      inName.drop (t.gMountlistItems i).mStrFsPrefix.length
  else t.rejectContainers inName

/-- The two calls of `rpc_remap_name` in the arguments of `scepfsRename` and `scepfsSymlink`, on
names that lie in one packet: what the pointers they return point to when both are done.  C does
not say which argument is evaluated first. -/
def rpcRemapNames (t : Tables) (oldFirst : Bool) (mOld mNew : CStr) (inPid : CInt) : CStr × CStr :=
  if oldFirst then
    let old := t.rpcRemapName mOld inPid
    let new := t.rpcRemapName (secondName old mNew) inPid
    (firstName old new, new)
  else
    let new := t.rpcRemapName mNew inPid
    let old := t.rpcRemapName (firstName mOld new) inPid
    (old, secondName old new)

/-- `rpc_common_open`, which repeats the scan of `rpc_remap_name` on the name as the client
sent it. -/
def rpcCommonOpen (t : Tables) (inFd inPid : CInt) (inFilename : CStr) : Tables :=
  let i := scan (fun i => (t.gMountlistItems i).mPid = inPid ∧
    (t.gMountlistItems i).mStrFsPrefix <+: inFilename) 32
  { t with
    gOpenfileItems := Function.update t.gOpenfileItems t.gOpenfileCount.toNat ⟨inFd, inPid, i⟩
    gOpenfileCount := t.gOpenfileCount + 1 }

/-- The entry `rpc_common_close` and `rpc_remap_fd` look for. -/
def Matches (inFd inPid : CInt) (e : OpenfileItem) : Bool :=
  e.mFd = inFd ∧ e.mPid = inPid

/-- `rpc_common_close`: later entries move down one place from the first match (from the end
of the table when nothing matches), and the count drops by one. -/
def rpcCommonClose (t : Tables) (inFd inPid : CInt) : Tables :=
  let n := t.gOpenfileCount.toNat
  let i := scan (fun i => Matches inFd inPid (t.gOpenfileItems i) = true) n
  { t with
    gOpenfileItems := shiftDown t.gOpenfileItems i (n - 1 - i)
    gOpenfileCount := t.gOpenfileCount - 1 }

/-- `rpc_remap_fd`: the descriptor, or -1 when the client has no entry for it. -/
def rpcRemapFd (t : Tables) (inFd inPid : CInt) : CInt :=
  let n := t.gOpenfileCount.toNat
  if scan (fun i => Matches inFd inPid (t.gOpenfileItems i) = true) n < n then inFd else -1

end Tables

/-! ## 3. Calls and replies -/

section Handlers

variable {σ : Type} (io : IomanX σ)

/-- `m_..._useshmptr ? ShmPtr : NULL`. -/
def shmPtr (useshmptr : CInt) (s : Daemon σ) : Option Mem :=
  if useshmptr ≠ 0 then some s.shm else none

/-- One call, made for client `pid`. -/
def scepfs (pid : CInt) (c : Call) (s : Daemon σ) : Ret × Daemon σ :=
  let r := io c s.world
  (r.1, { s with
    world := r.2
    shm := if c.usesShm then r.1.mem.getD s.shm else s.shm
    calls := s.calls ++ [⟨pid, c, r.1.ret⟩] })

/-- `write(in_pid, bytes, n)`. -/
def writeSocket (inPid : CInt) (bytes : List UInt8) (s : Daemon σ) : Daemon σ :=
  { s with sent := s.sent ++ [(inPid, bytes)] }

/-- `write(in_pid, &rpcret, sizeof(rpcret))`, and `rpcret`. -/
def writeRpcret (inPid : CInt) (rpcret : CInt) (s : Daemon σ) : CInt × Daemon σ :=
  (rpcret, writeSocket inPid (int32Bytes rpcret) s)

/-! ## 4. The table requests -/

/-- The body `rpc_command_open` and `rpc_command_dopen` share: `mk` makes the call from the
translated name. -/
def openCommon (mk : CStr → Call) (mName : CStr) (inPid : CInt) (s : Daemon σ) :
    CInt × Daemon σ :=
  if s.gOpenfileCount < 32 then
    let path := s.rpcRemapName mName inPid
    let r := scepfs io inPid (mk path) s
    let w := writeRpcret inPid r.1.ret r.2
    if 0 ≤ r.1.ret then
      (r.1.ret, { w.2 with
        toTables := w.2.rpcCommonOpen r.1.ret inPid mName
        opened := ⟨r.1.ret, inPid, mName, path, s.remapSlot mName inPid,
          s.gMountlistItems (s.remapSlot mName inPid)⟩ :: s.opened })
    else w
  else writeRpcret inPid (-24) s

/-- The body `rpc_command_close` and `rpc_command_dclose` share. -/
def closeCommon (mk : CInt → Call) (mFd : CInt) (inPid : CInt) (s : Daemon σ) :
    CInt × Daemon σ :=
  let r := scepfs io inPid (mk (s.rpcRemapFd mFd inPid)) s
  let s := if r.1.ret = 0 then { r.2 with toTables := r.2.rpcCommonClose mFd inPid } else r.2
  writeRpcret inPid r.1.ret s

/-- `rpc_command_open`. -/
def rpcCommandOpen (mName : CStr) (mFlags mMode : CInt) (inPid : CInt) (s : Daemon σ) :
    CInt × Daemon σ :=
  openCommon io (fun name => .scepfsOpen name mFlags mMode) mName inPid s

/-- `rpc_command_close`. -/
def rpcCommandClose (mFd : CInt) (inPid : CInt) (s : Daemon σ) : CInt × Daemon σ :=
  closeCommon io .scepfsClose mFd inPid s

/-- `rpc_command_dopen`. -/
def rpcCommandDopen (mName : CStr) (inPid : CInt) (s : Daemon σ) : CInt × Daemon σ :=
  openCommon io .scepfsDopen mName inPid s

/-- `rpc_command_dclose`. -/
def rpcCommandDclose (mFd : CInt) (inPid : CInt) (s : Daemon σ) : CInt × Daemon σ :=
  closeCommon io .scepfsDclose mFd inPid s

/-- `sprintf(fsname_buf, "pfs%d:", i)`. -/
def pfsUnit (i : ℕ) : CStr := ascii ['p', 'f', 's'] ++ decimal i ++ ascii [':']

/-- The `scepfsMount` of a MOUNT request, on the unit `fsname`. -/
def mountCall (fsname devname : CStr) (mFlag mArgUseshmptr mArglen : CInt) (s : Daemon σ) :
    Call :=
  .scepfsMount fsname devname mFlag (shmPtr mArgUseshmptr s) mArglen

/-- The fallback loop of `rpc_command_mount`, with `k` units left from `pfs<i>:`.  It carries
`(rpcret, fsname_buf)` and goes on while `rpcret` is -16. -/
def mountFallback (devname : CStr) (mFlag mArgUseshmptr mArglen : CInt) (inPid : CInt) :
    ℕ → ℕ → CInt × CStr → Daemon σ → (CInt × CStr) × Daemon σ
  | 0, _, acc, s => (acc, s)
  | k + 1, i, acc, s =>
    if acc.1 = -16 then
      let r := scepfs io inPid (mountCall (pfsUnit i) devname mFlag mArgUseshmptr mArglen s) s
      mountFallback devname mFlag mArgUseshmptr mArglen inPid k (i + 1)
        (r.1.ret, pfsUnit i) r.2
    else (acc, s)

/-- The first occupied slot whose device is `devname`, 32 when there is none. -/
def Tables.slotOfDevice (t : Tables) (devname : CStr) : ℕ :=
  scan (fun i => (t.gMountlistItems i).mPid ≠ 0 ∧
    (t.gMountlistItems i).mStrDevPrefix = devname) 32

/-- What `rpc_command_mount` does once it knows that the client has not mounted `fsname`
before: mount directly; when that is busy, share the container of a slot with the same
device; when there is none, fall back to `pfs0:` to `pfs31:`. -/
def mountDevice (fsname devname : CStr) (mFlag mArgUseshmptr mArglen : CInt) (inPid : CInt)
    (s : Daemon σ) : (CInt × CStr) × Daemon σ :=
  let r := scepfs io inPid (mountCall fsname devname mFlag mArgUseshmptr mArglen s) s
  if r.1.ret = -16 then
    let i := r.2.slotOfDevice devname
    if i < 32 then ((0, (r.2.gMountlistItems i).mStrContainerPath), r.2)
    else mountFallback io devname mFlag mArgUseshmptr mArglen inPid 32 0 (r.1.ret, fsname) r.2
  else ((r.1.ret, fsname), r.2)

/-- The client's first slot with exactly this prefix, 32 when there is none. -/
def Tables.slotOfPrefix (t : Tables) (fsname : CStr) (inPid : CInt) : ℕ :=
  scan (fun i => (t.gMountlistItems i).mPid = inPid ∧
    (t.gMountlistItems i).mStrFsPrefix = fsname) 32

/-- The slot a successful MOUNT fills. -/
def Tables.fillSlot (t : Tables) (i : ℕ) (item : MountlistItem) : Tables :=
  { t with gMountlistItems := Function.update t.gMountlistItems i item }

/-- `rpc_command_mount`. -/
def rpcCommandMount (mFsname mDevname : CStr) (mFlag mArgUseshmptr mArglen : CInt)
    (inPid : CInt) (s : Daemon σ) : CInt × Daemon σ :=
  let devnameBuf := cutAt 44 mDevname -- at the first ','
  let freeMountInfo := s.findFreeMountInfo
  let r :=
    if freeMountInfo < 32 then
      if 32 ≤ s.slotOfPrefix mFsname inPid then
        mountDevice io mFsname devnameBuf mFlag mArgUseshmptr mArglen inPid s
      else ((-16, mFsname), s)
    else ((-24, mFsname), s)
  let s :=
    if r.1.1 = 0 then
      { r.2 with toTables := r.2.fillSlot freeMountInfo ⟨inPid, mFsname, r.1.2, devnameBuf⟩ }
    else r.2
  writeRpcret inPid r.1.1 s

/-- The last scan of `rpc_command_umount`.  Its condition requires `i == k` beside the test
of slot `k`. -/
def Tables.otherHolder (t : Tables) (i : ℕ) : ℕ :=
  scan (fun k => ¬ (i = k ∧ ((t.gMountlistItems k).mPid = 0 ∨
    (t.gMountlistItems i).mStrContainerPath ≠ (t.gMountlistItems k).mStrContainerPath))) 32

/-- Some entry of the open-file table was opened under slot `i`. -/
def Tables.inUse (t : Tables) (i : ℕ) : Prop :=
  ∃ e ∈ t.openfiles, e.mMountlistIndex = i

instance (t : Tables) (i : ℕ) : Decidable (t.inUse i) :=
  inferInstanceAs (Decidable (∃ e ∈ t.openfiles, e.mMountlistIndex = i))

/-- `rpc_command_umount`. -/
def rpcCommandUmount (mFsname : CStr) (inPid : CInt) (s : Daemon σ) : CInt × Daemon σ :=
  let i := s.slotOfPrefix mFsname inPid
  if i = 32 then writeRpcret inPid (-19) s
  else if s.inUse i then writeRpcret inPid (-16) s
  else
    let k := s.otherHolder i
    let r :=
      if 32 ≤ k then
        let r := scepfs io inPid (.scepfsUmount (s.gMountlistItems i).mStrContainerPath) s
        (r.1.ret, r.2)
      else (0, s)
    let w := writeRpcret inPid r.1 r.2
    if r.1 = 0 then (0, { w.2 with toTables := w.2.umountCleanup i }) else w

/-- `rpc_command_getmountpoint`: the answer is copied to the shared memory, over the bytes
that were there. -/
def rpcCommandGetmountpoint (mPath : CStr) (inPid : CInt) (s : Daemon σ) : CInt × Daemon σ :=
  let pathBuf := cutAt 44 mPath
  let i := scan (fun i => (s.gMountlistItems i).mPid = inPid ∧
    pathBuf = (s.gMountlistItems i).mStrDevPrefix) 32
  let answer := (if i = 32 then [] else (s.gMountlistItems i).mStrFsPrefix) ++ [0]
  writeRpcret inPid (if i = 32 then -19 else 0)
    { s with shm := answer ++ s.shm.drop answer.length }

/-- `scepfsGetReadAhead`. -/
def scepfsGetReadAhead (inPid : CInt) (s : Daemon σ) : CInt × Daemon σ :=
  let r := scepfs io inPid .ioctlBlkraget s
  (r.1.ret, r.2)

/-- `scepfsSetReadAhead`. -/
def scepfsSetReadAhead (enabled : CInt) (inPid : CInt) (s : Daemon σ) : CInt × Daemon σ :=
  let g := scepfsGetReadAhead io inPid s
  let r := scepfs io inPid (.ioctlBlkraset enabled) g.2
  if r.1.ret ≠ 0 then (r.1.ret, r.2)
  else (0, (scepfsGetReadAhead io inPid r.2).2)

/-! ## 5. The dispatch -/

/-- An arm of the switch that calls a handler and returns. -/
def returned (r : CInt × Daemon σ) : Option ℤ × Daemon σ := (some r.1.toInt, r.2)

/-- An arm of the switch that sets `rpcret` and breaks: the reply is written after the
switch. -/
def broke (fd : CInt) (r : CInt × Daemon σ) : Option ℤ × Daemon σ :=
  returned (writeRpcret fd r.1 r.2)

/-- The arms that set `rpcret` to the result of one call. -/
def call (fd : CInt) (c : Call) (s : Daemon σ) : CInt × Daemon σ :=
  let r := scepfs io fd c s
  (r.1.ret, r.2)

/-- What C leaves open in one call of `event_handler_func`: what its local variable `rpcret` holds
before an arm sets it, and which of two names is translated first. -/
structure Choice where
  rpcret : CInt := 0
  oldFirst : Bool := false
  deriving DecidableEq

/-- `event_handler_func`, on the request `read` delivered from the client's socket (`none` when
`read` failed).  The result is the value computed for the request, if any, and the daemon
afterwards. -/
def eventHandlerFunc (pfd : ℕ) (choice : Choice) (req : Option Request) (s : Daemon σ) :
    Option ℤ × Daemon σ :=
  let fd := s.gConnectionPollfds pfd
  match req with
  | none => (none, s)
  | some (.pfsdReqOpen name flags mode) => returned (rpcCommandOpen io name flags mode fd s)
  | some (.pfsdReqLseek f offset whence) =>
    broke fd (call io fd (.scepfsLseek (s.rpcRemapFd f fd) offset whence) s)
  | some (.pfsdReqLseek64 f offset whence) =>
    let r := scepfs io fd (.scepfsLseek64 (s.rpcRemapFd f fd) offset whence) s
    (some r.1.ret64.toInt, writeSocket fd (int64Bytes r.1.ret64) r.2)
  | some (.pfsdReqRead f useshm size) =>
    broke fd (call io fd (.scepfsRead (s.rpcRemapFd f fd) (shmPtr useshm s) size) s)
  | some (.pfsdReqWrite f useshm size) =>
    broke fd (call io fd (.scepfsWrite (s.rpcRemapFd f fd) (shmPtr useshm s) size) s)
  | some (.pfsdReqClose f) => returned (rpcCommandClose io f fd s)
  | some (.pfsdReqDopen name) => returned (rpcCommandDopen io name fd s)
  | some (.pfsdReqDread f useshm) =>
    broke fd (call io fd (.scepfsDread (s.rpcRemapFd f fd) (shmPtr useshm s)) s)
  | some (.pfsdReqDclose f) => returned (rpcCommandDclose io f fd s)
  | some (.pfsdReqChstat name useshm mask) =>
    broke fd (call io fd (.scepfsChstat (s.rpcRemapName name fd) (shmPtr useshm s) mask) s)
  | some (.pfsdReqGetstat name useshm) =>
    broke fd (call io fd (.scepfsGetstat (s.rpcRemapName name fd) (shmPtr useshm s)) s)
  | some (.pfsdReqMkdir name mode) =>
    broke fd (call io fd (.scepfsMkdir (s.rpcRemapName name fd) mode) s)
  | some (.pfsdReqRmdir name) =>
    broke fd (call io fd (.scepfsRmdir (s.rpcRemapName name fd)) s)
  | some (.pfsdReqChdir name) =>
    broke fd (call io fd (.scepfsChdir (s.rpcRemapName name fd)) s)
  | some (.pfsdReqRemove name) =>
    broke fd (call io fd (.scepfsRemove (s.rpcRemapName name fd)) s)
  | some (.pfsdReqRename old new) =>
    let names := s.rpcRemapNames choice.oldFirst old new fd
    broke fd (call io fd (.scepfsRename names.1 names.2) s)
  | some (.pfsdReqIoctl f cmd useshm) =>
    broke fd (call io fd (.scepfsIoctl (s.rpcRemapFd f fd) cmd (shmPtr useshm s)) s)
  | some (.pfsdReqIoctl2 f cmd arg arglen buf buflen) =>
    broke fd (call io fd (.scepfsIoctl2 (s.rpcRemapFd f fd) cmd (shmPtr arg s) arglen
      (shmPtr buf s) buflen) s)
  | some (.pfsdReqSymlink old new) =>
    let names := s.rpcRemapNames choice.oldFirst old new fd
    broke fd (call io fd (.scepfsSymlink names.1 names.2) s)
  | some (.pfsdReqReadlink name buf buflen) =>
    broke fd (call io fd (.scepfsReadlink (s.rpcRemapName name fd) (shmPtr buf s) buflen) s)
  | some (.pfsdReqSync dev flag) =>
    broke fd (call io fd (.scepfsSync (s.rpcRemapName dev fd) flag) s)
  | some (.pfsdReqFormat dev blockdev arg arglen) =>
    broke fd (call io fd (.scepfsFormat dev (cutAt 44 blockdev) (shmPtr arg s) arglen) s)
  | some (.pfsdReqMount fsname devname flag arg arglen) =>
    returned (rpcCommandMount io fsname devname flag arg arglen fd s)
  | some (.pfsdReqUmount fsname) => returned (rpcCommandUmount io fsname fd s)
  | some (.pfsdReqDevctl name cmd arg arglen buf buflen) =>
    broke fd (call io fd (.scepfsDevctl (s.rpcRemapName name fd) cmd (shmPtr arg s) arglen
      (shmPtr buf s) buflen) s)
  | some (.pfsdReqSetreadahead enabled) => broke fd (scepfsSetReadAhead io enabled fd s)
  | some .pfsdReqGetreadahead => broke fd (scepfsGetReadAhead io fd s)
  | some (.pfsdReqGetmountpoint path) =>
    -- the handler has replied already; this arm breaks where the others return
    let r := rpcCommandGetmountpoint path fd s
    (some r.1.toInt, (writeRpcret fd choice.rpcret r.2).2)
  | some (.pfsdReqIoctl2Hioctransfer f sub sector size mode useshm) =>
    broke fd (call io fd (.scepfsIoctl2Transfer (s.rpcRemapFd f fd)
      ⟨sub, sector, size, mode, shmPtr useshm s⟩) s)
  | some (.unknown _) => (none, s)

end Handlers

end PfsShell.Pfsd
