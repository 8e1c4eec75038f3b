/-
# What iomanX is asked for

A client function writes its arguments to a request and to the shared memory, and the daemon makes
a call from what arrives.  Here a client is alone with the daemon, runs one function over the bytes
of `Packet.lean` (`runAlone`), and what happens is compared with the call that the function stands
for, made with the client's own memory (`ClientCall.direct`).

iomanX sees of a buffer what its length allows, and writes to result buffers only (`BufferLaws`):
that the daemon's argument and result share one buffer does not matter then.

* `marshals_iff`: a function has the effect of the call, in whatever order C evaluates arguments,
  if and only if the names that are translated in the packet do not go over what is behind them.

The buffers of `rpc_command_open` have room for a longer name; the other arms translate the name in
the field that the client wrote it to.  `marshals_overrun` is a name of 1023 bytes whose translation
is one byte longer.
-/
import PfsShell.Pfsd.Packet
import PfsShell.Pfsd.Protocol
import PfsShell.Pfsd.Routing
import PfsShell.Pfsd.Transfer

namespace PfsShell.Pfsd

open PfsShell.Lib

variable {σ : Type}

/-! ## 1. Buffers -/

/-- What iomanX sees of a call: of an argument as much as its length says, and of a result buffer
that there is one. -/
def Call.view (sizes : Sizes) : Call → Call
  | .scepfsRead fd ptr size => .scepfsRead fd (ptr.map fun _ => []) size
  | .scepfsWrite fd ptr size => .scepfsWrite fd (ptr.map (List.take size.toNatClampNeg)) size
  | .scepfsDread fd ioxDirent => .scepfsDread fd (ioxDirent.map fun _ => [])
  | .scepfsChstat name stat mask =>
    .scepfsChstat name (stat.map (List.take sizes.ioxStat)) mask
  | .scepfsGetstat name stat => .scepfsGetstat name (stat.map fun _ => [])
  | .scepfsIoctl fd cmd arg => .scepfsIoctl fd cmd (arg.map (List.take 1024))
  | .scepfsIoctl2 fd command arg arglen buf buflen =>
    .scepfsIoctl2 fd command (arg.map (List.take arglen.toNatClampNeg)) arglen
      (buf.map fun _ => []) buflen
  | .scepfsIoctl2Transfer fd xfer =>
    .scepfsIoctl2Transfer fd
      { xfer with buffer := xfer.buffer.map (List.take (xfer.size <<< 9).toNat) }
  | .scepfsReadlink name buf buflen => .scepfsReadlink name (buf.map fun _ => []) buflen
  | .scepfsDevctl name cmd arg arglen buf buflen =>
    .scepfsDevctl name cmd (arg.map (List.take arglen.toNatClampNeg)) arglen
      (buf.map fun _ => []) buflen
  | c => c

/-- The memory for the result of a call, and the size of the result. -/
def Call.resultBuffer (sizes : Sizes) : Call → Option (Mem × ℕ)
  | .scepfsRead _ buf len | .scepfsIoctl2 _ _ _ _ buf len | .scepfsReadlink _ buf len
  | .scepfsDevctl _ _ _ _ buf len => buf.map fun b => (b, len.toNatClampNeg)
  | .scepfsDread _ buf => buf.map fun b => (b, sizes.ioxDirent)
  | .scepfsGetstat _ buf => buf.map fun b => (b, sizes.ioxStat)
  | .scepfsIoctl2Transfer _ xfer => xfer.buffer.map fun b => (b, (xfer.size <<< 9).toNat)
  | _ => none

/-- What iomanX returns, does and writes depends on what it sees of the call; it writes to the
result, and to nothing else.  `wrote c w` are the bytes it writes, each at its place. -/
structure BufferLaws (io : IomanX σ) (sizes : Sizes) (wrote : Call → σ → ℕ → Option UInt8) :
    Prop where
  view : ∀ (c c' : Call) (w : σ), c.view sizes = c'.view sizes →
    (io c w).1.ret = (io c' w).1.ret ∧ (io c w).1.ret64 = (io c' w).1.ret64 ∧
      (io c w).2 = (io c' w).2 ∧ wrote c w = wrote c' w
  result : ∀ (c : Call) (w : σ) (buf : Mem) (n : ℕ), c.resultBuffer sizes = some (buf, n) →
    (io c w).1.mem.getD buf = buf.mapIdx fun i b => (wrote c w i).getD b
  within : ∀ (c : Call) (w : σ) (i : ℕ) (b : UInt8), wrote c w i = some b →
    ∃ buf n, c.resultBuffer sizes = some (buf, n) ∧ i < n

/-! ## 2. A client alone with the daemon -/

/-- The daemon, what is on the client's socket, and what the client copied to its result buffer. -/
structure Alone (σ : Type) where
  daemon : Daemon σ
  unread : List UInt8 := []
  out : Mem := []

/-- Client `p` runs a function.  `none` is a run that does not come to its end. -/
def runAlone (serve : Request → Daemon σ → Option (Daemon σ)) (p : CInt) :
    Prog → Alone σ → Option (ℤ × Alone σ)
  | .done ret, x => some (ret, x)
  | .outOfFuel, _ => none
  | .requireLock next, x => runAlone serve p next x
  | .releaseLock next, x => runAlone serve p next x
  | .copyIn bytes next, x =>
    runAlone serve p next { x with
      daemon := { x.daemon with shm := bytes ++ x.daemon.shm.drop bytes.length } }
  | .copyOut n next, x => runAlone serve p next { x with out := x.daemon.shm.take n }
  | .sendRequest req next, x =>
    (serve req x.daemon).bind fun s => runAlone serve p next { x with
      daemon := s
      unread := x.unread ++ (s.stream p).drop (x.daemon.stream p).length }
  | .receiveReply size next, x =>
    if x.unread = [] then none
    else runAlone serve p (next (x.unread.take size)) { x with unread := x.unread.drop size }

/-- What neither C nor the request determines. -/
structure Unspecified where
  order : ℕ → Bool
  rpcret : CInt
  junk : Junk

/-- What of it `event_handler_func` can see. -/
def Unspecified.choice (u : Unspecified) : Choice := ⟨u.rpcret, u.order 0⟩

/-- The daemon handles the bytes of a request. -/
def serveAlone (io : IomanX σ) (u : Unspecified) (pfd : ℕ) (req : Request) (s : Daemon σ) :
    Option (Daemon σ) :=
  (eventHandlerFuncIn io u.order pfd u.rpcret (req.received u.junk) s).map Prod.snd

/-! ## 3. The call a function stands for -/

/-- `own` is what the caller's result buffer holds. -/
def ClientCall.direct (t : Tables) (p : CInt) (own : Mem) : ClientCall → Option Call
  | .open name flags mode => some (.scepfsOpen (t.rpcRemapName name p) flags mode)
  | .lseek fd offset whence => some (.scepfsLseek (t.rpcRemapFd fd p) offset whence)
  | .lseek64 fd offset whence => some (.scepfsLseek64 (t.rpcRemapFd fd p) offset whence)
  | .read _ fd ptr size =>
    some (.scepfsRead (t.rpcRemapFd fd p) (if ptr then some own else none) (intOfSize size))
  | .write _ fd ptr size => some (.scepfsWrite (t.rpcRemapFd fd p) ptr (intOfSize size))
  | .close fd => some (.scepfsClose (t.rpcRemapFd fd p))
  | .dopen name => some (.scepfsDopen (t.rpcRemapName name p))
  | .dread fd ioxDirent =>
    some (.scepfsDread (t.rpcRemapFd fd p) (if ioxDirent then some own else none))
  | .dclose fd => some (.scepfsDclose (t.rpcRemapFd fd p))
  | .chstat name stat mask => some (.scepfsChstat (t.rpcRemapName name p) stat mask)
  | .getstat name stat =>
    some (.scepfsGetstat (t.rpcRemapName name p) (if stat then some own else none))
  | .mkdir name mode => some (.scepfsMkdir (t.rpcRemapName name p) mode)
  | .rmdir name => some (.scepfsRmdir (t.rpcRemapName name p))
  | .chdir name => some (.scepfsChdir (t.rpcRemapName name p))
  | .remove name => some (.scepfsRemove (t.rpcRemapName name p))
  | .rename old new => some (.scepfsRename (t.rpcRemapName old p) (t.rpcRemapName new p))
  | .ioctl fd cmd arg => some (.scepfsIoctl (t.rpcRemapFd fd p) cmd arg)
  | .ioctl2 fd command arg arglen buf buflen xfer =>
    -- the argument of `HIOCTRANSFER` is all that it takes
    if command = 0x6832 then some (.scepfsIoctl2Transfer (t.rpcRemapFd fd p) xfer)
    else some (.scepfsIoctl2 (t.rpcRemapFd fd p) command arg (intOfSize arglen)
      (if buf then some own else none) (intOfSize buflen))
  | .symlink old new => some (.scepfsSymlink (t.rpcRemapName old p) (t.rpcRemapName new p))
  | .readlink name buf buflen =>
    some (.scepfsReadlink (t.rpcRemapName name p) (if buf then some own else none)
      (intOfSize buflen))
  | .sync dev flag => some (.scepfsSync (t.rpcRemapName dev p) flag)
  | .devctl name cmd arg arglen buf buflen =>
    some (.scepfsDevctl (t.rpcRemapName name p) cmd arg (intOfSize arglen)
      (if buf then some own else none) (intOfSize buflen))
  | .getReadAhead => some .ioctlBlkraget
  -- `scepfsSetReadAhead` makes several calls; the others are not marshalled alone
  | .setReadAhead _ | .format .. | .mount .. | .umount _ | .getMountPoint .. => none

/-- The value of the call, as the function returns it. -/
def Call.value (c : Call) (r : Ret) : ℤ :=
  match c with
  | .scepfsLseek64 .. => r.ret64.toInt
  | _ => r.ret.toInt

/-- **The effect of the call**: the function returned `ret` and left `x`; iomanX was asked once,
for what it would have been asked directly, and the caller has what it returned and wrote. -/
def ClientCall.LikeDirect (io : IomanX σ) (sizes : Sizes) (wrote : Call → σ → ℕ → Option UInt8)
    (p : CInt) (own : Mem) (s : Daemon σ) (c : ClientCall) (ret : ℤ) (x : Alone σ) : Prop :=
  match c with
  | .setReadAhead enabled =>
    ret = (scepfsSetReadAhead io enabled p s).1.toInt ∧
      x.daemon.calls = (scepfsSetReadAhead io enabled p s).2.calls ∧
      x.daemon.world = (scepfsSetReadAhead io enabled p s).2.world
  | c => ∃ d made, c.direct s.toTables p own = some d ∧
      x.daemon.calls = s.calls ++ [⟨p, made, (io d s.world).1.ret⟩] ∧
      made.view sizes = d.view sizes ∧
      x.daemon.world = (io d s.world).2 ∧
      ret = d.value (io d s.world).1 ∧
      ∀ i b, wrote d s.world i = some b → x.out[i]? = some b

/-- The function has the effect of the call, whatever is not determined. -/
def Marshals (io : IomanX σ) (sizes : Sizes) (wrote : Call → σ → ℕ → Option UInt8) (pfd : ℕ)
    (s : Daemon σ) (c : ClientCall) : Prop :=
  ∀ (u : Unspecified) (own : Mem), ∃ ret x,
    runAlone (serveAlone io u pfd) (s.gConnectionPollfds pfd) (c.prog sizes) { daemon := s } =
      some (ret, x) ∧
    c.LikeDirect io sizes wrote (s.gConnectionPollfds pfd) own s ret x

/-! ## 4. Arguments -/

/-- A name under 1024 bytes. -/
def IsName (name : CStr) : Prop := name.length < 1024 ∧ 0 ∉ name

/-- A memory that is copied has what is copied of it. -/
def HasBytes (n : ℕ) (arg : Option Mem) : Prop := ∀ bytes ∈ arg, n ≤ bytes.length

/-- The functions that are marshalled, with names and buffers as the protocol has room for. -/
def ClientCall.Valid (sizes : Sizes) : ClientCall → Prop
  | .open name _ _ | .dopen name | .getstat name _ | .mkdir name _ | .rmdir name | .chdir name
  | .remove name | .sync name _ => IsName name
  | .lseek .. | .lseek64 .. | .close _ | .dclose _ | .setReadAhead _ | .getReadAhead => True
  | .read fuel _ _ size => fuel ≠ 0 ∧ size ≤ 0x20000
  | .write fuel _ ptr size => fuel ≠ 0 ∧ size ≤ 0x20000 ∧ HasBytes size.toNat ptr
  | .dread _ ioxDirent => ioxDirent = true
  | .chstat name stat _ => IsName name ∧ HasBytes sizes.ioxStat stat
  | .rename old new | .symlink old new => IsName old ∧ IsName new
  | .ioctl _ _ arg => HasBytes 1024 arg
  | .ioctl2 _ command arg arglen _ buflen xfer =>
    if command = 0x6832 then
      xfer.buffer.isSome ∧ xfer.size ≤ 0x100 ∧ HasBytes (xfer.size <<< 9).toNat xfer.buffer
    else arglen ≤ 0x20000 ∧ HasBytes arglen.toNat arg ∧ buflen ≤ 0x20000
  | .readlink name _ buflen => IsName name ∧ buflen ≤ 0x20000
  | .devctl name _ arg arglen _ buflen =>
    IsName name ∧ arglen ≤ 0x20000 ∧ HasBytes arglen.toNat arg ∧ buflen ≤ 0x20000
  | .format .. | .mount .. | .umount _ | .getMountPoint .. => False

/-- The shared memory is what the daemon created, and there is room in the open-file table. -/
structure Ready (sizes : Sizes) (s : Daemon σ) : Prop where
  sharedMemorySize : sizes.sharedMemorySize = 0x20000
  shm : s.shm.length = 0x20000
  ioxStat : sizes.ioxStat ≤ 0x20000
  ioxDirent : sizes.ioxDirent ≤ 0x20000
  openfiles : s.gOpenfileCount < 32
  cstrings : s.CStrings

/-! ## 5. The request of a call -/

/-- The request that the function sends. -/
def ClientCall.request : ClientCall → Request
  | .open name flags mode => .pfsdReqOpen name flags mode
  | .lseek fd offset whence => .pfsdReqLseek fd offset whence
  | .lseek64 fd offset whence => .pfsdReqLseek64 fd offset whence
  | .read _ fd ptr size => .pfsdReqRead fd (nonNull ptr) (intOfSize size)
  | .write _ fd ptr size => .pfsdReqWrite fd (nonNull ptr.isSome) (intOfSize size)
  | .close fd => .pfsdReqClose fd
  | .dopen name => .pfsdReqDopen name
  | .dread fd ioxDirent => .pfsdReqDread fd (nonNull ioxDirent)
  | .dclose fd => .pfsdReqDclose fd
  | .chstat name stat mask => .pfsdReqChstat name (nonNull stat.isSome) mask
  | .getstat name stat => .pfsdReqGetstat name (nonNull stat)
  | .mkdir name mode => .pfsdReqMkdir name mode
  | .rmdir name => .pfsdReqRmdir name
  | .chdir name => .pfsdReqChdir name
  | .remove name => .pfsdReqRemove name
  | .rename old new => .pfsdReqRename old new
  | .ioctl fd cmd arg => .pfsdReqIoctl fd cmd (nonNull arg.isSome)
  | .ioctl2 fd command arg arglen buf buflen xfer =>
    if command = 0x6832 then
      .pfsdReqIoctl2Hioctransfer fd xfer.sub xfer.sector xfer.size xfer.mode
        (nonNull xfer.buffer.isSome)
    else
      .pfsdReqIoctl2 fd command (nonNull arg.isSome) (intOfSize arglen) (nonNull buf)
        (intOfSize buflen)
  | .symlink old new => .pfsdReqSymlink old new
  | .readlink name buf buflen => .pfsdReqReadlink name (nonNull buf) (intOfSize buflen)
  | .sync dev flag => .pfsdReqSync dev flag
  | .format dev blockdev arg arglen =>
    .pfsdReqFormat dev blockdev (nonNull arg.isSome) (intOfSize arglen)
  | .mount fsname devname flag arg arglen =>
    .pfsdReqMount fsname devname flag (nonNull arg.isSome) (intOfSize arglen)
  | .umount fsname => .pfsdReqUmount fsname
  | .devctl name cmd arg arglen buf buflen =>
    .pfsdReqDevctl name cmd (nonNull arg.isSome) (intOfSize arglen) (nonNull buf)
      (intOfSize buflen)
  | .setReadAhead enabled => .pfsdReqSetreadahead enabled
  | .getReadAhead => .pfsdReqGetreadahead
  | .getMountPoint inOldmap _ => .pfsdReqGetmountpoint inOldmap

/-- What is copied to the shared memory before it is sent. -/
def ClientCall.argument (sizes : Sizes) : ClientCall → Option Mem
  | .write _ _ ptr size => ptr.map (List.take (intOfSize size).toNatClampNeg)
  | .chstat _ stat _ => stat.map (List.take sizes.ioxStat)
  | .ioctl _ _ arg => arg.map (List.take 1024)
  | .ioctl2 _ command arg arglen _ _ xfer =>
    if command = 0x6832 then xfer.buffer.map (List.take (xfer.size <<< 9).toNat)
    else argBytes arg arglen
  | .devctl _ _ arg arglen _ _ => argBytes arg arglen
  | _ => none

/-- Whether something is copied from it afterwards, and how much. -/
def ClientCall.copied (sizes : Sizes) : ClientCall → Bool × ℕ
  | .read _ _ ptr size => (ptr, (intOfSize size).toNatClampNeg)
  | .dread .. => (true, sizes.ioxDirent)
  | .getstat _ stat => (stat, sizes.ioxStat)
  | .ioctl2 _ command _ _ buf buflen xfer =>
    if command = 0x6832 then (true, (xfer.size <<< 9).toNat)
    else (buf && buflen != 0, buflen.toNat)
  | .readlink _ buf buflen | .devctl _ _ _ _ buf buflen => (buf && buflen != 0, buflen.toNat)
  | _ => (false, 0)

/-- The function is one exchange. -/
theorem ClientCall.prog_eq {sizes : Sizes} (hsize : sizes.sharedMemorySize = 0x20000)
    {c : ClientCall} (hc : c.Valid sizes)
    (h64 : ∀ fd offset whence, c ≠ .lseek64 fd offset whence) :
    c.prog sizes =
      exchange (c.argument sizes) c.request (c.copied sizes).1 (c.copied sizes).2 := by
  cases c with
  | lseek64 fd offset whence => exact absurd rfl (h64 fd offset whence)
  | read fuel fd ptr size =>
    obtain ⟨fuel, rfl⟩ := Nat.exists_eq_succ_of_ne_zero hc.1
    have hsub : size - sizeOfInt 0 = size := UInt64.sub_zero size
    have hle : ¬ sizes.sharedMemorySize < size := by
      rw [hsize, UInt64.not_lt]
      exact hc.2
    simp only [prog, scepfsdRead, scepfsdReadFrom, hsub, if_neg hle, Int32.add_zero]
    rfl
  | write fuel fd ptr size =>
    obtain ⟨fuel, rfl⟩ := Nat.exists_eq_succ_of_ne_zero hc.1
    have hsub : size - sizeOfInt 0 = size := UInt64.sub_zero size
    have hle : ¬ sizes.sharedMemorySize < size := by
      rw [hsize, UInt64.not_lt]
      exact hc.2.1
    simp only [prog, scepfsdWrite, scepfsdWriteFrom, hsub, if_neg hle, Int32.add_zero]
    rfl
  | ioctl2 fd command arg arglen buf buflen xfer =>
    by_cases hcommand : command = 0x6832
    · simp only [Valid, if_pos hcommand] at hc
      have hok : ¬ (xfer.buffer = none ∨ 0x100 < xfer.size) := by
        rintro (hnone | hlt)
        · rw [hnone] at hc
          exact absurd hc.1 (by decide)
        · exact absurd hlt (UInt32.not_lt.mpr hc.2.1)
      simp only [prog, scepfsdIoctl2, argument, request, copied, if_pos hcommand, if_neg hok]
    · simp only [prog, scepfsdIoctl2, argument, request, copied, if_neg hcommand]
  | format _ _ _ _ | mount _ _ _ _ _ | umount _ | getMountPoint _ _ => exact hc.elim
  | _ => rfl

/-! ## 6. The call of a request -/

/-- The call that the dispatch makes for a request of client `p`, when nothing goes wrong. -/
def Request.call (s : Daemon σ) (p : CInt) : Request → Option Call
  | .pfsdReqOpen name flags mode => some (.scepfsOpen (s.rpcRemapName name p) flags mode)
  | .pfsdReqLseek fd offset whence => some (.scepfsLseek (s.rpcRemapFd fd p) offset whence)
  | .pfsdReqLseek64 fd offset whence => some (.scepfsLseek64 (s.rpcRemapFd fd p) offset whence)
  | .pfsdReqRead fd useshm size =>
    some (.scepfsRead (s.rpcRemapFd fd p) (shmPtr useshm s) size)
  | .pfsdReqWrite fd useshm size =>
    some (.scepfsWrite (s.rpcRemapFd fd p) (shmPtr useshm s) size)
  | .pfsdReqClose fd => some (.scepfsClose (s.rpcRemapFd fd p))
  | .pfsdReqDopen name => some (.scepfsDopen (s.rpcRemapName name p))
  | .pfsdReqDread fd useshm => some (.scepfsDread (s.rpcRemapFd fd p) (shmPtr useshm s))
  | .pfsdReqDclose fd => some (.scepfsDclose (s.rpcRemapFd fd p))
  | .pfsdReqChstat name useshm mask =>
    some (.scepfsChstat (s.rpcRemapName name p) (shmPtr useshm s) mask)
  | .pfsdReqGetstat name useshm =>
    some (.scepfsGetstat (s.rpcRemapName name p) (shmPtr useshm s))
  | .pfsdReqMkdir name mode => some (.scepfsMkdir (s.rpcRemapName name p) mode)
  | .pfsdReqRmdir name => some (.scepfsRmdir (s.rpcRemapName name p))
  | .pfsdReqChdir name => some (.scepfsChdir (s.rpcRemapName name p))
  | .pfsdReqRemove name => some (.scepfsRemove (s.rpcRemapName name p))
  | .pfsdReqRename old new =>
    some (.scepfsRename (s.rpcRemapName old p) (s.rpcRemapName new p))
  | .pfsdReqIoctl fd cmd useshm =>
    some (.scepfsIoctl (s.rpcRemapFd fd p) cmd (shmPtr useshm s))
  | .pfsdReqIoctl2 fd cmd arg arglen buf buflen =>
    some (.scepfsIoctl2 (s.rpcRemapFd fd p) cmd (shmPtr arg s) arglen (shmPtr buf s) buflen)
  | .pfsdReqSymlink old new =>
    some (.scepfsSymlink (s.rpcRemapName old p) (s.rpcRemapName new p))
  | .pfsdReqReadlink name buf buflen =>
    some (.scepfsReadlink (s.rpcRemapName name p) (shmPtr buf s) buflen)
  | .pfsdReqSync dev flag => some (.scepfsSync (s.rpcRemapName dev p) flag)
  | .pfsdReqDevctl name cmd arg arglen buf buflen =>
    some (.scepfsDevctl (s.rpcRemapName name p) cmd (shmPtr arg s) arglen (shmPtr buf s) buflen)
  | .pfsdReqGetreadahead => some .ioctlBlkraget
  | .pfsdReqIoctl2Hioctransfer fd sub sector size mode useshm =>
    some (.scepfsIoctl2Transfer (s.rpcRemapFd fd p) ⟨sub, sector, size, mode, shmPtr useshm s⟩)
  | .pfsdReqSetreadahead _ | .pfsdReqFormat .. | .pfsdReqMount .. | .pfsdReqUmount _
  | .pfsdReqGetmountpoint _ | .unknown _ => none

/-- The reply with what a call returned. -/
def Call.reply (c : Call) (r : Ret) : List UInt8 :=
  match c with
  | .scepfsLseek64 .. => int64Bytes r.ret64
  | _ => int32Bytes r.ret

/-- A call that is given memory for its result is given the shared memory. -/
def Call.OnShm (sizes : Sizes) (s : Daemon σ) (c : Call) : Prop :=
  ∀ buf n, c.resultBuffer sizes = some (buf, n) → c.usesShm = true ∧ buf = s.shm

/-- The daemon made the call for client `p`, and replied. -/
structure Made (io : IomanX σ) (sizes : Sizes) (p : CInt) (c : Call) (s s' : Daemon σ) : Prop where
  calls : s'.calls = s.calls ++ [⟨p, c, (io c s.world).1.ret⟩]
  world : s'.world = (io c s.world).2
  shm : s'.shm = if c.usesShm then (io c s.world).1.mem.getD s.shm else s.shm
  sent : s'.sent = s.sent ++ [(p, c.reply (io c s.world).1)]
  onShm : c.OnShm sizes s

section Made

variable {io : IomanX σ} {sizes : Sizes} {s : Daemon σ} {p : CInt}

theorem onShm_map {v : CInt} {k : ℕ} {buf : Mem} {n : ℕ}
    (h : ((shmPtr v s).map fun b => (b, k)) = some (buf, n)) :
    (shmPtr v s).isSome = true ∧ buf = s.shm := by
  unfold shmPtr at *
  split at h
  · rename_i hv
    rw [if_pos hv]
    simp only [Option.map_some, Option.some.injEq, Prod.mk.injEq] at h
    exact ⟨rfl, h.1.symm⟩
  · cases h

/-- Every call of the dispatch has its result in the shared memory. -/
theorem Request.onShm {req : Request} {c : Call} (h : req.call s p = some c) :
    c.OnShm sizes s := by
  intro buf n hbuf
  cases req <;> cases h <;> first | cases hbuf | exact onShm_map hbuf

theorem made_broke {c : Call} (hc : c.OnShm sizes s) (hreply : ∀ r, c.reply r = int32Bytes r.ret) :
    Made io sizes p c s (broke p (call io p c s)).2 where
  calls := rfl
  world := rfl
  shm := rfl
  sent := by
    rw [hreply]
    rfl
  onShm := hc

theorem made_openCommon (mk : CStr → Call) {name : CStr}
    (hc : (mk (s.rpcRemapName name p)).OnShm sizes s)
    (hreply : ∀ n r, (mk n).reply r = int32Bytes r.ret) (hopen : s.gOpenfileCount < 32) :
    Made io sizes p (mk (s.rpcRemapName name p)) s (openCommon io mk name p s).2 := by
  simp only [openCommon, if_pos hopen]
  split
  · exact ⟨rfl, rfl, rfl, by rw [hreply]; rfl, hc⟩
  · exact ⟨rfl, rfl, rfl, by rw [hreply]; rfl, hc⟩

theorem made_closeCommon {mk : CInt → Call} {fd : CInt}
    (hc : (mk (s.rpcRemapFd fd p)).OnShm sizes s)
    (hreply : ∀ f r, (mk f).reply r = int32Bytes r.ret) :
    Made io sizes p (mk (s.rpcRemapFd fd p)) s (closeCommon io mk fd p s).2 := by
  simp only [closeCommon]
  split
  · exact ⟨rfl, rfl, rfl, by rw [hreply]; rfl, hc⟩
  · exact ⟨rfl, rfl, rfl, by rw [hreply]; rfl, hc⟩

/-- **One request, one call**, for the requests that have not two names to translate. -/
theorem eventHandlerFunc_made {pfd : ℕ} {choice : Choice} {req : Request} {c : Call}
    (hone : ∀ old new mk, ¬ PairCall req old new mk)
    (h : req.call s (s.gConnectionPollfds pfd) = some c) (hopen : s.gOpenfileCount < 32) :
    Made io sizes (s.gConnectionPollfds pfd) c s
      (eventHandlerFunc io pfd choice (some req) s).2 := by
  have hc : c.OnShm sizes s := Request.onShm h
  cases req with
  | pfsdReqRename old new => exact absurd (.rename old new) (hone old new _)
  | pfsdReqSymlink old new => exact absurd (.symlink old new) (hone old new _)
  | pfsdReqOpen name flags mode =>
    cases h
    exact made_openCommon (fun n => .scepfsOpen n flags mode) hc (fun _ _ => rfl) hopen
  | pfsdReqDopen name =>
    cases h
    exact made_openCommon .scepfsDopen hc (fun _ _ => rfl) hopen
  | pfsdReqClose fd =>
    cases h
    exact made_closeCommon hc fun _ _ => rfl
  | pfsdReqDclose fd =>
    cases h
    exact made_closeCommon hc fun _ _ => rfl
  | pfsdReqLseek64 fd offset whence =>
    cases h
    exact ⟨rfl, rfl, rfl, rfl, hc⟩
  | _ =>
    cases h
    try exact made_broke hc fun _ => rfl

end Made

/-! ## 7. The call of a function -/

/-- The daemon after the client has copied its argument to the shared memory. -/
def Daemon.copyIn (s : Daemon σ) : Option Mem → Daemon σ
  | some bytes => { s with shm := bytes ++ s.shm.drop bytes.length }
  | none => s

section CopyIn

variable {s : Daemon σ} {sizes : Sizes} {p : CInt}

@[simp] theorem toTables_copyIn (arg : Option Mem) : (s.copyIn arg).toTables = s.toTables := by
  cases arg <;> rfl

@[simp] theorem toConns_copyIn (arg : Option Mem) : (s.copyIn arg).toConns = s.toConns := by
  cases arg <;> rfl

@[simp] theorem world_copyIn (arg : Option Mem) : (s.copyIn arg).world = s.world := by
  cases arg <;> rfl

@[simp] theorem calls_copyIn (arg : Option Mem) : (s.copyIn arg).calls = s.calls := by
  cases arg <;> rfl

@[simp] theorem sent_copyIn (arg : Option Mem) : (s.copyIn arg).sent = s.sent := by
  cases arg <;> rfl

/-- An argument that fits does not change the size of the shared memory. -/
theorem length_shm_copyIn {arg : Option Mem} (h : ∀ bytes ∈ arg, bytes.length ≤ s.shm.length) :
    (s.copyIn arg).shm.length = s.shm.length := by
  cases arg with
  | none => rfl
  | some bytes =>
    have hle := h bytes rfl
    simp only [Daemon.copyIn, List.length_append, List.length_drop]
    omega

/-- The daemon passes on the argument, `NULL` where it was `NULL`. -/
theorem argument_passed {arg : Option Mem} {k : ℕ} (h : HasBytes k arg) :
    (shmPtr (nonNull arg.isSome) (s.copyIn (arg.map (List.take k)))).map (List.take k) =
      arg.map (List.take k) := by
  cases arg with
  | none => rfl
  | some bytes =>
    have hlen : (bytes.take k).length = k := List.length_take_of_le (h bytes rfl)
    simp [shmPtr, nonNull, Daemon.copyIn, hlen]

theorem argBytes_passed {arg : Option Mem} {len : UInt64} (h : HasBytes len.toNat arg) :
    (shmPtr (nonNull arg.isSome) (s.copyIn (argBytes arg len))).map (List.take len.toNat) =
      arg.map (List.take len.toNat) := by
  by_cases hlen : len = 0
  · subst hlen
    cases arg <;> rfl
  · rw [argBytes, if_neg hlen, argument_passed h]

/-- The daemon gives a buffer where the caller did. -/
theorem buffer_passed (buf : Bool) (own : Mem) :
    (shmPtr (nonNull buf) s).map (fun _ => ([] : Mem)) =
      (if buf then some own else none).map fun _ => [] := by
  cases buf <;> rfl

/-- The length of a buffer, as an `int`. -/
theorem toNatClampNeg_intOfSize {n : UInt64} (h : n ≤ 0x20000) :
    (intOfSize n).toNatClampNeg = n.toNat := by
  have hle : n.toNat ≤ 0x20000 := UInt64.le_iff_toNat_le.mp h
  have hint : (intOfSize n).toInt = n.toNat := toInt_intOfSize (by omega)
  rw [Int32.toNatClampNeg, hint, Int.toNat_natCast]

/-- **The request of a function stands for its call.** -/
theorem ClientCall.call_request {c : ClientCall} (hc : c.Valid sizes) {own : Mem} {d : Call}
    (hd : c.direct s.toTables p own = some d) :
    ∃ made, c.request.call (s.copyIn (c.argument sizes)) p = some made ∧
      made.view sizes = d.view sizes := by
  cases c with
  | setReadAhead _ => cases hd
  | format _ _ _ _ | mount _ _ _ _ _ | umount _ | getMountPoint _ _ => exact hc.elim
  | write fuel fd ptr size =>
    cases hd
    have hlen := toNatClampNeg_intOfSize hc.2.1
    refine ⟨_, rfl, ?_⟩
    simp only [Call.view, argument, toTables_copyIn, hlen, argument_passed hc.2.2]
  | chstat name stat mask =>
    cases hd
    refine ⟨_, rfl, ?_⟩
    simp only [Call.view, argument, toTables_copyIn, argument_passed hc.2]
  | ioctl fd cmd arg =>
    cases hd
    refine ⟨_, rfl, ?_⟩
    have hc' : HasBytes 1024 arg := hc
    simp only [Call.view, argument, toTables_copyIn, argument_passed hc']
  | ioctl2 fd command arg arglen buf buflen xfer =>
    by_cases hcommand : command = 0x6832
    · simp only [Valid, if_pos hcommand] at hc
      simp only [direct, if_pos hcommand, Option.some.injEq] at hd
      subst hd
      simp only [request, argument, if_pos hcommand]
      refine ⟨_, rfl, ?_⟩
      simp only [Call.view, toTables_copyIn, argument_passed hc.2.2]
    · simp only [Valid, if_neg hcommand] at hc
      simp only [direct, if_neg hcommand, Option.some.injEq] at hd
      subst hd
      simp only [request, argument, if_neg hcommand]
      refine ⟨_, rfl, ?_⟩
      have hlen := toNatClampNeg_intOfSize hc.1
      simp only [Call.view, toTables_copyIn, hlen, argBytes_passed hc.2.1, buffer_passed buf own]
  | devctl name cmd arg arglen buf buflen =>
    cases hd
    refine ⟨_, rfl, ?_⟩
    have hlen := toNatClampNeg_intOfSize hc.2.1
    simp only [Call.view, argument, toTables_copyIn, hlen, argBytes_passed hc.2.2.1,
      buffer_passed buf own]
  | read _ _ buf _ | dread _ buf | getstat _ buf | readlink _ buf _ =>
    cases hd
    refine ⟨_, rfl, ?_⟩
    simp only [Call.view, argument, Daemon.copyIn, buffer_passed buf own]
  | _ =>
    cases hd
    exact ⟨_, rfl, rfl⟩

end CopyIn

/-! ## 8. What the translation goes over -/

/-- The `int` that lies `i` places behind the name keeps its value under the translation
`name'`. -/
def KeepsInt (name' : CStr) (i : ℕ) (v : CInt) : Prop := spilled (name' ++ [0]) (1024 + 4 * i) v = v

/-- The flag that lies there keeps its meaning. -/
def KeepsFlag (name' : CStr) (i : ℕ) (v : CInt) : Prop :=
  spilled (name' ++ [0]) (1024 + 4 * i) v ≠ 0 ↔ v ≠ 0

/-- The translations stay within the memory that they are written to, and leave what the request
says as it is.  A name of at most 1023 bytes leaves everything (`undisturbed_of_short`). -/
def Request.Undisturbed (t : Tables) (p : CInt) : Request → Prop
  | .pfsdReqOpen name _ _ | .pfsdReqDopen name => (t.rpcRemapName name p).length < 1200
  | .pfsdReqRmdir name | .pfsdReqChdir name | .pfsdReqRemove name =>
    (t.rpcRemapName name p).length < opuSize
  | .pfsdReqMkdir name v | .pfsdReqSync name v =>
    (t.rpcRemapName name p).length < opuSize ∧ KeepsInt (t.rpcRemapName name p) 0 v
  | .pfsdReqGetstat name useshm =>
    (t.rpcRemapName name p).length < opuSize ∧ KeepsFlag (t.rpcRemapName name p) 0 useshm
  | .pfsdReqChstat name useshm v | .pfsdReqReadlink name useshm v =>
    (t.rpcRemapName name p).length < opuSize ∧
      KeepsFlag (t.rpcRemapName name p) 0 useshm ∧ KeepsInt (t.rpcRemapName name p) 1 v
  | .pfsdReqDevctl name cmd arg arglen buf buflen =>
    (t.rpcRemapName name p).length < opuSize ∧
      KeepsInt (t.rpcRemapName name p) 0 cmd ∧ KeepsFlag (t.rpcRemapName name p) 1 arg ∧
      KeepsInt (t.rpcRemapName name p) 2 arglen ∧ KeepsFlag (t.rpcRemapName name p) 3 buf ∧
      KeepsInt (t.rpcRemapName name p) 4 buflen
  | .pfsdReqRename old new | .pfsdReqSymlink old new =>
    (t.rpcRemapName old p).length < opuSize ∧ 1024 + (t.rpcRemapName new p).length < opuSize ∧
      -- the end of the first translation is the second one, and is translated to itself
      ((t.rpcRemapName old p).length < 1024 ∨
        (t.rpcRemapName old p).drop 1024 = t.rpcRemapName new p ∧
          t.rpcRemapName (t.rpcRemapName new p) p = t.rpcRemapName new p)
  | _ => True

section Spilled

variable {io : IomanX σ} {sizes : Sizes} {s : Daemon σ} {name' : CStr}

/-- The `int` as C reads it. -/
def readBehind (u : Unspecified) (name' : CStr) (i : ℕ) (v : CInt) : CInt :=
  if u.order i then spilled (name' ++ [0]) (1024 + 4 * i) v else v

/-- Everything is read after the translation. -/
def allLate : Unspecified := ⟨fun _ => true, 0, {}⟩

theorem keepsInt_iff {i : ℕ} {v : CInt} :
    KeepsInt name' i v ↔ ∀ u, readBehind u name' i v = v := by
  constructor
  · intro h u
    unfold readBehind
    split
    · exact h
    · rfl
  · exact fun h => h allLate

theorem keepsFlag_iff {i : ℕ} {v : CInt} :
    KeepsFlag name' i v ↔ ∀ u, readBehind u name' i v ≠ 0 ↔ v ≠ 0 := by
  constructor
  · intro h u
    unfold readBehind
    split
    · exact h
    · exact Iff.rfl
  · exact fun h => h allLate

theorem shmPtr_map_eq_iff {v v' : CInt} {f g : Mem → Mem} (hfg : f s.shm = g s.shm) :
    (shmPtr v s).map f = (shmPtr v' s).map g ↔ (v ≠ 0 ↔ v' ≠ 0) := by
  unfold shmPtr
  by_cases hv : v = 0 <;> by_cases hv' : v' = 0 <;> simp [hv, hv', hfg]

theorem view_scepfsGetstat_iff {v v' : CInt} :
    (Call.scepfsGetstat name' (shmPtr v s)).view sizes =
      (Call.scepfsGetstat name' (shmPtr v' s)).view sizes ↔ (v ≠ 0 ↔ v' ≠ 0) := by
  simp only [Call.view, Call.scepfsGetstat.injEq, true_and]
  exact shmPtr_map_eq_iff rfl

theorem view_scepfsChstat_iff {v v' w w' : CInt} :
    (Call.scepfsChstat name' (shmPtr v s) w).view sizes =
      (Call.scepfsChstat name' (shmPtr v' s) w').view sizes ↔ (v ≠ 0 ↔ v' ≠ 0) ∧ w = w' := by
  simp only [Call.view, Call.scepfsChstat.injEq, true_and]
  rw [shmPtr_map_eq_iff rfl]

theorem view_scepfsReadlink_iff {v v' w w' : CInt} :
    (Call.scepfsReadlink name' (shmPtr v s) w).view sizes =
      (Call.scepfsReadlink name' (shmPtr v' s) w').view sizes ↔ (v ≠ 0 ↔ v' ≠ 0) ∧ w = w' := by
  simp only [Call.view, Call.scepfsReadlink.injEq, true_and]
  rw [shmPtr_map_eq_iff rfl]

theorem view_scepfsDevctl_iff {c c' a a' k k' b b' l l' : CInt} :
    (Call.scepfsDevctl name' c (shmPtr a s) k (shmPtr b s) l).view sizes =
        (Call.scepfsDevctl name' c' (shmPtr a' s) k' (shmPtr b' s) l').view sizes ↔
      c = c' ∧ (a ≠ 0 ↔ a' ≠ 0) ∧ k = k' ∧ (b ≠ 0 ↔ b' ≠ 0) ∧ l = l' := by
  simp only [Call.view, Call.scepfsDevctl.injEq, true_and]
  constructor
  · rintro ⟨hc, ha, rfl, hb, hl⟩
    exact ⟨hc, (shmPtr_map_eq_iff rfl).mp ha, rfl, (shmPtr_map_eq_iff rfl).mp hb, hl⟩
  · rintro ⟨hc, ha, rfl, hb, hl⟩
    exact ⟨hc, (shmPtr_map_eq_iff rfl).mpr ha, rfl, (shmPtr_map_eq_iff rfl).mpr hb, hl⟩

end Spilled

/-! ## 9. One request -/

/-- The daemon answers the request by one call, in which iomanX sees `c`. -/
def Request.Served (io : IomanX σ) (sizes : Sizes) (pfd : ℕ) (s : Daemon σ) (c : Call)
    (req : Request) : Prop :=
  ∀ u, ∃ made s', serveAlone io u pfd req s = some s' ∧
    Made io sizes (s.gConnectionPollfds pfd) made s s' ∧ made.view sizes = c.view sizes

section Served

variable {io : IomanX σ} {sizes : Sizes} {pfd : ℕ} {s : Daemon σ} {req : Request} {c : Call}

theorem Made.unique {p : CInt} {made made' : Call} {s' : Daemon σ}
    (h : Made io sizes p made s s') (h' : Made io sizes p made' s s') : made = made' := by
  have hcalls := List.append_cancel_left (h.calls.symm.trans h'.calls)
  simp only [List.cons.injEq, CallRecord.mk.injEq] at hcalls
  exact hcalls.1.2.1

/-- A request that the handlers of `Rpc.lean` answer as they stand. -/
theorem served_of_typed (hready : s.gOpenfileCount < 32)
    (hone : ∀ old new mk, ¬ PairCall req old new mk)
    (hserve : ∀ u, serveAlone io u pfd req s =
      some (eventHandlerFunc io pfd u.choice (some req) s).2)
    (hcall : req.call s (s.gConnectionPollfds pfd) = some c) : req.Served io sizes pfd s c :=
  fun u => ⟨c, _, hserve u, eventHandlerFunc_made hone hcall hready, rfl⟩

theorem name_received (hr : req.Fits) {name : CStr} {o : ℕ} (h : nameField o name ∈ req.fields)
    (junk : Junk) : window (receivedOpu (req.received junk)) o (name ++ [0]).length = name ++ [0] :=
  laid_receivedOpu junk hr _ h

/-- An `int` behind the name, as C reads it. -/
theorem readBehind_received (hr : req.Fits) (i : ℕ) (v : CInt)
    (h : intField (1024 + 4 * i) v ∈ req.fields) (name' : CStr) (u : Unspecified) :
    Packet.int (if u.order i then overlay (receivedOpu (req.received u.junk)) 0 (name' ++ [0])
      else receivedOpu (req.received u.junk)) (1024 + 4 * i) = readBehind u name' i v := by
  have hv : (receivedOpu (req.received u.junk)).int (1024 + 4 * i) = v :=
    int_eq_iff.mpr (laid_receivedOpu u.junk hr _ h)
  unfold readBehind
  split
  · exact int_overlay hv _
  · exact hv

variable (sizes c) in
/-- An arm that makes one call, or goes behind the end of the union. -/
theorem served_ite_iff {p : CInt} {r : Option (Option ℤ × Daemon σ)} {P : Prop} [Decidable P]
    {made : Call} (hr : r = if P then some (broke p (call io p made s)) else none)
    (hmade : made.OnShm sizes s) (hreply : ∀ r, made.reply r = int32Bytes r.ret) :
    (∃ made' s', r.map Prod.snd = some s' ∧ Made io sizes p made' s s' ∧
      made'.view sizes = c.view sizes) ↔ P ∧ made.view sizes = c.view sizes := by
  by_cases hP : P
  · rw [hr, if_pos hP, Option.map_some]
    constructor
    · rintro ⟨made', s', hs', hmade', hview⟩
      rw [Option.some.injEq] at hs'
      subst hs'
      rw [← hview, (made_broke hmade hreply).unique hmade']
      exact ⟨hP, rfl⟩
    · exact fun h => ⟨made, _, rfl, made_broke hmade hreply, h.2⟩
  · rw [hr, if_neg hP]
    constructor
    · rintro ⟨made', s', hs', -⟩
      cases hs'
    · exact fun h => absurd h.1 hP

/-- A request whose name is translated in the packet. -/
theorem served_translated_iff (hs : s.CStrings) (hr : req.Fits) {name : CStr}
    {mk : CStr → (ℕ → CInt) → Call} (hname : name ∈ req.names)
    (hfield : nameField 0 name ∈ req.fields)
    (hserve : ∀ u, serveAlone io u pfd req s = (translated io u.order mk (s.gConnectionPollfds pfd)
      (receivedOpu (req.received u.junk)) s).map Prod.snd)
    (hmk : ∀ n v, (mk n v).OnShm sizes s)
    (hreply : ∀ n v r, (mk n v).reply r = int32Bytes r.ret) :
    req.Served io sizes pfd s c ↔
      (s.rpcRemapName name (s.gConnectionPollfds pfd)).length < opuSize ∧
      ∀ u : Unspecified, (mk (s.rpcRemapName name (s.gConnectionPollfds pfd)) fun i =>
        Packet.int (if u.order i then
            overlay (receivedOpu (req.received u.junk)) 0
              (s.rpcRemapName name (s.gConnectionPollfds pfd) ++ [0])
          else receivedOpu (req.received u.junk)) (1024 + 4 * i)).view sizes = c.view sizes := by
  have hone := fun u : Unspecified => served_ite_iff sizes c
    (translated_eq io u.order mk (s.gConnectionPollfds pfd) hs (hr name hname)
      (name_received hr hfield u.junk)) (hmk _ _) (hreply _ _)
  simp only [Request.Served, hserve, hone]
  exact ⟨fun h => ⟨(h allLate).1, fun u => (h u).2⟩, fun h u => ⟨h.1, h.2 u⟩⟩

/-- A request whose two names are. -/
theorem served_translatedBoth_iff (hs : s.CStrings) (hr : req.Fits) {old new : CStr}
    {mk : CStr → CStr → Call} (hnames : req.names = [old, new])
    (hfields : req.fields = [nameField 0 old, nameField 1024 new])
    (hserve : ∀ u, serveAlone io u pfd req s =
      (translatedBoth io u.order mk (s.gConnectionPollfds pfd)
        (receivedOpu (req.received u.junk)) s).map Prod.snd)
    (hmk : ∀ n n', (mk n n').OnShm sizes s)
    (hreply : ∀ n n' r, (mk n n').reply r = int32Bytes r.ret)
    (hview : ∀ n₁ n₂ n₁' n₂', (mk n₁ n₂).view sizes = (mk n₁' n₂').view sizes ↔
      n₁ = n₁' ∧ n₂ = n₂') :
    req.Served io sizes pfd s (mk (s.rpcRemapName old (s.gConnectionPollfds pfd))
        (s.rpcRemapName new (s.gConnectionPollfds pfd))) ↔
      (s.rpcRemapName old (s.gConnectionPollfds pfd)).length < opuSize ∧
      1024 + (s.rpcRemapName new (s.gConnectionPollfds pfd)).length < opuSize ∧
      ((s.rpcRemapName old (s.gConnectionPollfds pfd)).length < 1024 ∨
        (s.rpcRemapName old (s.gConnectionPollfds pfd)).drop 1024 =
            s.rpcRemapName new (s.gConnectionPollfds pfd) ∧
          s.rpcRemapName (s.rpcRemapName new (s.gConnectionPollfds pfd))
            (s.gConnectionPollfds pfd) = s.rpcRemapName new (s.gConnectionPollfds pfd)) := by
  have hold : old.length < 1024 ∧ 0 ∉ old := hr old (by simp [hnames])
  have hnew : new.length < 1024 ∧ 0 ∉ new := hr new (by simp [hnames])
  have hmemold : nameField 0 old ∈ req.fields := by simp [hfields]
  have hmemnew : nameField 1024 new ∈ req.fields := by simp [hfields]
  have hmold := fun u : Unspecified => name_received hr hmemold u.junk
  have hmnew := fun u : Unspecified => name_received hr hmemnew u.junk
  generalize hp : s.gConnectionPollfds pfd = p at *
  have hfirst := fun (u : Unspecified) (hu : u.order 0 = true) =>
    served_ite_iff sizes (mk (s.rpcRemapName old p) (s.rpcRemapName new p))
      (translatedBoth_first io mk p hs hold hnew (hmold u) (hmnew u) hu)
      (hmk _ _) (hreply _ _)
  have hsecond := fun (u : Unspecified) (hu : u.order 0 = false) =>
    served_ite_iff sizes (mk (s.rpcRemapName old p) (s.rpcRemapName new p))
      (translatedBoth_second io mk p hs hold hnew (hmold u) (hmnew u) hu)
      (hmk _ _) (hreply _ _)
  simp only [Request.Served, hserve, hp]
  simp only [hview] at hfirst hsecond
  generalize hold' : s.rpcRemapName old p = old' at *
  generalize hnew' : s.rpcRemapName new p = new' at *
  constructor
  · intro h
    obtain ⟨⟨hlt, hlt'⟩, -, hsame⟩ := (hsecond ⟨fun _ => false, 0, {}⟩ rfl).mp (h _)
    obtain ⟨-, -, htwice⟩ := (hfirst allLate rfl).mp (h _)
    refine ⟨hlt, hlt', ?_⟩
    by_cases hshort : old'.length < 1024
    · exact .inl hshort
    · simp only [secondName, if_neg hshort] at hsame htwice
      rw [hsame] at htwice
      exact .inr ⟨hsame, htwice⟩
  · rintro ⟨hlt, hlt', hend⟩ u
    have hsame : secondName old' new' = new' := by
      unfold secondName
      split
      · rfl
      · rename_i hge
        exact (hend.resolve_left hge).1
    have htwice : s.rpcRemapName (secondName old' new) p = new' := by
      unfold secondName
      split
      · exact hnew'
      · rename_i hge
        rw [(hend.resolve_left hge).1, (hend.resolve_left hge).2]
    have hwhole : firstName old' new' = old' := by
      unfold firstName
      split
      · rfl
      · rename_i hge
        rw [← (hend.resolve_left hge).1, List.take_append_drop]
    cases hu : u.order 0 with
    | true =>
      refine (hfirst u hu).mpr ?_
      rw [htwice, hwhole]
      exact ⟨⟨hlt, hlt'⟩, rfl, rfl⟩
    | false =>
      refine (hsecond u hu).mpr ?_
      rw [hsame]
      exact ⟨⟨hlt, hlt'⟩, trivial, rfl⟩

theorem nameBufHolds_iff (hopen : s.gOpenfileCount < 32) {name : CStr}
    (hname : name.length < 1024 ∧ 0 ∉ name) (p : CInt) :
    nameBufHolds name p s = true ↔ (s.rpcRemapName name p).length < 1200 := by
  have hlt : name.length < 1200 := by
    have := hname.1
    omega
  have heq := rpcRemapNameIn_eq (t := s.toTables) hname.2
    (window_overlay_self (fun _ => 0) 0 (name ++ [0])) (by simpa using hlt) p
  simp only [Nat.zero_add] at heq
  simp only [nameBufHolds, heq, hlt, hopen, true_and, true_imp_iff, decide_eq_true_eq]
  split <;> simp [*]

variable (io pfd s) in
theorem serveAlone_eq (hr : req.Fits) (hknown : ∀ command, req ≠ .unknown command)
    (u : Unspecified) : serveAlone io u pfd req s =
      (dispatchIn io u.order pfd u.rpcret req (receivedOpu (req.received u.junk)) s).map
        Prod.snd := by
  rw [serveAlone, eventHandlerFuncIn, request_received u.junk hr hknown]

/-- A request that opens something. -/
theorem served_opening_iff (hopen : s.gOpenfileCount < 32)
    (hone : ∀ old new mk, ¬ PairCall req old new mk) {name : CStr}
    (hname : name.length < 1024 ∧ 0 ∉ name)
    (hserve : ∀ u, serveAlone io u pfd req s =
      (if nameBufHolds name (s.gConnectionPollfds pfd) s then
        some (eventHandlerFunc io pfd u.choice (some req) s) else none).map Prod.snd)
    (hcall : req.call s (s.gConnectionPollfds pfd) = some c) :
    req.Served io sizes pfd s c ↔
      (s.rpcRemapName name (s.gConnectionPollfds pfd)).length < 1200 := by
  rw [← nameBufHolds_iff hopen hname]
  constructor
  · intro h
    obtain ⟨made, s', hs', -, -⟩ := h allLate
    by_contra hfull
    rw [hserve, if_neg hfull] at hs'
    cases hs'
  · intro hholds
    refine served_of_typed hopen hone (fun u => ?_) hcall
    rw [hserve, if_pos hholds, Option.map_some]

/-- **One request is answered by the call it stands for** if and only if the translation of its
names leaves it as it is. -/
theorem served_iff (hs : s.CStrings) (hopen : s.gOpenfileCount < 32) (hr : req.Fits)
    (hcall : req.call s (s.gConnectionPollfds pfd) = some c) :
    req.Served io sizes pfd s c ↔ req.Undisturbed s.toTables (s.gConnectionPollfds pfd) := by
  have hknown : ∀ command, req ≠ .unknown command := by
    rintro command rfl
    cases hcall
  have hserve := serveAlone_eq io pfd s hr hknown
  have hone : ∀ {name : CStr}, req.names = [name] → name ∈ req.names := by
    intro name h
    rw [h]
    exact List.mem_singleton_self name
  cases req with
  | pfsdReqOpen name flags mode =>
    exact served_opening_iff hopen (by rintro _ _ _ ⟨⟩) (hr name (hone rfl)) hserve hcall
  | pfsdReqDopen name =>
    exact served_opening_iff hopen (by rintro _ _ _ ⟨⟩) (hr name (hone rfl)) hserve hcall
  | pfsdReqRmdir name | pfsdReqChdir name | pfsdReqRemove name =>
    cases hcall
    dsimp only [dispatchIn] at hserve
    rw [served_translated_iff hs hr (hone rfl) (by simp [Request.fields]) hserve
      (fun _ _ _ _ h => by cases h) (fun _ _ _ => rfl)]
    exact and_iff_left fun _ => rfl
  | pfsdReqMkdir name mode =>
    cases hcall
    have hmode := readBehind_received hr 0 mode (by simp [Request.fields])
    dsimp only [dispatchIn] at hserve
    rw [served_translated_iff hs hr (hone rfl) (by simp [Request.fields]) hserve
      (fun _ _ _ _ h => by cases h) (fun _ _ _ => rfl)]
    simp only [hmode, Call.view, Call.scepfsMkdir.injEq, true_and]
    rw [← keepsInt_iff]
    rfl
  | pfsdReqSync name flag =>
    cases hcall
    have hflag := readBehind_received hr 0 flag (by simp [Request.fields])
    dsimp only [dispatchIn] at hserve
    rw [served_translated_iff hs hr (hone rfl) (by simp [Request.fields]) hserve
      (fun _ _ _ _ h => by cases h) (fun _ _ _ => rfl)]
    simp only [hflag, Call.view, Call.scepfsSync.injEq, true_and]
    rw [← keepsInt_iff]
    rfl
  | pfsdReqGetstat name useshm =>
    cases hcall
    have huseshm := readBehind_received hr 0 useshm (by simp [Request.fields])
    dsimp only [dispatchIn] at hserve
    rw [served_translated_iff hs hr (hone rfl) (by simp [Request.fields]) hserve
      (fun _ _ _ _ h => onShm_map h) (fun _ _ _ => rfl)]
    simp only [huseshm, view_scepfsGetstat_iff]
    rw [← keepsFlag_iff]
    rfl
  | pfsdReqChstat name useshm mask =>
    cases hcall
    have huseshm := readBehind_received hr 0 useshm (by simp [Request.fields])
    have hmask := readBehind_received hr 1 mask (by simp [Request.fields])
    dsimp only [dispatchIn] at hserve
    rw [served_translated_iff hs hr (hone rfl) (by simp [Request.fields]) hserve
      (fun _ _ _ _ h => by cases h) (fun _ _ _ => rfl)]
    simp only [huseshm, hmask, view_scepfsChstat_iff, forall_and]
    rw [← keepsFlag_iff, ← keepsInt_iff]
    rfl
  | pfsdReqReadlink name useshm buflen =>
    cases hcall
    have huseshm := readBehind_received hr 0 useshm (by simp [Request.fields])
    have hbuflen := readBehind_received hr 1 buflen (by simp [Request.fields])
    dsimp only [dispatchIn] at hserve
    rw [served_translated_iff hs hr (hone rfl) (by simp [Request.fields]) hserve
      (fun _ _ _ _ h => onShm_map h) (fun _ _ _ => rfl)]
    simp only [huseshm, hbuflen, view_scepfsReadlink_iff, forall_and]
    rw [← keepsFlag_iff, ← keepsInt_iff]
    rfl
  | pfsdReqDevctl name cmd arg arglen buf buflen =>
    cases hcall
    have hcmd := readBehind_received hr 0 cmd (by simp [Request.fields])
    have harg := readBehind_received hr 1 arg (by simp [Request.fields])
    have harglen := readBehind_received hr 2 arglen (by simp [Request.fields])
    have hbuf := readBehind_received hr 3 buf (by simp [Request.fields])
    have hbuflen := readBehind_received hr 4 buflen (by simp [Request.fields])
    dsimp only [dispatchIn] at hserve
    rw [served_translated_iff hs hr (hone rfl) (by simp [Request.fields]) hserve
      (fun _ _ _ _ h => onShm_map h) (fun _ _ _ => rfl)]
    simp only [hcmd, harg, harglen, hbuf, hbuflen, view_scepfsDevctl_iff, forall_and]
    rw [← keepsInt_iff, ← keepsFlag_iff, ← keepsInt_iff, ← keepsFlag_iff, ← keepsInt_iff]
    rfl
  | pfsdReqRename old new =>
    cases hcall
    exact served_translatedBoth_iff hs hr rfl rfl hserve (fun _ _ _ _ h => by cases h)
      (fun _ _ _ => rfl) fun _ _ _ _ => by simp [Call.view]
  | pfsdReqSymlink old new =>
    cases hcall
    exact served_translatedBoth_iff hs hr rfl rfl hserve (fun _ _ _ _ h => by cases h)
      (fun _ _ _ => rfl) fun _ _ _ _ => by simp [Call.view]
  | _ => exact iff_of_true (served_of_typed hopen (by rintro _ _ _ ⟨⟩) hserve hcall) trivial

/-- Whatever a request is answered with is one call. -/
theorem made_of_translated {order : ℕ → Bool} {mk : CStr → (ℕ → CInt) → Call} {p : CInt}
    {m : Packet} {s' : Daemon σ} (h : (translated io order mk p m s).map Prod.snd = some s')
    (hmk : ∀ n v, (mk n v).OnShm sizes s)
    (hreply : ∀ n v r, (mk n v).reply r = int32Bytes r.ret) :
    ∃ made, Made io sizes p made s s' := by
  simp only [translated, Option.map_map, Option.map_eq_some_iff] at h
  obtain ⟨m', -, rfl⟩ := h
  exact ⟨_, made_broke (hmk _ _) (hreply _ _)⟩

theorem made_of_translatedBoth {order : ℕ → Bool} {mk : CStr → CStr → Call} {p : CInt}
    {m : Packet} {s' : Daemon σ} (h : (translatedBoth io order mk p m s).map Prod.snd = some s')
    (hmk : ∀ n n', (mk n n').OnShm sizes s)
    (hreply : ∀ n n' r, (mk n n').reply r = int32Bytes r.ret) :
    ∃ made, Made io sizes p made s s' := by
  simp only [translatedBoth, Option.map_map, Option.map_eq_some_iff] at h
  obtain ⟨m', -, rfl⟩ := h
  exact ⟨_, made_broke (hmk _ _) (hreply _ _)⟩

theorem serveAlone_made (hopen : s.gOpenfileCount < 32) (hr : req.Fits)
    (hcall : req.call s (s.gConnectionPollfds pfd) = some c) {u : Unspecified} {s' : Daemon σ}
    (h : serveAlone io u pfd req s = some s') :
    ∃ made, Made io sizes (s.gConnectionPollfds pfd) made s s' := by
  have hknown : ∀ command, req ≠ .unknown command := by
    rintro command rfl
    cases hcall
  have htyped : (∀ old new mk, ¬ PairCall req old new mk) →
      some (eventHandlerFunc io pfd u.choice (some req) s).2 = some s' →
      ∃ made, Made io sizes (s.gConnectionPollfds pfd) made s s' := by
    intro hone h
    cases h
    exact ⟨c, eventHandlerFunc_made hone hcall hopen⟩
  rw [serveAlone_eq io pfd s hr hknown] at h
  cases req with
  | pfsdReqOpen _ _ _ | pfsdReqDopen _ =>
    dsimp only [dispatchIn] at h
    split at h
    · exact htyped (by rintro _ _ _ ⟨⟩) h
    · cases h
  | pfsdReqRmdir _ | pfsdReqChdir _ | pfsdReqRemove _ | pfsdReqMkdir _ _ | pfsdReqSync _ _
  | pfsdReqChstat _ _ _ =>
    dsimp only [dispatchIn] at h
    exact made_of_translated h (fun _ _ _ _ h => by cases h) fun _ _ _ => rfl
  | pfsdReqGetstat _ _ | pfsdReqReadlink _ _ _ | pfsdReqDevctl _ _ _ _ _ _ =>
    dsimp only [dispatchIn] at h
    exact made_of_translated h (fun _ _ _ _ h => onShm_map h) fun _ _ _ => rfl
  | pfsdReqRename _ _ | pfsdReqSymlink _ _ =>
    dsimp only [dispatchIn] at h
    exact made_of_translatedBoth h (fun _ _ _ _ h => by cases h) fun _ _ _ => rfl
  | _ => exact htyped (by rintro _ _ _ ⟨⟩) h

end Served

/-! ## 10. One function -/

section Runs

variable {io : IomanX σ} {sizes : Sizes} {pfd : ℕ} {s : Daemon σ} {c : ClientCall}
  {f : Request → Daemon σ → Option (Daemon σ)} {p : CInt}

theorem ClientCall.fits_request (hc : c.Valid sizes) : c.request.Fits := by
  cases c with
  | format _ _ _ _ | mount _ _ _ _ _ | umount _ | getMountPoint _ _ => exact hc.elim
  | ioctl2 fd command arg arglen buf buflen xfer =>
    simp only [request]
    split <;> simp [Request.Fits, Request.names]
  | rename _ _ | symlink _ _ =>
    simpa [Request.Fits, request, Request.names, Valid, IsName] using hc
  | chstat _ _ _ | readlink _ _ _ | devctl _ _ _ _ _ _ =>
    simpa [Request.Fits, request, Request.names, IsName] using hc.1
  | _ =>
    first
      | exact fun _ h => absurd h List.not_mem_nil
      | simpa [Request.Fits, request, Request.names, Valid, IsName] using hc

/-- 256 sectors fit into the shared memory. -/
theorem toNat_shiftLeft_le {size : UInt32} (h : size ≤ 0x100) :
    (size <<< 9).toNat ≤ 0x20000 := by
  have hle : size.toNat ≤ 0x100 := UInt32.le_iff_toNat_le.mp h
  have hshift : (size <<< 9).toNat = size.toNat <<< 9 % 2 ^ 32 := UInt32.toNat_shiftLeft size 9
  rw [hshift, Nat.shiftLeft_eq]
  omega

/-- The argument fits into the shared memory. -/
theorem ClientCall.length_argument (hs : Ready sizes s) (hc : c.Valid sizes) :
    ∀ bytes ∈ c.argument sizes, bytes.length ≤ 0x20000 := by
  have htake : ∀ {k : ℕ} {arg : Option Mem}, k ≤ 0x20000 →
      ∀ bytes ∈ arg.map (List.take k), bytes.length ≤ 0x20000 := by
    intro k arg hk bytes hbytes
    obtain ⟨mem, -, rfl⟩ := Option.map_eq_some_iff.mp hbytes
    exact (List.length_take_le k mem).trans hk
  have hargBytes : ∀ {len : UInt64} {arg : Option Mem}, len ≤ 0x20000 →
      ∀ bytes ∈ argBytes arg len, bytes.length ≤ 0x20000 := by
    intro len arg hlen
    unfold argBytes
    split
    · exact fun _ h => absurd h (by simp)
    · exact htake (UInt64.le_iff_toNat_le.mp hlen)
  cases c with
  | write fuel fd ptr size =>
    refine htake ?_
    rw [toNatClampNeg_intOfSize hc.2.1]
    exact UInt64.le_iff_toNat_le.mp hc.2.1
  | chstat name stat mask => exact htake hs.ioxStat
  | ioctl fd cmd arg => exact htake (by decide)
  | ioctl2 fd command arg arglen buf buflen xfer =>
    by_cases hcommand : command = 0x6832
    · simp only [Valid, if_pos hcommand] at hc
      simp only [argument, if_pos hcommand]
      exact htake (toNat_shiftLeft_le hc.2.1)
    · simp only [Valid, if_neg hcommand] at hc
      simp only [argument, if_neg hcommand]
      exact hargBytes hc.1
  | devctl name cmd arg arglen buf buflen => exact hargBytes hc.2.1
  | _ => exact fun _ h => absurd h (by simp [argument])

/-- The value of a function that finds `bytes` on its socket. -/
def ClientCall.received (c : ClientCall) (bytes : List UInt8) : ℤ :=
  match c with
  | .lseek64 .. => (int64OfBytes (bytes.take 8)).toInt
  | _ => (int32OfBytes (bytes.take 4)).toInt

/-- An exchange is what the daemon does with the request, if that replies. -/
theorem runAlone_exchange (arg : Option Mem) (req : Request) (buf : Bool) (n : ℕ) :
    runAlone f p (exchange arg req buf n) { daemon := s } =
      (f req (s.copyIn arg)).bind fun s' =>
        if (s'.stream p).drop (s.stream p).length = [] then none
        else some ((int32OfBytes (((s'.stream p).drop (s.stream p).length).take 4)).toInt,
          ⟨s', ((s'.stream p).drop (s.stream p).length).drop 4,
            if buf then s'.shm.take n else []⟩) := by
  have hcopy : runAlone f p (exchange arg req buf n) { daemon := s } =
      runAlone f p (request req fun ret => copyBuf buf n (.releaseLock (.done ret.toInt)))
        { daemon := s.copyIn arg } := by
    cases arg <;> rfl
  have hstream : (s.copyIn arg).stream p = s.stream p := by
    rw [Daemon.stream, sent_copyIn, Daemon.stream]
  rw [hcopy]
  simp only [request, runAlone, hstream, List.nil_append]
  congr 1
  funext s'
  split
  · rfl
  · cases buf <;> rfl

/-- So is every function. -/
theorem runAlone_prog (hsize : sizes.sharedMemorySize = 0x20000) (hc : c.Valid sizes) :
    runAlone f p (c.prog sizes) { daemon := s } =
      (f c.request (s.copyIn (c.argument sizes))).bind fun s' =>
        if (s'.stream p).drop (s.stream p).length = [] then none
        else some (c.received ((s'.stream p).drop (s.stream p).length),
          ⟨s', ((s'.stream p).drop (s.stream p).length).drop c.replySize,
            if (c.copied sizes).1 then s'.shm.take (c.copied sizes).2 else []⟩) := by
  by_cases h64 : ∃ fd offset whence, c = .lseek64 fd offset whence
  · obtain ⟨fd, offset, whence, rfl⟩ := h64
    simp only [ClientCall.prog, scepfsdLseek64, runAlone, List.nil_append]
    rfl
  · have hne : ∀ fd offset whence, c ≠ .lseek64 fd offset whence :=
      fun fd offset whence h => h64 ⟨fd, offset, whence, h⟩
    have hreceived : ∀ bytes, c.received bytes = (int32OfBytes (bytes.take 4)).toInt := by
      intro bytes
      cases c with
      | lseek64 fd offset whence => exact absurd rfl (hne fd offset whence)
      | _ => rfl
    have hsize4 : c.replySize = 4 := by
      cases c with
      | lseek64 fd offset whence => exact absurd rfl (hne fd offset whence)
      | _ => rfl
    rw [ClientCall.prog_eq hsize hc hne, runAlone_exchange]
    simp only [hreceived, hsize4]

/-- A function whose request was replied to. -/
theorem runAlone_replied (hsize : sizes.sharedMemorySize = 0x20000) (hc : c.Valid sizes)
    {s' : Daemon σ} {bytes : List UInt8}
    (hf : f c.request (s.copyIn (c.argument sizes)) = some s')
    (hsent : s'.sent = s.sent ++ [(p, bytes)]) (hbytes : bytes ≠ []) :
    runAlone f p (c.prog sizes) { daemon := s } = some (c.received bytes,
      ⟨s', bytes.drop c.replySize,
        if (c.copied sizes).1 then s'.shm.take (c.copied sizes).2 else []⟩) := by
  have hreply : (s'.stream p).drop (s.stream p).length = bytes := by
    rw [stream_append hsent, List.drop_left]
    simp
  rw [runAlone_prog hsize hc, hf, Option.bind_some, hreply, if_neg hbytes]

/-- The size of the result is part of what iomanX sees. -/
theorem resultBuffer_view (sizes : Sizes) (d : Call) :
    ((d.view sizes).resultBuffer sizes).map Prod.snd = (d.resultBuffer sizes).map Prod.snd := by
  cases d <;> simp [Call.view, Call.resultBuffer, Function.comp_def]

theorem reply_view (sizes : Sizes) (d : Call) (r : Ret) :
    (d.view sizes).reply r = d.reply r := by
  cases d <;> rfl

/-- A function returns the value of the call. -/
theorem ClientCall.received_reply {t : Tables} {own : Mem} {d : Call}
    (hd : c.direct t p own = some d) (r : Ret) : c.received (d.reply r) = d.value r := by
  have hint : (int32OfBytes ((int32Bytes r.ret).take 4)).toInt = r.ret.toInt := by
    rw [List.take_of_length_le (by simp), int32OfBytes_int32Bytes]
  cases c with
  | lseek64 fd offset whence =>
    cases hd
    simp only [received, Call.reply, Call.value]
    rw [List.take_of_length_le (by simp), int64OfBytes_int64Bytes]
  | ioctl2 fd command arg arglen buf buflen xfer =>
    simp only [direct] at hd
    split at hd
    · cases hd
      exact hint
    · cases hd
      exact hint
  | setReadAhead _ | format _ _ _ _ | mount _ _ _ _ _ | umount _ | getMountPoint _ _ => cases hd
  | _ =>
    cases hd
    exact hint

/-- What iomanX wrote is copied out. -/
theorem ClientCall.copied_spec (hs : Ready sizes s) (hc : c.Valid sizes) {t : Tables}
    {own buf : Mem} {d : Call} {n i : ℕ} (hd : c.direct t p own = some d)
    (hbuf : d.resultBuffer sizes = some (buf, n)) (hi : i < n) :
    (c.copied sizes).1 = true ∧ n ≤ (c.copied sizes).2 ∧ n ≤ 0x20000 := by
  -- a buffer with its length, as `READLINK`, `IOCTL2` and `DEVCTL` have it
  have hlen : ∀ {b : Bool} {len : UInt64}, len ≤ 0x20000 →
      (if b then some own else none).map (fun m => (m, (intOfSize len).toNatClampNeg)) =
        some (buf, n) →
      (b && len != 0) = true ∧ n ≤ len.toNat ∧ n ≤ 0x20000 := by
    intro b len hle h
    rw [toNatClampNeg_intOfSize hle] at h
    cases b with
    | false => cases h
    | true =>
      cases h
      refine ⟨?_, Nat.le_refl _, UInt64.le_iff_toNat_le.mp hle⟩
      have hne : len ≠ 0 := by
        rintro rfl
        exact absurd hi (by simp)
      simpa using hne
  cases c with
  | read fuel fd ptr size =>
    cases hd
    have hle := hlen hc.2 hbuf
    simp only [copied, toNatClampNeg_intOfSize hc.2]
    exact ⟨(Bool.and_eq_true_iff.mp hle.1).1, hle.2⟩
  | dread fd ioxDirent =>
    cases hd
    have hc' : ioxDirent = true := hc
    subst hc'
    cases hbuf
    exact ⟨rfl, Nat.le_refl _, hs.ioxDirent⟩
  | getstat name stat =>
    cases hd
    cases stat with
    | false => cases hbuf
    | true =>
      cases hbuf
      exact ⟨rfl, Nat.le_refl _, hs.ioxStat⟩
  | ioctl2 fd command arg arglen b buflen xfer =>
    by_cases hcommand : command = 0x6832
    · simp only [Valid, if_pos hcommand] at hc
      simp only [direct, if_pos hcommand, Option.some.injEq] at hd
      subst hd
      simp only [copied, if_pos hcommand]
      obtain ⟨mem, -, hmem⟩ := Option.map_eq_some_iff.mp hbuf
      cases hmem
      exact ⟨trivial, Nat.le_refl _, toNat_shiftLeft_le hc.2.1⟩
    · simp only [Valid, if_neg hcommand] at hc
      simp only [direct, if_neg hcommand, Option.some.injEq] at hd
      subst hd
      simp only [copied, if_neg hcommand]
      exact hlen hc.2.2 hbuf
  | readlink name b buflen =>
    cases hd
    exact hlen hc.2 hbuf
  | devctl name cmd arg arglen b buflen =>
    cases hd
    exact hlen hc.2.2.2 hbuf
  | setReadAhead _ | format _ _ _ _ | mount _ _ _ _ _ | umount _ | getMountPoint _ _ => cases hd
  | _ =>
    cases hd
    cases hbuf

end Runs

/-! ## 11. Every function -/

section Marshals

variable {io : IomanX σ} {sizes : Sizes} {wrote : Call → σ → ℕ → Option UInt8} {pfd : ℕ}
  {s s' : Daemon σ} {c : ClientCall} {p : CInt} {made d : Call} {own : Mem}

/-- The bytes that iomanX wrote, in the shared memory. -/
theorem shm_of_made (laws : BufferLaws io sizes wrote) (hmade : Made io sizes p made s s')
    (hshm : s.shm.length = 0x20000) {i n : ℕ} {buf : Mem} {b : UInt8}
    (hbuf : made.resultBuffer sizes = some (buf, n)) (hi : i < 0x20000)
    (hb : wrote made s.world i = some b) : s'.shm[i]? = some b := by
  obtain ⟨huses, rfl⟩ := hmade.onShm buf n hbuf
  rw [hmade.shm, if_pos huses, laws.result made s.world _ n hbuf, List.getElem?_mapIdx,
    List.getElem?_eq_getElem (by omega), Option.map_some, hb, Option.getD_some]

/-- The daemon's call has the effect of the direct one. -/
theorem likeDirect_of_made (laws : BufferLaws io sizes wrote) (hs : Ready sizes s)
    (hc : c.Valid sizes) (hset : ∀ enabled, c ≠ .setReadAhead enabled)
    (hd : c.direct s.toTables p own = some d)
    (hmade : Made io sizes p made (s.copyIn (c.argument sizes)) s')
    (hview : made.view sizes = d.view sizes) (unread : List UInt8) :
    c.LikeDirect io sizes wrote p own s (c.received (made.reply (io made s.world).1))
      ⟨s', unread, if (c.copied sizes).1 then s'.shm.take (c.copied sizes).2 else []⟩ := by
  obtain ⟨hret, hret64, hworld, hwrote⟩ := laws.view made d s.world hview
  have hshm : (s.copyIn (c.argument sizes)).shm.length = 0x20000 := by
    rw [length_shm_copyIn fun bytes h => hs.shm ▸ c.length_argument hs hc bytes h, hs.shm]
  have hvalue : c.received (made.reply (io made s.world).1) = d.value (io d s.world).1 := by
    rw [← reply_view sizes made, hview, reply_view, ClientCall.received_reply hd]
    cases d <;> simp only [Call.value, hret, hret64]
  have hout : ∀ i b, wrote d s.world i = some b →
      (if (c.copied sizes).1 then s'.shm.take (c.copied sizes).2 else [])[i]? = some b := by
    intro i b hb
    rw [← hwrote] at hb
    obtain ⟨buf, n, hbuf, hi⟩ := laws.within made s.world i b hb
    -- the direct call's result has the same size
    have hsame := resultBuffer_view sizes made
    rw [hview, resultBuffer_view, hbuf, Option.map_some, Option.map_eq_some_iff] at hsame
    obtain ⟨⟨buf', n'⟩, hbuf', hn⟩ := hsame
    subst hn
    obtain ⟨htrue, hle, hle'⟩ := ClientCall.copied_spec hs hc hd hbuf' hi
    have hlt : i < (c.copied sizes).2 := lt_of_lt_of_le hi hle
    rw [if_pos htrue, List.getElem?_take, if_pos hlt]
    refine shm_of_made laws hmade hshm hbuf (lt_of_lt_of_le hi hle') ?_
    rwa [world_copyIn]
  have hcalls := hmade.calls
  have hworld' := hmade.world
  rw [calls_copyIn, world_copyIn, hret] at hcalls
  rw [world_copyIn, hworld] at hworld'
  cases c with
  | setReadAhead enabled => exact absurd rfl (hset enabled)
  | _ => exact ⟨d, made, hd, hcalls, hview, hworld', hvalue, hout⟩

theorem ClientCall.exists_direct (hc : c.Valid sizes)
    (hset : ∀ enabled, c ≠ .setReadAhead enabled) (t : Tables) (p : CInt) (own : Mem) :
    ∃ d, c.direct t p own = some d := by
  cases c with
  | setReadAhead enabled => exact absurd rfl (hset enabled)
  | format _ _ _ _ | mount _ _ _ _ _ | umount _ | getMountPoint _ _ => exact hc.elim
  | ioctl2 _ _ _ _ _ _ _ =>
    simp only [direct]
    split <;> exact ⟨_, rfl⟩
  | _ => exact ⟨_, rfl⟩

theorem ClientCall.LikeDirect.asked {ret : ℤ} {x : Alone σ}
    (h : c.LikeDirect io sizes wrote p own s ret x) (hset : ∀ enabled, c ≠ .setReadAhead enabled) :
    ∃ d made, c.direct s.toTables p own = some d ∧
      x.daemon.calls = s.calls ++ [⟨p, made, (io d s.world).1.ret⟩] ∧
      made.view sizes = d.view sizes := by
  cases c with
  | setReadAhead enabled => exact absurd rfl (hset enabled)
  | _ =>
    obtain ⟨d, made, hd, hcalls, hview, -⟩ := h
    exact ⟨d, made, hd, hcalls, hview⟩

theorem reply_ne_nil (d : Call) (r : Ret) : d.reply r ≠ [] := by
  intro h
  have hlen := congrArg List.length h
  cases d <;> simp [Call.reply] at hlen

/-- A function that is not `scepfsdSetReadAhead` marshals its arguments if and only if its request
is answered by the call it stands for. -/
theorem marshals_iff_served (laws : BufferLaws io sizes wrote) (hs : Ready sizes s)
    (hc : c.Valid sizes) (hset : ∀ enabled, c ≠ .setReadAhead enabled)
    (hcall : c.request.call (s.copyIn (c.argument sizes)) (s.gConnectionPollfds pfd) = some made) :
    Marshals io sizes wrote pfd s c ↔
      c.request.Served io sizes pfd (s.copyIn (c.argument sizes)) made := by
  have hpid : (s.copyIn (c.argument sizes)).gConnectionPollfds pfd = s.gConnectionPollfds pfd := by
    rw [toConns_copyIn]
  have hcall' : c.request.call (s.copyIn (c.argument sizes))
      ((s.copyIn (c.argument sizes)).gConnectionPollfds pfd) = some made := hpid.symm ▸ hcall
  have hopen := hs.openfiles
  have hdirect : ∀ own, ∃ d, c.direct s.toTables (s.gConnectionPollfds pfd) own = some d ∧
      made.view sizes = d.view sizes := by
    intro own
    obtain ⟨d, hd⟩ := ClientCall.exists_direct hc hset s.toTables (s.gConnectionPollfds pfd) own
    obtain ⟨made', hmade', hview⟩ := ClientCall.call_request hc hd
    rw [hcall, Option.some.injEq] at hmade'
    exact ⟨d, hd, hmade' ▸ hview⟩
  constructor
  · intro h u
    obtain ⟨ret, x, hrun, hlike⟩ := h u []
    rw [runAlone_prog hs.sharedMemorySize hc, Option.bind_eq_some_iff] at hrun
    obtain ⟨s', hserve, hreturned⟩ := hrun
    have hx : x.daemon = s' := by
      split at hreturned
      · cases hreturned
      · cases hreturned
        rfl
    have hmade : ∃ made', Made io sizes _ made' (s.copyIn (c.argument sizes)) s' :=
      serveAlone_made (by rwa [toTables_copyIn]) (ClientCall.fits_request hc) hcall' hserve
    obtain ⟨made', hmade'⟩ := hmade
    obtain ⟨d, made'', hd, hcalls, hview⟩ := hlike.asked hset
    have heq : made' = made'' := by
      have hsame := hmade'.calls
      rw [calls_copyIn, ← hx, hcalls] at hsame
      have hrecord := List.append_cancel_left hsame
      simp only [List.cons.injEq, CallRecord.mk.injEq] at hrecord
      exact hrecord.1.2.1.symm
    obtain ⟨d', hd', hview'⟩ := hdirect []
    rw [hd, Option.some.injEq] at hd'
    exact ⟨made', s', hserve, hmade', by rw [heq, hview, hd', hview']⟩
  · intro h u own
    obtain ⟨made', s', hserve, hmade', hview⟩ := h u
    obtain ⟨d, hd, hview'⟩ := hdirect own
    rw [hpid] at hmade'
    have hsent := hmade'.sent
    rw [sent_copyIn, world_copyIn] at hsent
    exact ⟨_, _, runAlone_replied hs.sharedMemorySize hc hserve hsent (reply_ne_nil _ _),
      likeDirect_of_made laws hs hc hset hd hmade' (hview.trans hview') _⟩

/-- `scepfsdSetReadAhead` has no name and no buffer. -/
theorem marshals_setReadAhead (hsize : sizes.sharedMemorySize = 0x20000) (enabled : CInt) :
    Marshals io sizes wrote pfd s (.setReadAhead enabled) := by
  intro u own
  have hfits : (Request.pfsdReqSetreadahead enabled).Fits :=
    fun _ h => absurd h List.not_mem_nil
  have hserve := serveAlone_eq io pfd s hfits (fun _ h => by cases h) u
  have hsent : (scepfsSetReadAhead io enabled (s.gConnectionPollfds pfd) s).2.sent = s.sent := by
    simp only [scepfsSetReadAhead]
    split <;> rfl
  have hsent' : (broke (s.gConnectionPollfds pfd) (scepfsSetReadAhead io enabled
      (s.gConnectionPollfds pfd) s)).2.sent = s.sent ++ [(s.gConnectionPollfds pfd, int32Bytes
        (scepfsSetReadAhead io enabled (s.gConnectionPollfds pfd) s).1)] := by
    rw [← hsent]
    rfl
  have hne : int32Bytes (scepfsSetReadAhead io enabled (s.gConnectionPollfds pfd) s).1 ≠ [] :=
    List.ne_nil_of_length_pos (by rw [length_int32Bytes]; decide)
  have hvalue : (ClientCall.setReadAhead enabled).received (int32Bytes
      (scepfsSetReadAhead io enabled (s.gConnectionPollfds pfd) s).1) =
        (scepfsSetReadAhead io enabled (s.gConnectionPollfds pfd) s).1.toInt := by
    simp only [ClientCall.received]
    rw [List.take_of_length_le (by rw [length_int32Bytes]), int32OfBytes_int32Bytes]
  exact ⟨_, _, runAlone_replied (c := .setReadAhead enabled) hsize trivial hserve hsent' hne,
    hvalue, rfl, rfl⟩

/-- **The functions marshal their arguments faithfully** if and only if the translations of the
names in a request leave the request as it is: for every iomanX that keeps to its buffers, every
function but those of the mount table, and all arguments that the protocol has room for, the daemon
makes the one call that the function stands for, with the client's names, numbers, buffers and
`NULL`s, and the function returns and delivers what that call does. -/
theorem marshals_iff (laws : BufferLaws io sizes wrote) (hs : Ready sizes s)
    (hc : c.Valid sizes) :
    Marshals io sizes wrote pfd s c ↔
      c.request.Undisturbed s.toTables (s.gConnectionPollfds pfd) := by
  by_cases hset : ∃ enabled, c = .setReadAhead enabled
  · obtain ⟨enabled, rfl⟩ := hset
    exact iff_of_true (marshals_setReadAhead hs.sharedMemorySize enabled) trivial
  · have hne : ∀ enabled, c ≠ .setReadAhead enabled := fun enabled h => hset ⟨enabled, h⟩
    obtain ⟨d, hd⟩ := ClientCall.exists_direct hc hne s.toTables (s.gConnectionPollfds pfd) []
    obtain ⟨made, hcall, -⟩ := ClientCall.call_request hc hd
    have hopen : (s.copyIn (c.argument sizes)).gOpenfileCount < 32 := by
      rw [toTables_copyIn]
      exact hs.openfiles
    have hcstrings : (s.copyIn (c.argument sizes)).CStrings := by
      rw [toTables_copyIn]
      exact hs.cstrings
    have hpid : (s.copyIn (c.argument sizes)).gConnectionPollfds pfd =
        s.gConnectionPollfds pfd := by
      rw [toConns_copyIn]
    rw [marshals_iff_served laws hs hc hne hcall, served_iff hcstrings hopen
      (ClientCall.fits_request hc) (by rw [hpid]; exact hcall), toTables_copyIn, hpid]

/-- Translations that fit into their fields leave every request as it is. -/
theorem undisturbed_of_short {t : Tables} {req : Request}
    (h : ∀ name ∈ req.names, (t.rpcRemapName name p).length < 1024) : req.Undisturbed t p := by
  have hspilled : ∀ name ∈ req.names, ∀ i v,
      spilled (t.rpcRemapName name p ++ [0]) (1024 + 4 * i) v = v := by
    intro name hname i v
    have hlt := h name hname
    refine spilled_of_le ?_ v
    rw [List.length_append, List.length_singleton]
    omega
  have hint : ∀ name ∈ req.names, ∀ i v, KeepsInt (t.rpcRemapName name p) i v := hspilled
  have hflag : ∀ name ∈ req.names, ∀ i v, KeepsFlag (t.rpcRemapName name p) i v := by
    intro name hname i v
    rw [KeepsFlag, hspilled name hname i v]
  cases req <;>
    simp only [Request.names, List.forall_mem_cons, List.not_mem_nil, false_implies,
      implies_true, and_true] at h hint hflag <;>
    simp only [Request.Undisturbed, hint, hflag, opuSize, and_true] <;> omega

end Marshals

/-! ## 12. A mount that is shared -/

/-- The small iomanX writes to no buffer. -/
theorem smallIomanx_bufferLaws {υ : Type} [DecidableEq υ] (unit : CStr → υ) (sizes : Sizes) :
    BufferLaws (smallIomanx unit) sizes fun _ _ _ => none where
  view c c' w h := by
    have hview : ∀ c : Call, smallIomanx unit (c.view sizes) w = smallIomanx unit c w := by
      intro c
      cases c <;> rfl
    rw [← hview c, h, hview]
    exact ⟨rfl, rfl, rfl, rfl⟩
  result c w buf n h := by
    have hmem : (smallIomanx unit c w).1.mem = none := by
      cases c <;> simp only [smallIomanx] <;> repeat' split
      all_goals rfl
    rw [hmem]
    simp only [Option.getD_none]
    exact (List.mapIdx_eq_iff.mpr fun i => by simp).symm
  within c w i b h := by cases h

/-- Client 5 mounts a partition as `pfs10:`, and client 6 the same one as `pfs0:`. -/
def mountShared : List Event :=
  [.connect ⟨5, 9, 0, 0x20000⟩, .connect ⟨6, 9, 0, 0x20000⟩,
    .request 0 {} (some (.pfsdReqMount (pfsUnit 10) (ascii ['A']) 0 0 0)),
    .request 1 {} (some (.pfsdReqMount (pfsUnit 0) (ascii ['A']) 0 0 0))]

/-- The daemon after that. -/
def afterMountShared : Daemon (SmallWorld CStr) :=
  (run (handle (smallIomanx id)) mountShared (start 4 (List.replicate 0x20000 0) {})).getD
    (start 4 [] {})

theorem reachable_afterMountShared : Reachable (smallIomanx id) {} afterMountShared :=
  ⟨4, List.replicate 0x20000 0, mountShared, rfl⟩

theorem items_afterMountShared : afterMountShared.gMountlistItems =
    Function.update (Function.update (fun _ => {}) 0
      ⟨5, pfsUnit 10, pfsUnit 10, ascii ['A']⟩) 1 ⟨6, pfsUnit 0, pfsUnit 10, ascii ['A']⟩ :=
  rfl

theorem ready_afterMountShared : Ready ⟨64, 320, 0x20000⟩ afterMountShared where
  sharedMemorySize := rfl
  shm := List.length_replicate
  ioxStat := by decide
  ioxDirent := by decide
  openfiles := by decide
  cstrings := by
    intro i
    rw [items_afterMountShared]
    by_cases h1 : i = 1
    · subst h1
      decide
    · rw [Function.update_of_ne h1]
      by_cases h0 : i = 0
      · subst h0
        decide
      · rw [Function.update_of_ne h0]
        exact List.not_mem_nil

/-- What client 6 calls `pfs0:` is `pfs10:`. -/
theorem rpcRemapName_afterMountShared (r : CStr) :
    afterMountShared.rpcRemapName (pfsUnit 0 ++ r) 6 = pfsUnit 10 ++ r := by
  have hslot : afterMountShared.remapSlot (pfsUnit 0 ++ r) 6 = 1 := by
    refine Tables.remapSlot_eq ⟨by decide, by decide⟩ (List.prefix_append _ r) fun i hi ho => ?_
    obtain rfl : i = 0 := Nat.lt_one_iff.mp hi
    exact absurd ho.2 (by decide)
  exact Tables.rpcRemapName_append (by decide) hslot rfl

/-- Client 6 makes a directory with a short name. -/
theorem marshals_iff_mkdir : Marshals (smallIomanx id) ⟨64, 320, 0x20000⟩ (fun _ _ _ => none) 1
    afterMountShared (.mkdir (pfsUnit 0 ++ ascii ['/', 'x']) 0x1FF) :=
  (marshals_iff (c := .mkdir (pfsUnit 0 ++ ascii ['/', 'x']) 0x1FF)
    (smallIomanx_bufferLaws id _) ready_afterMountShared ⟨by decide, by decide⟩).mpr
      (undisturbed_of_short (by decide))

/-- A name of 1023 bytes in client 6's `pfs0:`. -/
def longName : CStr := pfsUnit 0 ++ List.replicate 1018 120

theorem isName_longName : IsName longName := by
  refine ⟨?_, fun h => ?_⟩
  · rw [longName, List.length_append, List.length_replicate]
    decide
  · rcases List.mem_append.mp h with h | h
    · exact absurd h (by decide)
    · exact absurd (List.eq_of_mem_replicate h) (by decide)

/-- **The overrun.**  Client 6 renames a file with a name of 1023 bytes.  The translated name takes
1024, and its NUL goes over the new name: the daemon may ask iomanX for a rename to the empty
name. -/
theorem marshals_overrun : Reachable (smallIomanx id) {} afterMountShared ∧
    Ready ⟨64, 320, 0x20000⟩ afterMountShared ∧
    BufferLaws (smallIomanx id) ⟨64, 320, 0x20000⟩ (fun _ _ _ => none) ∧
    (ClientCall.rename longName (pfsUnit 0 ++ ascii ['/', 'y'])).Valid ⟨64, 320, 0x20000⟩ ∧
    ¬ Marshals (smallIomanx id) ⟨64, 320, 0x20000⟩ (fun _ _ _ => none) 1 afterMountShared
      (.rename longName (pfsUnit 0 ++ ascii ['/', 'y'])) := by
  have hvalid : (ClientCall.rename longName (pfsUnit 0 ++ ascii ['/', 'y'])).Valid
      ⟨64, 320, 0x20000⟩ := ⟨isName_longName, by decide, by decide⟩
  refine ⟨reachable_afterMountShared, ready_afterMountShared, smallIomanx_bufferLaws id _, hvalid,
    fun h => ?_⟩
  have hserved := (marshals_iff_served (smallIomanx_bufferLaws id _) ready_afterMountShared hvalid
    (fun _ h => by cases h) rfl).mp h
  have hundisturbed := (served_iff ready_afterMountShared.cstrings (by decide)
    (ClientCall.fits_request hvalid) rfl).mp hserved
  obtain ⟨-, -, hend⟩ := hundisturbed
  have hold : afterMountShared.rpcRemapName longName 6 = pfsUnit 10 ++ List.replicate 1018 120 :=
    rpcRemapName_afterMountShared _
  have hnew := rpcRemapName_afterMountShared (ascii ['/', 'y'])
  have hlen : (pfsUnit 10 ++ List.replicate 1018 120).length = 1024 := by
    rw [List.length_append, List.length_replicate]
    decide
  rcases hend with hshort | ⟨hsame, -⟩
  · have hlt : (afterMountShared.rpcRemapName longName 6).length < 1024 := hshort
    rw [hold, hlen] at hlt
    exact absurd hlt (Nat.lt_irrefl _)
  · have hdrop : (afterMountShared.rpcRemapName longName 6).drop 1024 =
        afterMountShared.rpcRemapName (pfsUnit 0 ++ ascii ['/', 'y']) 6 := hsame
    rw [hold, hnew, List.drop_of_length_le hlen.le] at hdrop
    exact absurd hdrop (by decide)

end PfsShell.Pfsd
