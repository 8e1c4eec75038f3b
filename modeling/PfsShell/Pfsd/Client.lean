/-
# The client functions of pfsd

`pfsd_client.c`: each `scepfsd*` function takes the lock, copies its arguments to the shared
memory where it has any, sends a request, reads the reply from the socket, copies its results
out and gives the lock back.  A function is the sequence of these actions (`Prog`); what it
does next depends on the bytes it read from the socket and on nothing else.

The results are copied to the caller's memory, which is not part of the model: of a copy out
there is its length.  The sizes that come from the headers of iomanX and from the shared memory
segment are parameters (`Sizes`).

`scepfsdRead` and `scepfsdWrite` split a transfer that is larger than the shared memory.  Their
loops have fuel: how often they go round depends on what the daemon answers.
-/
import PfsShell.Pfsd.Rpc

namespace PfsShell.Pfsd

open PfsShell.Lib

/-! ## 1. Actions -/

/-- What a client function does, up to the value it returns. -/
inductive Prog
  | done (ret : ℤ)
  | outOfFuel
  | requireLock (next : Prog)
  | releaseLock (next : Prog)
  /-- `memcpy(ShmPtr, arg, n)`. -/
  | copyIn (bytes : Mem) (next : Prog)
  /-- `memcpy(buf, ShmPtr, n)`. -/
  | copyOut (n : ℕ) (next : Prog)
  | sendRequest (req : Request) (next : Prog)
  /-- `read(Cfd, &rpcret, sizeof(rpcret))`. -/
  | receiveReply (size : ℕ) (next : List UInt8 → Prog)

/-- `sizeof(iox_stat_t)`, `sizeof(iox_dirent_t)` and `SharedMemorySize`. -/
structure Sizes where
  ioxStat : ℕ
  ioxDirent : ℕ
  sharedMemorySize : UInt64

/-- `!!ptr`. -/
def nonNull (ptr : Bool) : CInt := if ptr then 1 else 0

/-- A `size_t` assigned to an `int`. -/
def intOfSize (n : UInt64) : CInt := n.toInt64.toInt32

/-- An `int` in `size_t` arithmetic. -/
def sizeOfInt (i : CInt) : UInt64 := i.toInt64.toUInt64

/-- `SendRequest` and `ReceiveReply` (or `ReceiveReplyLong`, which is the same). -/
def request (req : Request) (next : CInt → Prog) : Prog :=
  .sendRequest req (.receiveReply 4 fun bytes => next (int32OfBytes bytes))

/-- The copy to the shared memory of the functions that do one when there is an argument. -/
def copyArg (arg : Option Mem) (next : Prog) : Prog :=
  match arg with
  | some bytes => .copyIn bytes next
  | none => next

/-- The copy from the shared memory of the functions that do one when there is a buffer. -/
def copyBuf (buf : Bool) (n : ℕ) (next : Prog) : Prog :=
  if buf then .copyOut n next else next

/-- The functions that send their arguments in the request and return the reply: lock, copy
in, exchange, copy out, unlock. -/
def exchange (arg : Option Mem) (req : Request) (buf : Bool) (n : ℕ) : Prog :=
  .requireLock (copyArg arg (request req fun ret =>
    copyBuf buf n (.releaseLock (.done ret.toInt))))

/-- `arg && arglen`: what of the argument is copied. -/
def argBytes (arg : Option Mem) (arglen : UInt64) : Option Mem :=
  if arglen = 0 then none else arg.map (List.take arglen.toNat)

/-! ## 2. The functions -/

def scepfsdOpen (name : CStr) (flags mode : CInt) : Prog :=
  exchange none (.pfsdReqOpen name flags mode) false 0

def scepfsdLseek (fd offset whence : CInt) : Prog :=
  exchange none (.pfsdReqLseek fd offset whence) false 0

def scepfsdLseek64 (fd : CInt) (offset : Int64) (whence : CInt) : Prog :=
  .requireLock (.sendRequest (.pfsdReqLseek64 fd offset whence) (.receiveReply 8 fun bytes =>
    .releaseLock (.done (int64OfBytes bytes).toInt)))

/-- One request of `scepfsdRead`, of `size` bytes to `ptr + chunked_size`. -/
def readChunk (fd : CInt) (ptr : Bool) (size : UInt64) (next : CInt → Prog) : Prog :=
  .requireLock (request (.pfsdReqRead fd (nonNull ptr) (intOfSize size)) fun ret =>
    copyBuf ptr (intOfSize size).toNatClampNeg (.releaseLock (next ret)))

/-- The loop of `scepfsdRead`.  The chunk is a call of `scepfsdRead` itself, for as much as the
shared memory holds, and then it is the last part that follows the loop. -/
def scepfsdReadFrom (sizes : Sizes) (fd : CInt) (ptr : Bool) (size : UInt64) :
    ℕ → CInt → Prog
  | 0, _ => .outOfFuel
  | fuel + 1, chunkedSize =>
    if sizes.sharedMemorySize < size - sizeOfInt chunkedSize then
      readChunk fd (ptr || chunkedSize != 0) sizes.sharedMemorySize fun result =>
        if result < 0 then .done result.toInt
        else if result < intOfSize sizes.sharedMemorySize then .done (result + chunkedSize).toInt
        else scepfsdReadFrom sizes fd ptr size fuel (chunkedSize + result)
    else
      readChunk fd ptr (size - sizeOfInt chunkedSize) fun ret => .done (ret + chunkedSize).toInt

def scepfsdRead (sizes : Sizes) (fuel : ℕ) (fd : CInt) (ptr : Bool) (size : UInt64) : Prog :=
  scepfsdReadFrom sizes fd ptr size fuel 0

/-- One request of `scepfsdWrite`, of `size` bytes at `ptr + chunked_size`. -/
def writeChunk (fd : CInt) (ptr : Option Mem) (size : UInt64) (next : CInt → Prog) : Prog :=
  .requireLock (copyArg (ptr.map (List.take (intOfSize size).toNatClampNeg))
    (request (.pfsdReqWrite fd (nonNull ptr.isSome) (intOfSize size)) fun ret =>
      .releaseLock (next ret)))

/-- The loop of `scepfsdWrite`. -/
def scepfsdWriteFrom (sizes : Sizes) (fd : CInt) (ptr : Option Mem) (size : UInt64) :
    ℕ → CInt → Prog
  | 0, _ => .outOfFuel
  | fuel + 1, chunkedSize =>
    if sizes.sharedMemorySize < size - sizeOfInt chunkedSize then
      writeChunk fd (ptr.map (List.drop chunkedSize.toNatClampNeg)) sizes.sharedMemorySize
        fun result =>
          if result < 0 then .done result.toInt
          else if result < intOfSize sizes.sharedMemorySize then
            .done (result + chunkedSize).toInt
          else scepfsdWriteFrom sizes fd ptr size fuel (chunkedSize + result)
    else
      -- the last part is written from `ptr`
      writeChunk fd ptr (size - sizeOfInt chunkedSize) fun ret => .done (ret + chunkedSize).toInt

def scepfsdWrite (sizes : Sizes) (fuel : ℕ) (fd : CInt) (ptr : Option Mem) (size : UInt64) :
    Prog :=
  scepfsdWriteFrom sizes fd ptr size fuel 0

def scepfsdClose (fd : CInt) : Prog := exchange none (.pfsdReqClose fd) false 0

def scepfsdDopen (name : CStr) : Prog := exchange none (.pfsdReqDopen name) false 0

/-- The entry is copied out without a test of the pointer. -/
def scepfsdDread (sizes : Sizes) (fd : CInt) (ioxDirent : Bool) : Prog :=
  exchange none (.pfsdReqDread fd (nonNull ioxDirent)) true sizes.ioxDirent

def scepfsdDclose (fd : CInt) : Prog := exchange none (.pfsdReqDclose fd) false 0

def scepfsdChstat (sizes : Sizes) (name : CStr) (stat : Option Mem) (mask : CInt) : Prog :=
  exchange (stat.map (List.take sizes.ioxStat))
    (.pfsdReqChstat name (nonNull stat.isSome) mask) false 0

def scepfsdGetstat (sizes : Sizes) (name : CStr) (stat : Bool) : Prog :=
  exchange none (.pfsdReqGetstat name (nonNull stat)) stat sizes.ioxStat

def scepfsdMkdir (name : CStr) (mode : CInt) : Prog :=
  exchange none (.pfsdReqMkdir name mode) false 0

def scepfsdRmdir (name : CStr) : Prog := exchange none (.pfsdReqRmdir name) false 0

def scepfsdChdir (name : CStr) : Prog := exchange none (.pfsdReqChdir name) false 0

def scepfsdRemove (name : CStr) : Prog := exchange none (.pfsdReqRemove name) false 0

def scepfsdRename (old new : CStr) : Prog := exchange none (.pfsdReqRename old new) false 0

def scepfsdIoctl (fd cmd : CInt) (arg : Option Mem) : Prog :=
  exchange (arg.map (List.take 1024)) (.pfsdReqIoctl fd cmd (nonNull arg.isSome)) false 0

/-- With the command `HIOCTRANSFER` the argument is a transfer `xfer`; a bad one is refused
without a request, and its buffer is copied both ways.  `arg` stands for both kinds. -/
def scepfsdIoctl2 (fd command : CInt) (arg : Option Mem) (arglen : UInt64) (buf : Bool)
    (buflen : UInt64) (xfer : HddIoctl2Transfer) : Prog :=
  if command = 0x6832 then
    if xfer.buffer = none ∨ 0x100 < xfer.size then .done (-22)
    else
      exchange (xfer.buffer.map (List.take (xfer.size <<< 9).toNat))
        (.pfsdReqIoctl2Hioctransfer fd xfer.sub xfer.sector xfer.size xfer.mode
          (nonNull xfer.buffer.isSome)) true (xfer.size <<< 9).toNat
  else
    exchange (argBytes arg arglen)
      (.pfsdReqIoctl2 fd command (nonNull arg.isSome) (intOfSize arglen) (nonNull buf)
        (intOfSize buflen)) (buf && buflen != 0) buflen.toNat

def scepfsdSymlink (old new : CStr) : Prog := exchange none (.pfsdReqSymlink old new) false 0

def scepfsdReadlink (name : CStr) (buf : Bool) (buflen : UInt64) : Prog :=
  exchange none (.pfsdReqReadlink name (nonNull buf) (intOfSize buflen)) (buf && buflen != 0)
    buflen.toNat

def scepfsdSync (dev : CStr) (flag : CInt) : Prog := exchange none (.pfsdReqSync dev flag) false 0

def scepfsdFormat (dev blockdev : CStr) (arg : Option Mem) (arglen : UInt64) : Prog :=
  exchange (argBytes arg arglen)
    (.pfsdReqFormat dev blockdev (nonNull arg.isSome) (intOfSize arglen)) false 0

def scepfsdMount (fsname devname : CStr) (flag : CInt) (arg : Option Mem) (arglen : UInt64) :
    Prog :=
  exchange (argBytes arg arglen)
    (.pfsdReqMount fsname devname flag (nonNull arg.isSome) (intOfSize arglen)) false 0

def scepfsdUmount (fsname : CStr) : Prog := exchange none (.pfsdReqUmount fsname) false 0

def scepfsdDevctl (name : CStr) (cmd : CInt) (arg : Option Mem) (arglen : UInt64) (buf : Bool)
    (buflen : UInt64) : Prog :=
  exchange (argBytes arg arglen)
    (.pfsdReqDevctl name cmd (nonNull arg.isSome) (intOfSize arglen) (nonNull buf)
      (intOfSize buflen)) (buf && buflen != 0) buflen.toNat

def scepfsdSetReadAhead (enabled : CInt) : Prog :=
  exchange none (.pfsdReqSetreadahead enabled) false 0

def scepfsdGetReadAhead : Prog := exchange none .pfsdReqGetreadahead false 0

/-- `strcpy` copies up to the NUL; the length of the copy is left out. -/
def scepfsdGetMountPoint (inOldmap : CStr) (outNewmap : Bool) : Prog :=
  exchange none (.pfsdReqGetmountpoint inOldmap) outNewmap 0

/-! ## 3. Calls -/

/-- A call of one of the functions, with its arguments. -/
inductive ClientCall
  | open (name : CStr) (flags mode : CInt)
  | lseek (fd offset whence : CInt)
  | lseek64 (fd : CInt) (offset : Int64) (whence : CInt)
  | read (fuel : ℕ) (fd : CInt) (ptr : Bool) (size : UInt64)
  | write (fuel : ℕ) (fd : CInt) (ptr : Option Mem) (size : UInt64)
  | close (fd : CInt)
  | dopen (name : CStr)
  | dread (fd : CInt) (ioxDirent : Bool)
  | dclose (fd : CInt)
  | chstat (name : CStr) (stat : Option Mem) (mask : CInt)
  | getstat (name : CStr) (stat : Bool)
  | mkdir (name : CStr) (mode : CInt)
  | rmdir (name : CStr)
  | chdir (name : CStr)
  | remove (name : CStr)
  | rename (old new : CStr)
  | ioctl (fd cmd : CInt) (arg : Option Mem)
  | ioctl2 (fd command : CInt) (arg : Option Mem) (arglen : UInt64) (buf : Bool)
      (buflen : UInt64) (xfer : HddIoctl2Transfer)
  | symlink (old new : CStr)
  | readlink (name : CStr) (buf : Bool) (buflen : UInt64)
  | sync (dev : CStr) (flag : CInt)
  | format (dev blockdev : CStr) (arg : Option Mem) (arglen : UInt64)
  | mount (fsname devname : CStr) (flag : CInt) (arg : Option Mem) (arglen : UInt64)
  | umount (fsname : CStr)
  | devctl (name : CStr) (cmd : CInt) (arg : Option Mem) (arglen : UInt64) (buf : Bool)
      (buflen : UInt64)
  | setReadAhead (enabled : CInt)
  | getReadAhead
  | getMountPoint (inOldmap : CStr) (outNewmap : Bool)

/-- What the called function does. -/
def ClientCall.prog (sizes : Sizes) : ClientCall → Prog
  | .open name flags mode => scepfsdOpen name flags mode
  | .lseek fd offset whence => scepfsdLseek fd offset whence
  | .lseek64 fd offset whence => scepfsdLseek64 fd offset whence
  | .read fuel fd ptr size => scepfsdRead sizes fuel fd ptr size
  | .write fuel fd ptr size => scepfsdWrite sizes fuel fd ptr size
  | .close fd => scepfsdClose fd
  | .dopen name => scepfsdDopen name
  | .dread fd ioxDirent => scepfsdDread sizes fd ioxDirent
  | .dclose fd => scepfsdDclose fd
  | .chstat name stat mask => scepfsdChstat sizes name stat mask
  | .getstat name stat => scepfsdGetstat sizes name stat
  | .mkdir name mode => scepfsdMkdir name mode
  | .rmdir name => scepfsdRmdir name
  | .chdir name => scepfsdChdir name
  | .remove name => scepfsdRemove name
  | .rename old new => scepfsdRename old new
  | .ioctl fd cmd arg => scepfsdIoctl fd cmd arg
  | .ioctl2 fd command arg arglen buf buflen xfer =>
    scepfsdIoctl2 fd command arg arglen buf buflen xfer
  | .symlink old new => scepfsdSymlink old new
  | .readlink name buf buflen => scepfsdReadlink name buf buflen
  | .sync dev flag => scepfsdSync dev flag
  | .format dev blockdev arg arglen => scepfsdFormat dev blockdev arg arglen
  | .mount fsname devname flag arg arglen => scepfsdMount fsname devname flag arg arglen
  | .umount fsname => scepfsdUmount fsname
  | .devctl name cmd arg arglen buf buflen => scepfsdDevctl name cmd arg arglen buf buflen
  | .setReadAhead enabled => scepfsdSetReadAhead enabled
  | .getReadAhead => scepfsdGetReadAhead
  | .getMountPoint inOldmap outNewmap => scepfsdGetMountPoint inOldmap outNewmap

end PfsShell.Pfsd
