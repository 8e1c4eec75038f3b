/-
# The state of pfsd and the calls it makes

`pfsd.c` keeps three fixed tables in static memory: the mounts (`g_mountlist_items`, 32 slots
that are filled and freed in any order, a slot with `m_pid == 0` being free), the open files
(`g_openfile_items`, compacted, counted by `g_openfile_count`) and the poll table
(`g_connection_pollfds`).  A client is known by the socket it is connected on, which the code
calls `pid`.

Everything the daemon does to the PS2 disk goes through the `scepfs*` wrappers of
`pfslib_compat.h`, one for each iomanX call.  iomanX is a submodule and its code is not here,
so it is a parameter: any function from the call and iomanX's own state to a result and the
next state (`IomanX`).  A theorem about "every outcome of the iomanX calls" is a theorem about
every such function.

Beside the source's variables the state carries three records that no code reads: what was
written to the sockets (`sent`), the calls made (`calls`) and, for every open that succeeded,
what the daemon had translated the name to (`opened`).
-/
import PfsShell.Lib.Scan
import PfsShell.Lib.Bytes

namespace PfsShell.Pfsd

open PfsShell.Lib

/-- C's `int`. -/
abbrev CInt := Int32

/-- The contents of the shared memory, or of what a `void *` points to. -/
abbrev Mem := List UInt8

/-! ## 1. The calls -/

/-- `hddIoctl2Transfer_t`. -/
structure HddIoctl2Transfer where
  sub : UInt32
  sector : UInt32
  size : UInt32
  mode : UInt32
  buffer : Option Mem
  deriving DecidableEq

/-- The calls of `pfslib_compat.h`.  A pointer argument is `none` for `NULL` and otherwise the
memory it points to. -/
inductive Call
  | scepfsOpen (name : CStr) (flags mode : CInt)
  | scepfsLseek (fd offset whence : CInt)
  | scepfsLseek64 (fd : CInt) (offset : Int64) (whence : CInt)
  | scepfsRead (fd : CInt) (ptr : Option Mem) (size : CInt)
  | scepfsWrite (fd : CInt) (ptr : Option Mem) (size : CInt)
  | scepfsClose (fd : CInt)
  | scepfsDopen (name : CStr)
  | scepfsDread (fd : CInt) (ioxDirent : Option Mem)
  | scepfsDclose (fd : CInt)
  | scepfsChstat (name : CStr) (stat : Option Mem) (mask : CInt)
  | scepfsGetstat (name : CStr) (stat : Option Mem)
  | scepfsMkdir (name : CStr) (mode : CInt)
  | scepfsRmdir (name : CStr)
  | scepfsChdir (name : CStr)
  | scepfsRemove (name : CStr)
  | scepfsRename (old new : CStr)
  | scepfsIoctl (fd cmd : CInt) (arg : Option Mem)
  | scepfsIoctl2 (fd command : CInt) (arg : Option Mem) (arglen : CInt) (buf : Option Mem)
      (buflen : CInt)
  | scepfsIoctl2Transfer (fd : CInt) (xfer : HddIoctl2Transfer)
  | scepfsSymlink (old new : CStr)
  | scepfsReadlink (name : CStr) (buf : Option Mem) (buflen : CInt)
  | scepfsSync (dev : CStr) (flag : CInt)
  | scepfsFormat (dev blockdev : CStr) (arg : Option Mem) (arglen : CInt)
  | scepfsMount (fsname devname : CStr) (flag : CInt) (arg : Option Mem) (arglen : CInt)
  | scepfsUmount (fsname : CStr)
  | scepfsDevctl (name : CStr) (cmd : CInt) (arg : Option Mem) (arglen : CInt)
      (buf : Option Mem) (buflen : CInt)
  | ioctlBlkraset (enabled : CInt)
  | ioctlBlkraget
  deriving DecidableEq

/-- The calls that open a descriptor. -/
def Call.Opens : Call → Prop
  | .scepfsOpen .. | .scepfsDopen _ => True
  | _ => False

instance : DecidablePred Call.Opens := fun c => by
  cases c <;> first | exact .isTrue trivial | exact .isFalse id

/-- The calls that are `iomanX_close` of a descriptor. -/
def Call.closes : Call → Option CInt
  | .scepfsClose fd | .scepfsDclose fd => some fd
  | _ => none

/-- The calls that change what is mounted. -/
def Call.Mounts : Call → Prop
  | .scepfsMount .. | .scepfsUmount _ => True
  | _ => False

/-- The paths of a call that iomanX resolves to a unit. -/
def Call.paths : Call → List CStr
  | .scepfsOpen n .. | .scepfsDopen n | .scepfsChstat n .. | .scepfsGetstat n _
  | .scepfsMkdir n _ | .scepfsRmdir n | .scepfsChdir n | .scepfsRemove n
  | .scepfsReadlink n .. | .scepfsSync n _ | .scepfsDevctl n .. => [n]
  | .scepfsRename o n | .scepfsSymlink o n => [o, n]
  | _ => []

/-- The descriptor a call is made on. -/
def Call.fd : Call → Option CInt
  | .scepfsLseek fd .. | .scepfsLseek64 fd .. | .scepfsRead fd .. | .scepfsWrite fd ..
  | .scepfsClose fd | .scepfsDread fd _ | .scepfsDclose fd | .scepfsIoctl fd ..
  | .scepfsIoctl2 fd .. | .scepfsIoctl2Transfer fd _ => some fd
  | _ => none

/-- The call was given the shared memory to write to. -/
def Call.usesShm : Call → Bool
  | .scepfsRead _ p _ | .scepfsDread _ p | .scepfsGetstat _ p | .scepfsIoctl _ _ p
  | .scepfsIoctl2 _ _ _ _ p _ | .scepfsReadlink _ p _ | .scepfsDevctl _ _ _ _ p _ => p.isSome
  | .scepfsIoctl2Transfer _ x => x.buffer.isSome
  | _ => false

/-- What a call returns: the C return value (of `lseek64` in `ret64`), and the memory it was
given a pointer to, as it left it. -/
structure Ret where
  ret : CInt := 0
  ret64 : Int64 := 0
  mem : Option Mem := none
  deriving DecidableEq

/-- iomanX below the wrappers, as a machine with states in `σ`. -/
abbrev IomanX (σ : Type) := Call → σ → Ret × σ

/-! ## 2. The tables -/

/-- `mountlist_item_t`. -/
structure MountlistItem where
  mPid : CInt := 0
  mStrFsPrefix : CStr := []
  mStrContainerPath : CStr := []
  mStrDevPrefix : CStr := []
  deriving DecidableEq

/-- `openfile_item_t`. -/
structure OpenfileItem where
  mFd : CInt := 0
  mPid : CInt := 0
  mMountlistIndex : ℕ := 0
  deriving DecidableEq

/-- The two tables of the bookkeeping, each as its memory. -/
structure Tables where
  gOpenfileCount : ℤ := 0
  gOpenfileItems : ℕ → OpenfileItem := fun _ => {}
  gMountlistItems : ℕ → MountlistItem := fun _ => {}

/-- The poll table.  `fd` is all of a `struct pollfd` that outlives a poll; `events` is 1 in
every entry.  The array has 32 entries; what `add_new_client` writes behind the last of them
is an entry like the others here. -/
structure Conns where
  gCurrentClientCount : ℕ := 0
  gConnectionPollfds : ℕ → CInt := fun _ => 0
  socketFd : CInt := 0

/-- One call the daemon made, for which client, and what it returned. -/
structure CallRecord where
  pid : CInt
  call : Call
  ret : CInt

/-- One open that succeeded: the name the client sent, the path iomanX was given, the slot
the name was translated under (32 when under none) and what that slot held. -/
structure Opened where
  fd : CInt
  pid : CInt
  name : CStr
  path : CStr
  slot : ℕ
  item : MountlistItem

/-- The daemon.  `world` is iomanX's state, `shm` the shared memory. -/
structure Daemon (σ : Type) extends Tables, Conns where
  shm : Mem := []
  world : σ
  sent : List (CInt × List UInt8) := []
  calls : List CallRecord := []
  opened : List Opened := []

namespace Tables

/-- The entries of the open-file table, in order. -/
def openfiles (t : Tables) : List OpenfileItem :=
  live t.gOpenfileItems t.gOpenfileCount.toNat

/-- Slot `i` is in use. -/
def Occupied (t : Tables) (i : ℕ) : Prop := i < 32 ∧ (t.gMountlistItems i).mPid ≠ 0

instance (t : Tables) (i : ℕ) : Decidable (t.Occupied i) :=
  inferInstanceAs (Decidable (_ ∧ _))

/-- Slot `i` is in use by client `p`. -/
def OwnedBy (t : Tables) (p : CInt) (i : ℕ) : Prop := i < 32 ∧ (t.gMountlistItems i).mPid = p

end Tables

/-- The sockets of the connected clients, in poll-table order. -/
def Conns.clients (c : Conns) : List CInt := live c.gConnectionPollfds c.gCurrentClientCount

/-- pfsd when `main` enters its loop: no client, no mount, no file, and the listening socket
in the first entry of the poll table. -/
def start {σ : Type} (socketFd : CInt) (shm : Mem) (world : σ) : Daemon σ where
  gConnectionPollfds := Function.update (fun _ => 0) 0 socketFd
  socketFd := socketFd
  shm := shm
  world := world

end PfsShell.Pfsd
