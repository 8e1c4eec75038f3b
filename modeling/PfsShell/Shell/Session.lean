/-
# The shell and what it runs on

`src/shell.c` reads commands and runs them on one disk.  It reaches the disk through iomanX and
the drivers behind it, which are submodules, and the host's files through the system: both are a
parameter, a function from the call and a state of their own to the reply and the next state.

A command is a function on the session: the context, iomanX and the host, and what has been
called and printed so far.  It has no result when the process ends in it (`exit`), when it
overruns one of its buffers, or when a loop does not end within its fuel.
-/
import PfsShell.Lib.Bytes

namespace PfsShell.Shell

open PfsShell.Lib

/-! ## 1. Constants of `iomanX_port.h` -/

def fioORdonly : ℕ := 0x0001
def fioOWronly : ℕ := 0x0002
def fioORdwr : ℕ := 0x0003
def fioOCreat : ℕ := 0x0200
def fioOTrunc : ℕ := 0x0400

def hdiocTotalsector : ℕ := 0x4802
def pdiocZonesz : ℕ := 0x5001
def pdiocZonefree : ℕ := 0x5002
def hiocaddsub : ℕ := 0x6801

/-- `O_RDONLY`, `O_WRONLY`, `O_CREAT` and `O_TRUNC` of the host. -/
def oRdonly : ℕ := 0x0000
def oWronly : ℕ := 0x0001
def oCreat : ℕ := 0x0040
def oTrunc : ℕ := 0x0200

/-- `"pfs0:"`. -/
def pfs : CStr := ascii ['p', 'f', 's', '0', ':']

/-- `"hdd0:"`. -/
def hdd : CStr := ascii ['h', 'd', 'd', '0', ':']

/-- The path separator. -/
def slash : UInt8 := 47

/-! ## 2. Calls -/

/-- `iox_stat_t`, as far as the shell reads it. -/
structure IoxStat where
  mode : UInt32 := 0
  attr : UInt32 := 0
  size : UInt32 := 0
  mtime : List UInt8 := []
  private0 : UInt32 := 0
  private1 : UInt32 := 0
  private2 : UInt32 := 0
  private5 : UInt32 := 0
  deriving DecidableEq

/-- `iox_dirent_t`. -/
structure IoxDirent where
  stat : IoxStat := {}
  name : CStr := []
  deriving DecidableEq

/-- What the shell calls: iomanX, the drivers' initialisation, and the host's files.  `dread` is
given a buffer, with what was in it before. -/
inductive Call
  | mount (fsname devname : CStr) (flag : ℕ)
  | umount (fsname : CStr)
  | chdir (path : CStr)
  | mkdir (path : CStr) (mode : ℕ)
  | rmdir (path : CStr)
  | remove (path : CStr)
  | rename (old new : CStr)
  | open (path : CStr) (flags mode : ℕ)
  | close (fd : ℤ)
  | read (fd : ℤ) (size : ℕ)
  | write (fd : ℤ) (data : List UInt8)
  | dopen (path : CStr)
  | dread (fd : ℤ) (de : IoxDirent)
  | getstat (path : CStr)
  | format (dev blockdev : CStr) (args : List ℕ)
  | devctl (dev : CStr) (cmd : ℕ)
  | ioctl2 (fd : ℤ) (cmd : ℕ) (arg : CStr)
  | setAtadDevicePath (path : CStr)
  | initApa
  | initPfs
  | initHdlfs
  | hostChdir (path : CStr)
  | hostGetcwd (size : ℕ)
  | hostOpen (path : CStr) (flags mode : ℕ)
  | hostClose (fd : ℤ)
  | hostRead (fd : ℤ) (size : ℕ)
  | hostWrite (fd : ℤ) (data : List UInt8)
  deriving DecidableEq

/-- What a call returns: the value, and what it put into the structure or the buffer it was
given. -/
structure Reply where
  ret : ℤ := 0
  stat : IoxStat := {}
  dirent : IoxDirent := {}
  data : List UInt8 := []

/-- iomanX, the drivers and the host, over their own state. -/
abbrev IomanX (σ : Type) := Call → σ → Reply × σ

/-- A call that was made, with the value it returned. -/
structure CallRecord where
  call : Call
  ret : ℤ
  deriving DecidableEq

/-! ## 3. The session -/

/-- The units `do_df` prints sizes in. -/
inductive SizeUnit
  | miB
  | giB
  deriving DecidableEq

/-- What the shell and `hl.c` print, but for headings and the text of `help`. -/
inductive Message
  /-- `"(!) No device selected; use `device' command.\n"` -/
  | noDevice
  /-- `"(!) Device already selected; restart first.\n"` -/
  | deviceSelected
  /-- `"(!) No partition mounted; use `mount' command.\n"` -/
  | noPartition
  /-- `"(!) Partition already mounted; use `umount' first.\n"` -/
  | partitionMounted
  /-- `"(!) %s: unknown command or bad number of arguments.\n"` -/
  | unknownCommand (name : CStr)
  /-- `"%s\n"` -/
  | line (text : CStr)
  /-- `"(!) %s: %s.\n"`, with `strerror(-result)` -/
  | failed (what : CStr) (result : ℤ)
  /-- `perror(what)` -/
  | perror (what : CStr)
  /-- `"(!) %s: wrote %d bytes instead of %lu.\n"` -/
  | wroteShort (path : CStr) (result len : ℤ)
  /-- `"(!) Unable to open %s: %s.\n"` -/
  | unableToOpen (path : CStr) (result : ℤ)
  /-- `"(!) Unable to get stats for %s: %s.\n"` -/
  | unableToGetStats (path : CStr) (result : ℤ)
  /-- The table of `do_df`. -/
  | df (device : CStr) (sizeUnit : SizeUnit) (size used avail capacity : UInt32)
  /-- `"Use: initialize yes to create APA partitioning.\n"` -/
  | useInitialize
  /-- `"%s: partition already exists.\n"` -/
  | partitionExists (name : CStr)
  /-- `"%s: Partition size should end with literal M or G.\n"` -/
  | badSize (size : CStr)
  /-- `"%s: wrong fs type. Acceptable fs types: [...].\n"` -/
  | badFsType (fsType : CStr)
  /-- `"Main partition of %s created.\n"` -/
  | mainCreated (size : CStr)
  /-- `"Sub partition of %s created.\n"` -/
  | subCreated (size : CStr)
  /-- A line of `list_dir_objects`. -/
  | object (verbose : Bool) (de : IoxDirent)
  /-- A line of `lspart`. -/
  | partition (verbose : Bool) (de : IoxDirent)
  /-- `"dclose: failed with %d\n"` -/
  | dcloseFailed (result : ℤ)
  /-- `"dopen: \"%s\" failed with %d\n"` -/
  | dopenFailed (path : CStr) (result : ℤ)
  /-- `"%s: create failed with %d\n"` -/
  | createFailed (path : CStr) (result : ℤ)
  /-- `"%s: open failed with %d\n"` -/
  | openFailed (path : CStr) (result : ℤ)
  /-- `"%s: write failed with %d\n"` -/
  | writeFailed (path : CStr) (result : ℤ)
  /-- `"%s: read failed with %d\n"` -/
  | readFailed (path : CStr) (result : ℤ)
  /-- `"close: failed with %d\n"` -/
  | closeFailed (result : ℤ)
  /-- `"pfs0: mount of \"%s\" failed with %d\n"` -/
  | mountFailed (mountPoint : CStr) (result : ℤ)
  /-- `"pfs0: umount failed with %d\n"` -/
  | umountFailed (result : ℤ)
  deriving DecidableEq

/-- `context_t`. -/
structure Context where
  setup : Bool := false
  mountPoint : CStr := []
  mount : Bool := false
  path : CStr := [slash]
  deriving DecidableEq

/-- The shell while it runs.  `calls` are the calls made so far, the earliest first. -/
structure Session (σ : Type) where
  ctx : Context := {}
  totalSectors : UInt32 := 0
  world : σ
  calls : List CallRecord := []
  said : List Message := []

section Calls

variable {σ : Type}

/-- One call. -/
def Session.call (io : IomanX σ) (c : Call) (s : Session σ) : Reply × Session σ :=
  ((io c s.world).1, { s with
    world := (io c s.world).2
    calls := s.calls ++ [⟨c, (io c s.world).1.ret⟩] })

theorem Session.call_world {io : IomanX σ} {c : Call} {s : Session σ} {reply : Reply} {world : σ}
    (h : io c s.world = (reply, world)) : ∃ t, s.call io c = (reply, t) ∧ t.world = world := by
  refine ⟨(s.call io c).2, ?_, ?_⟩
  · rw [Session.call, h]
  · rw [Session.call, h]

theorem Session.call_calls {io : IomanX σ} {c : Call} {reply : Reply} {s t : Session σ}
    (h : s.call io c = (reply, t)) : t.calls = s.calls ++ [⟨c, reply.ret⟩] := by
  cases h
  rfl

/-- `printf`, `fprintf` and `perror`. -/
def Session.say (m : Message) (s : Session σ) : Session σ := { s with said := s.said ++ [m] }

/-- A `char[n]` that a text is written to. -/
def buffer (n : ℕ) (text : CStr) : Option CStr := if text.length < n then some text else none

/-- `strrchr(s, c) - s`. -/
def strrchr (c : UInt8) : CStr → Option ℕ
  | [] => none
  | x :: s =>
    match strrchr c s with
    | some i => some (i + 1)
    | none => if x = c then some 0 else none

end Calls

end PfsShell.Shell
