/-
# pfs2tar and iomanX

`src/pfs2tar.c` copies the files of PFS partitions into a tar archive (`--backup`) and back
(`--restore`).  It reaches the disk through iomanX and the APA and PFS drivers behind it, which
are submodules: they are a parameter, a function from the call and a state of their own to the
reply and the next state.

`unsigned int` is a natural number below `2 ^ 32` and `int` an integer.  `time_t` and `long` are
integers: they have 64 bits.
-/
import PfsShell.Lib.Bytes

namespace PfsShell.Pfs2tar

open PfsShell.Lib

/-! ## 1. Constants of `iomanX_port.h` -/

def fioORdonly : ℕ := 0x0001
def fioOWronly : ℕ := 0x0002
def fioOCreat : ℕ := 0x0200
def fioOTrunc : ℕ := 0x0400

def fioMtRdwr : ℕ := 0x00
def fioMtRdonly : ℕ := 0x01

def fioCstMode : ℕ := 0x0001
def fioCstCt : ℕ := 0x0008
def fioCstAt : ℕ := 0x0010
def fioCstMt : ℕ := 0x0020

def fioSIfmt : ℕ := 0xF000
def fioSIflnk : ℕ := 0x4000
def fioSIfreg : ℕ := 0x2000
def fioSIfdir : ℕ := 0x1000

/-- `FIO_S_ISLNK`. -/
def fioSIslnk (m : ℕ) : Bool := m &&& fioSIfmt = fioSIflnk

/-- `FIO_S_ISREG`. -/
def fioSIsreg (m : ℕ) : Bool := m &&& fioSIfmt = fioSIfreg

/-- `FIO_S_ISDIR`. -/
def fioSIsdir (m : ℕ) : Bool := m &&& fioSIfmt = fioSIfdir

/-- `IOMANX_PATH_MAX`. -/
def pathMax : ℕ := 256

/-- `IOMANX_MOUNT_POINT`. -/
def mountPoint : CStr := ascii ['p', 'f', 's', '0', ':']

/-- `"hdd0:"`. -/
def hdd : CStr := ascii ['h', 'd', 'd', '0', ':']

/-- The path separator. -/
def slash : UInt8 := 47

/-! ## 2. Calls -/

/-- A timestamp of iomanX, eight bytes; the year is a little-endian number. -/
structure Stamp where
  unused : UInt8 := 0
  sec : UInt8 := 0
  min : UInt8 := 0
  hour : UInt8 := 0
  day : UInt8 := 0
  month : UInt8 := 0
  yearLow : UInt8 := 0
  yearHigh : UInt8 := 0
  deriving DecidableEq

/-- `iox_stat_t`, less its `private` words. -/
structure IoxStat where
  mode : ℕ := 0
  attr : ℕ := 0
  size : ℕ := 0
  ctime : Stamp := {}
  atime : Stamp := {}
  mtime : Stamp := {}
  hisize : ℕ := 0
  deriving DecidableEq

/-- `iox_dirent_t`, with its name as a string. -/
structure IoxDirent where
  stat : IoxStat := {}
  name : CStr := []
  deriving DecidableEq

/-- The calls of pfs2tar.  `dread` is given a buffer, with what was in it before. -/
inductive Call
  | getstat (path : CStr)
  | dopen (path : CStr)
  | dread (fd : ℤ) (de : IoxDirent)
  | close (fd : ℤ)
  | open (path : CStr) (flags mode : ℕ)
  | read (fd : ℤ) (size : ℕ)
  | write (fd : ℤ) (data : List UInt8)
  | readlink (path : CStr) (size : ℕ)
  | mkdir (path : CStr) (mode : ℕ)
  | chstat (path : CStr) (st : IoxStat) (mask : ℕ)
  | symlink (old new : CStr)
  | mount (fsname devname : CStr) (flag : ℕ)
  | umount (fsname : CStr)

/-- What a call returns: the value, and what it put into the `iox_stat_t`, the `iox_dirent_t` or
the buffer it was given. -/
structure Reply where
  ret : ℤ := 0
  stat : IoxStat := {}
  dirent : IoxDirent := {}
  data : List UInt8 := []

/-- iomanX over its own state. -/
abbrev IomanX (σ : Type) := Call → σ → Reply × σ

/-! ## 3. Messages -/

/-- What pfs2tar prints about an entry or a partition.  The lines that only show progress are
left out. -/
inductive Message
  /-- `"(!) %s: too large file. Skipping.\n"` -/
  | tooLarge (inPath : CStr)
  /-- `"(!) %s: path is too long. Skipping.\n"` -/
  | pathTooLong (inPath : CStr)
  /-- `"(!) %s: %s.\n"`, with `strerror(-result)` -/
  | mountFailed (mountPoint : CStr) (result : ℤ)
  /-- `"(!) dclose: failed with %d\n"` -/
  | dcloseFailed (result : ℤ)
  /-- `"(!) dopen: failed with %d\n"` -/
  | dopenFailed (dh : ℤ)
  /-- `"Skipping existing file: %s\n"` -/
  | skippingExisting (name : CStr)
  /-- `"(!) Failed to create symlink: %s -> %s (%d)\n"` -/
  | symlinkFailed (fullPath linkTarget : CStr) (res : ℤ)
  /-- `"Restoring symlink: %s -> %s\n"` -/
  | restoringSymlink (fullPath linkTarget : CStr)
  /-- `"(!) Failed to create file: %s\n"` -/
  | createFailed (fullPath : CStr)
  /-- `"Restoring file: %s (type: %c, size: %u, mask: %o)\n"` -/
  | restoringFile (name : CStr) (type : UInt8) (size posixMode : ℕ)
  deriving DecidableEq

/-- What the variables hold that pfs2tar does not initialise: the `iox_dirent_t` of a directory
loop, and the buffer of a chunk of a file, which is a new variable for each value of
`remaining`. -/
structure Uninit where
  dirent : IoxDirent := {}
  buf : ℕ → ℕ → UInt8 := fun _ _ => 0

end PfsShell.Pfs2tar
