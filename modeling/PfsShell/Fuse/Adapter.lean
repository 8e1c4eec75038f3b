/-
# The FUSE operations

The operations of `src/iomanx_adapter.c` that move data: a read and a write first seek, as FUSE
passes the offset with every one of them, and `readdir` hands the entries of a directory to a
function of FUSE.

The driver behind them is reached through iomanX, a submodule, which is a parameter here: a
function from the call and a state of its own to the reply and the next state.  `int` is an
integer of 32 bits and `off_t` one of 64; a descriptor is kept in the 64 bits of `fi->fh`.
-/
import PfsShell.Fuse.Stat

namespace PfsShell.Fuse

open PfsShell.Lib
open PfsShell.Pfs2tar (IoxDirent)

/-! ## 1. iomanX -/

/-- The calls of these operations.  `dread` is given a buffer, with what was in it before. -/
inductive Call
  | lseek64 (fd offset : ℤ) (whence : ℕ)
  | lseek (fd offset : ℤ) (whence : ℕ)
  | read (fd size : ℤ)
  | write (fd : ℤ) (data : List UInt8) (size : ℤ)
  | dopen (path : CStr)
  | dread (fd : ℤ) (de : IoxDirent)
  | close (fd : ℤ)

/-- What a call returns: the value, and what it put into the structure or the buffer it was
given. -/
structure Reply where
  ret : ℤ := 0
  dirent : IoxDirent := {}
  data : List UInt8 := []

/-- iomanX over its own state. -/
abbrev IomanX (σ : Type) := Call → σ → Reply × σ

/-- `FIO_SEEK_SET`. -/
def fioSeekSet : ℕ := 0

/-- The conversion to `int`. -/
def toInt (z : ℤ) : ℤ := z.bmod (2 ^ 32)

/-- `struct fuse_file_info`. -/
structure FuseFileInfo where
  fh : ℕ

/-! ## 2. Transfers -/

section Transfers

variable {σ : Type} (io : IomanX σ)

/-- `iomanx_adapter_lseek`.  -48 is what iomanX answers when the driver has no `lseek64`. -/
def iomanxAdapterLseek (offset : ℤ) (whence : ℕ) (fi : Option FuseFileInfo) (w : σ) : ℤ × σ :=
  match fi with
  | none => (-2, w)
  | some fi =>
    let (reply, w) := io (.lseek64 (toInt fi.fh) offset whence) w
    let res := toInt reply.ret
    if res = -48 then
      let (reply, w) := io (.lseek (toInt fi.fh) (toInt offset) whence) w
      (reply.ret, w)
    else (res, w)

/-- `iomanx_adapter_read`. -/
def iomanxAdapterRead (size : ℕ) (offset : ℤ) (fi : Option FuseFileInfo) (w : σ) : Reply × σ :=
  let (res, w) := iomanxAdapterLseek io offset fioSeekSet fi w
  if res < 0 then ({ ret := res }, w)
  else
    match fi with
    | none => ({}, w)
    | some fi => io (.read (toInt fi.fh) (toInt size)) w

/-- `iomanx_adapter_write`. -/
def iomanxAdapterWrite (buf : List UInt8) (size : ℕ) (offset : ℤ) (fi : Option FuseFileInfo)
    (w : σ) : Reply × σ :=
  let (res, w) := iomanxAdapterLseek io offset fioSeekSet fi w
  if res < 0 then ({ ret := res }, w)
  else
    match fi with
    | none => ({}, w)
    | some fi => io (.write (toInt fi.fh) buf (toInt size)) w

end Transfers

/-! ## 3. Directories -/

section Directories

variable {σ β : Type} (io : IomanX σ)

end Directories

end PfsShell.Fuse
