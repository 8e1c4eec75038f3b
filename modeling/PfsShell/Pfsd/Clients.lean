/-
# Clients: connecting, hanging up, and the events the daemon handles

`add_new_client` and `cleanup_client` of `pfsd.c`, and the daemon as a step function over the
three things that can happen to it: a connection arrives, a client's request arrives, a client
is gone (`handle`).

`cleanup_client` closes the client's files in a loop that looks at the same table entry again
after each close.  A close that keeps failing keeps the loop where it is, so the loop is given
fuel; `handle` has no result when it runs out.
-/
import PfsShell.Lib.Run
import PfsShell.Pfsd.Rpc

namespace PfsShell.Pfsd

open PfsShell.Lib

/-! ## 1. The poll table -/

/-- What the system calls of `add_new_client` return: `accept`, `get_pid_from_socket_fd`,
`capget`, and the capability set `capget` fills in. -/
structure Accept where
  s : CInt
  cuhPid : CInt
  capget : CInt
  mEffective : UInt32

/-- `add_new_client`. -/
def Conns.addNewClient (a : Accept) (c : Conns) : Conns :=
  if a.s < 0 then c
  else if 32 ≤ c.gCurrentClientCount then c
  else if a.cuhPid = -1 ∨ a.capget ≠ 0 then c
  else if a.mEffective &&& 0x20000 = 0 then c
  else
    { c with
      gCurrentClientCount := c.gCurrentClientCount + 1
      gConnectionPollfds := Function.update
        (Function.update c.gConnectionPollfds c.gCurrentClientCount a.s)
        (c.gCurrentClientCount + 1) c.socketFd }

/-- The end of `cleanup_client`: every later entry moves down one place, the listening
socket's with them. -/
def Conns.removeClient (inClientId : ℕ) (c : Conns) : Conns :=
  { c with
    gCurrentClientCount := c.gCurrentClientCount - 1
    gConnectionPollfds := shiftDown c.gConnectionPollfds inClientId
      (c.gCurrentClientCount - inClientId) }

section Cleanup

variable {σ : Type} (io : IomanX σ)

/-- The loop of `cleanup_client` over the open files. -/
def cleanupFiles (inClientId : ℕ) : ℕ → ℕ → Daemon σ → Option (Daemon σ)
  | 0, _, _ => none
  | fuel + 1, i, s =>
    if (i : ℤ) < s.gOpenfileCount then
      if (s.gOpenfileItems i).mPid = s.gConnectionPollfds inClientId then
        -- `i -= 1` in the body and `i += 1` in the header
        cleanupFiles inClientId fuel i
          (rpcCommandClose io (s.gOpenfileItems i).mFd (s.gOpenfileItems i).mPid s).2
      else cleanupFiles inClientId fuel (i + 1) s
    else some s

/-- The loop of `cleanup_client` over the mounts, with `k` slots left from slot `i`. -/
def cleanupMounts (inClientId : ℕ) : ℕ → ℕ → Daemon σ → Daemon σ
  | 0, _, s => s
  | k + 1, i, s =>
    cleanupMounts inClientId k (i + 1)
      (if (s.gMountlistItems i).mPid = s.gConnectionPollfds inClientId then
        (rpcCommandUmount io (s.gMountlistItems i).mStrFsPrefix (s.gMountlistItems i).mPid s).2
      else s)

/-- `cleanup_client`. -/
def cleanupClient (fuel : ℕ) (inClientId : ℕ) (s : Daemon σ) : Option (Daemon σ) :=
  (cleanupFiles io inClientId fuel 0 s).map fun s =>
    let s := cleanupMounts io inClientId 32 0 s
    { s with toConns := s.removeClient inClientId }

/-! ## 2. Events -/

/-- What can happen to the daemon between two polls. -/
inductive Event
  | connect (a : Accept)
  | request (pfd : ℕ) (choice : Choice) (req : Option Request)
  | hangup (pfd : ℕ) (fuel : ℕ)

/-- `accept` fails or gives a descriptor that is not in use.  It is never 0: `scepfsInit` has
put a disk on the lowest descriptor before any socket exists. -/
def Conns.Fresh (c : Conns) (s : CInt) : Prop :=
  s < 0 ∨ (0 < s ∧ s ≠ c.socketFd ∧ s ∉ c.clients)

instance (c : Conns) (s : CInt) : Decidable (c.Fresh s) :=
  inferInstanceAs (Decidable (_ ∨ _))

/-- One event.  There is no result when the event cannot happen in this state, or when the
cleanup has not ended within its fuel. -/
def handle : Event → Daemon σ → Option (Daemon σ)
  | .connect a, s => if s.Fresh a.s then some { s with toConns := s.addNewClient a } else none
  | .request pfd choice req, s =>
    if pfd < s.gCurrentClientCount then some (eventHandlerFunc io pfd choice req s).2 else none
  | .hangup pfd fuel, s =>
    if pfd < s.gCurrentClientCount then cleanupClient io fuel pfd s else none

/-- The states the daemon can be in between two events, when iomanX starts in state `w`. -/
def Reachable (w : σ) (s : Daemon σ) : Prop :=
  ∃ (socketFd : CInt) (shm : Mem), Reaches (handle io) (start socketFd shm w) s

end Cleanup

end PfsShell.Pfsd
