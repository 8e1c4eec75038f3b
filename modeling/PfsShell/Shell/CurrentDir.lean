/-
# The current directory and the mount

`ctx->path` is written by `do_cd`, `ctx->mount` by `do_mount` and `do_umount`, and the commands on
files put the one behind the `"pfs0:"` that the other stands for.  `Session.Current` says that they
belong together: while a partition is mounted, the directory is the root, or the last one that
`iomanX_chdir` accepted since that partition was mounted.

Neither `do_mount` nor `do_umount` sets the directory back.  So they belong together in every
session reached exactly when every mount that succeeds is made with the shell at the root
(`current_of_run`); after one that is not, the shell is in a directory of the partition that was
mounted before (`stale_directory`).
-/
import PfsShell.Lib.Partial
import PfsShell.Shell.Exec

namespace PfsShell.Shell

open PfsShell.Lib

variable {σ : Type}

/-! ## 1. What the directory should be -/

/-- The last path that `iomanX_chdir` accepted since the last mount, after one more call. -/
def chdirAfter (acc : Option CStr) (r : CallRecord) : Option CStr :=
  match r.call with
  | .mount .. => if 0 ≤ r.ret then none else acc
  | .chdir path => if 0 ≤ r.ret then some path else acc
  | _ => acc

/-- The last path that `iomanX_chdir` accepted since the last mount that succeeded. -/
def lastChdir (calls : List CallRecord) : Option CStr := calls.foldl chdirAfter none

/-- **The directory belongs to the mount.** -/
def Session.Current (s : Session σ) : Prop :=
  s.ctx.mount = true → s.ctx.path = [slash] ∨ lastChdir s.calls = some (pfs ++ s.ctx.path)

/-- `argv` is a `mount` that succeeds. -/
structure Mounts (io : IomanX σ) (argv : List CStr) (s : Session σ) : Prop where
  name : argv.head? = some (ascii ['m', 'o', 'u', 'n', 't'])
  args : argv.length = 2
  setup : s.ctx.setup = true
  unmounted : s.ctx.mount = false
  fits : (hdd ++ arg argv 1).length < 256
  succeeds : 0 ≤ (io (.mount pfs (hdd ++ arg argv 1) 0) s.world).1.ret

/-- A mount that succeeds is made in the root directory. -/
def MountsAtRoot (io : IomanX σ) (argv : List CStr) (s : Session σ) : Prop :=
  Mounts io argv s → s.ctx.path = [slash]

/-! ## 2. Commands that leave both alone -/

/-- The directory and the mount are as they were, and no call was made that concerns them. -/
structure Steady (s s' : Session σ) : Prop where
  path : s'.ctx.path = s.ctx.path
  mount : s'.ctx.mount = s.ctx.mount
  lastChdir : lastChdir s'.calls = lastChdir s.calls

/-- The calls that are neither a mount nor a change of directory. -/
def Call.Plain : Call → Prop
  | .mount .. | .chdir _ => False
  | _ => True

/-- The command leaves the directory and the mount alone. -/
abbrev SteadyFrom (s : Session σ) (r : Outcome σ) : Prop := Only (fun r => Steady s r.2) r

section Plain

variable {io : IomanX σ} {s t u : Session σ} {uninit : IoxDirent} {fuel : ℕ} {argv : List CStr}

theorem Steady.refl (s : Session σ) : Steady s s := ⟨rfl, rfl, rfl⟩

theorem Steady.trans (h : Steady s t) (h' : Steady t u) : Steady s u :=
  ⟨h'.path.trans h.path, h'.mount.trans h.mount, h'.lastChdir.trans h.lastChdir⟩

theorem lastChdir_concat (calls : List CallRecord) (r : CallRecord) :
    lastChdir (calls ++ [r]) = chdirAfter (lastChdir calls) r := by
  rw [lastChdir, List.foldl_append]
  rfl

theorem Steady.call (h : Steady s t) {c : Call} (hc : c.Plain) : Steady s (t.call io c).2 := by
  refine h.trans ⟨rfl, rfl, ?_⟩
  show Shell.lastChdir (t.calls ++ [_]) = Shell.lastChdir t.calls
  rw [lastChdir_concat]
  cases c with
  | mount fsname devname flag => exact hc.elim
  | chdir path => exact hc.elim
  | _ => rfl

theorem Steady.say (h : Steady s t) (m : Message) : Steady s (t.say m) := h.trans ⟨rfl, rfl, rfl⟩

variable (io) in
/-- The session after a call. -/
theorem Steady.called (h : Steady s t) (c : Call) (hc : c.Plain) :
    ∃ reply u, t.call io c = (reply, u) ∧ Steady s u := ⟨_, _, rfl, h.call hc⟩

theorem onPath_steady {tmp : Option CStr} {c : CStr → Call} (hc : ∀ path, (c path).Plain) :
    SteadyFrom s (onPath io tmp c s) := by
  refine Only.map (P := fun _ => True) (fun _ _ => trivial) fun tmp _ => ?_
  obtain ⟨reply, t, heq, ht⟩ := (Steady.refl s).called io (c tmp) (hc tmp)
  simp only [heq]
  split
  · exact ht.say _
  · exact ht

theorem copyLoop_steady {read : Call} {write : List UInt8 → Call} {complain : ℤ → ℤ → Message}
    (hread : read.Plain) (hwrite : ∀ data, (write data).Plain) :
    ∀ {fuel : ℕ} {result : ℤ} {t : Session σ}, Steady s t →
      SteadyFrom s (copyLoop io read write complain fuel result t)
  | 0, _, _, _ => .none
  | fuel + 1, result, t, ht => by
    obtain ⟨len, u, heq, hu⟩ := ht.called io read hread
    simp only [copyLoop, heq]
    split
    · obtain ⟨written, v, heq, hv⟩ :=
        hu.called io (write (len.data.take len.ret.toNat)) (hwrite _)
      simp only [heq]
      split
      · exact .some (hv.say _)
      · exact copyLoop_steady hread hwrite hv
    · exact .some hu

theorem doGet_steady : SteadyFrom s (doGet io fuel argv s) := by
  refine Only.bind (P := fun _ => True) (fun _ _ => trivial) fun tmp _ => ?_
  obtain ⟨inFd, t, heq, ht⟩ := (Steady.refl s).called io (.open tmp fioORdonly 0) trivial
  simp only [heq]
  split
  · obtain ⟨outFd, u, heq, hu⟩ :=
      ht.called io (.hostOpen (arg argv 1) (oCreat ||| oWronly) 0o664) trivial
    simp only [heq]
    split
    · refine Only.map (copyLoop_steady (by trivial) (fun _ => by trivial) hu) fun r hr => ?_
      exact (hr.call (by trivial)).call (by trivial)
    · exact .some ((hu.say _).call (by trivial))
  · exact .some (ht.say _)

theorem doPut_steady : SteadyFrom s (doPut io fuel argv s) := by
  refine Only.bind (P := fun _ => True) (fun _ _ => trivial) fun tmp _ => ?_
  obtain ⟨inFd, t, heq, ht⟩ := (Steady.refl s).called io (.hostOpen (arg argv 1) oRdonly 0) trivial
  simp only [heq]
  split
  · obtain ⟨outFd, u, heq, hu⟩ :=
      ht.called io (.open tmp (fioOWronly ||| fioOCreat) 0o666) trivial
    simp only [heq]
    split
    · refine Only.map (copyLoop_steady (by trivial) (fun _ => by trivial) hu) fun r hr => ?_
      exact (hr.call (by trivial)).call (by trivial)
    · exact .some ((hu.say _).call (by trivial))
  · exact .some (ht.say _)

theorem dreadLoop_steady {dh : ℤ} {visit : IoxDirent → Session σ → Session σ}
    (hvisit : ∀ de (t : Session σ), Steady s t → Steady s (visit de t)) :
    ∀ {fuel : ℕ} {de : IoxDirent} {t : Session σ}, Steady s t →
      SteadyFrom s (dreadLoop io dh visit fuel de t)
  | 0, _, _, _ => .none
  | fuel + 1, de, t, ht => by
    obtain ⟨reply, u, heq, hu⟩ := ht.called io (.dread dh de) trivial
    simp only [dreadLoop, heq]
    split
    · exact dreadLoop_steady hvisit (hvisit _ _ hu)
    · exact .some hu

theorem lspart_steady {lsmode : Bool} : SteadyFrom s (lspart io uninit fuel lsmode s) := by
  obtain ⟨dh, t, heq, ht⟩ := (Steady.refl s).called io (.dopen hdd) trivial
  simp only [lspart, heq]
  split
  · refine (dreadLoop_steady (fun de u hu => ?_) ht).map fun r hr => ?_
    · split
      · exact hu.say _
      · exact hu
    · obtain ⟨result, u, heq, hu⟩ := hr.called io (.close dh.ret) trivial
      simp only [heq]
      split
      · exact hu.say _
      · exact hu
  · exact .some (ht.say _)

theorem doLs_steady : SteadyFrom s (doLs io uninit fuel argv s) := by
  simp only [doLs]
  split
  · refine Only.bind (P := fun _ => True) (fun _ _ => trivial) fun dirPath _ => ?_
    obtain ⟨dh, t, heq, ht⟩ := (Steady.refl s).called io (.dopen dirPath) trivial
    simp only [heq]
    split
    · exact (dreadLoop_steady (fun _ _ hu => hu.say _) ht).map fun r hr => hr.call trivial
    · exact .some (ht.say _)
  · refine lspart_steady.map fun r hr => ?_
    dsimp only
    split
    · exact hr.say _
    · exact hr

theorem usedSectors_steady {dh : ℤ} :
    ∀ {fuel : ℕ} {de : IoxDirent} {used : UInt32} {t : Session σ}, Steady s t →
      Only (fun r => Steady s r.2) (usedSectors io dh fuel de used t)
  | 0, _, _, _, _ => .none
  | fuel + 1, de, used, t, ht => by
    obtain ⟨reply, u, heq, hu⟩ := ht.called io (.dread dh de) trivial
    simp only [usedSectors, heq]
    split
    · exact usedSectors_steady hu
    · exact .some hu

theorem doDf_steady (ht : Steady s t) : SteadyFrom s (doDf io uninit fuel t) := by
  simp only [doDf]
  split
  · obtain ⟨reply, u, heq, hu⟩ := ht.called io (.getstat t.ctx.mountPoint) trivial
    simp only [heq]
    split
    · exact .some (hu.say _)
    · obtain ⟨zonesz, v, heq, hv⟩ := hu.called io (.devctl pfs pdiocZonesz) trivial
      simp only [heq]
      obtain ⟨zonefree, w, heq, hw⟩ := hv.called io (.devctl pfs pdiocZonefree) trivial
      simp only [heq]
      split
      · exact .none
      · split
        · exact .some (hw.say _)
        · exact .some (hw.say _)
  · obtain ⟨dh, u, heq, hu⟩ := ht.called io (.dopen hdd) trivial
    simp only [heq]
    split
    · exact .some (hu.say _)
    · refine (usedSectors_steady hu).bind fun r hr => ?_
      obtain ⟨closed, v, heq, hv⟩ := hr.called io (.close dh.ret) trivial
      simp only [heq]
      split
      · exact .none
      · exact .some (hv.say _)

theorem measure_steady (ht : Steady s t) : Only (Steady s) (measure io uninit fuel t) := by
  obtain ⟨total, u, heq, hu⟩ := ht.called io (.devctl hdd hdiocTotalsector) trivial
  simp only [measure, heq]
  refine (doDf_steady (s := s) ?_).map fun r hr => hr
  exact hu.trans ⟨rfl, rfl, rfl⟩

theorem doDevice_steady : SteadyFrom s (doDevice io uninit fuel argv s) := by
  obtain ⟨path, t, heq, ht⟩ :=
    (Steady.refl s).called io (.setAtadDevicePath (arg argv 1)) trivial
  simp only [doDevice, heq]
  obtain ⟨result, u, heq, hu⟩ := ht.called io .initApa trivial
  simp only [heq]
  split
  · exact .none
  · obtain ⟨result, v, heq, hv⟩ := hu.called io .initPfs trivial
    simp only [heq]
    split
    · exact .none
    · obtain ⟨result, w, heq, hw⟩ := hv.called io .initHdlfs trivial
      simp only [heq]
      split
      · exact .none
      · refine (measure_steady (s := s) ?_).map fun r hr => hr
        exact hw.trans ⟨rfl, rfl, rfl⟩

theorem mkpfs_steady {name : CStr} (ht : Steady s t) : SteadyFrom s (mkpfs io name t) := by
  refine Only.map (P := fun _ => True) (fun _ _ => trivial) fun tmp _ => ?_
  exact ht.call trivial

theorem doInitialize_steady : SteadyFrom s (doInitialize io uninit fuel argv s) := by
  simp only [doInitialize]
  split
  · exact .some ((Steady.refl s).say _)
  · obtain ⟨reply, t, heq, ht⟩ := (Steady.refl s).called io (.format hdd [] []) trivial
    simp only [heq]
    refine Only.bind (P := fun r => Steady s r.2) ?_ fun r hr => ?_
    · split
      · refine (mkpfs_steady ht).bind fun _ h => ?_
        refine (mkpfs_steady h).bind fun _ h => ?_
        refine (mkpfs_steady h).bind fun _ h => ?_
        exact (mkpfs_steady h).map fun _ h => h
      · exact .some ht
    · refine (measure_steady (s := s) ?_).map fun _ h => h
      split
      · exact hr.say _
      · exact hr

theorem mainLoop_steady {name partType : CStr} :
    ∀ {i : ℕ} {m : Making} {t : Session σ}, Steady s t →
      Only (fun r => Steady s r.2) (mainLoop io name partType i m t)
  | 0, _, _, ht => .some ht
  | i + 1, m, t, ht => by
    simp only [mainLoop]
    split
    · split
      · refine Only.bind (P := fun _ => True) (fun _ _ => trivial) fun tmp _ => ?_
        obtain ⟨reply, u, heq, hu⟩ := ht.called io (.open tmp (fioORdwr ||| fioOCreat) 0) trivial
        simp only [heq]
        split
        · exact mainLoop_steady (hu.say _)
        · exact mainLoop_steady hu
      · exact mainLoop_steady ht
    · exact .some ht

theorem subLoop_steady {partfd : ℤ} :
    ∀ {fuel j : ℕ} {size : UInt32} {t : Session σ}, Steady s t →
      Only (fun r => Steady s r.2) (subLoop io partfd fuel j size t)
  | 0, _, _, _, _ => .none
  | _ + 1, 0, _, _, ht => .some ht
  | fuel + 1, j + 1, size, t, ht => by
    simp only [subLoop]
    split
    · split
      · obtain ⟨reply, u, heq, hu⟩ := ht.called io (.ioctl2 partfd hiocaddsub (sizeAt j).1) trivial
        simp only [heq]
        split
        · exact subLoop_steady (hu.say _)
        · exact subLoop_steady hu
      · exact subLoop_steady ht
    · exact .some ht

theorem doMkpart_steady : SteadyFrom s (doMkpart io fuel argv s) := by
  refine Only.bind (P := fun _ => True) (fun _ _ => trivial) fun openString _ => ?_
  obtain ⟨reply, t, heq, ht⟩ := (Steady.refl s).called io (.open openString fioORdonly 0) trivial
  simp only [heq]
  split
  · exact .some ((ht.call (by trivial)).say _)
  · split
    · exact .none
    · split
      · exact .some (ht.say _)
      · split
        · exact .some (ht.say _)
        · refine (mainLoop_steady ht).bind fun r hr => ?_
          refine Only.bind (P := fun q => Steady s q.2) ?_ fun q hq => ?_
          · split
            · exact subLoop_steady hr
            · exact .some hr
          · refine Only.map (P := fun q => Steady s q.2) ?_ fun v hv => ?_
            · split
              · split
                · exact mkpfs_steady (hq.call trivial)
                · exact .some (hq.call trivial)
              · exact .some hq
            · dsimp only
              split
              · exact hv.say _
              · exact hv

theorem doLcd_steady : SteadyFrom s (doLcd io argv s) := by
  simp only [doLcd]
  split
  · obtain ⟨reply, t, heq, ht⟩ := (Steady.refl s).called io (.hostGetcwd 256) trivial
    simp only [heq]
    split
    · exact .some (ht.say _)
    · exact .some ht
  · exact .some ((Steady.refl s).call trivial)

/-! ## 3. The three that do not -/

/-- The entries of the table for `mount`, `umount` and `cd`. -/
def mountCommand (io : IomanX σ) : Command σ :=
  ⟨ascii ['m', 'o', 'u', 'n', 't'], 1, { needDevice := true, needNoMount := true }, doMount io⟩

def umountCommand (io : IomanX σ) : Command σ :=
  ⟨ascii ['u', 'm', 'o', 'u', 'n', 't'], 0, { needDevice := true, needMount := true },
    fun _ => doUmount io⟩

def cdCommand (io : IomanX σ) : Command σ :=
  ⟨ascii ['c', 'd'], 1, { needDevice := true, needMount := true }, doCd io⟩

/-- **Every other command leaves the directory and the mount alone.** -/
theorem commands_steady {c : Command σ} (hc : c ∈ commands io uninit fuel) :
    c = mountCommand io ∨ c = umountCommand io ∨ c = cdCommand io ∨
      ∀ argv s, SteadyFrom s (c.process argv s) := by
  simp only [commands, List.mem_cons, List.not_mem_nil, or_false] at hc
  rcases hc with rfl | rfl | rfl | rfl | rfl | rfl | rfl | rfl | rfl | rfl | rfl | rfl | rfl | rfl |
    rfl | rfl | rfl | rfl | rfl | rfl | rfl
  · exact .inr (.inr (.inr fun _ _ => doLcd_steady))
  · exact .inr (.inr (.inr fun _ _ => doLcd_steady))
  · exact .inr (.inr (.inr fun _ _ => doDevice_steady))
  · exact .inr (.inr (.inr fun _ _ => doInitialize_steady))
  · exact .inr (.inr (.inr fun _ _ => doInitialize_steady))
  · exact .inr (.inr (.inr fun _ _ => doMkpart_steady))
  · exact .inl rfl
  · exact .inr (.inl rfl)
  · exact .inr (.inr (.inr fun _ _ => doLs_steady))
  · exact .inr (.inr (.inr fun _ _ => doLs_steady))
  · exact .inr (.inr (.inr fun _ _ => onPath_steady fun _ => trivial))
  · exact .inr (.inr (.inr fun _ _ => onPath_steady fun _ => trivial))
  · exact .inr (.inr (.inr fun _ s => .some ((Steady.refl s).say _)))
  · exact .inr (.inr (.inl rfl))
  · exact .inr (.inr (.inr fun _ _ => doGet_steady))
  · exact .inr (.inr (.inr fun _ _ => doPut_steady))
  · exact .inr (.inr (.inr fun _ _ => onPath_steady fun _ => trivial))
  · exact .inr (.inr (.inr fun _ _ => onPath_steady fun _ => trivial))
  · exact .inr (.inr (.inr fun _ s => doDf_steady (Steady.refl s)))
  · exact .inr (.inr (.inr fun _ _ => onPath_steady fun _ => trivial))
  · exact .inr (.inr (.inr fun _ s => .some (Steady.refl s)))

theorem Steady.current (h : Steady s t) (hs : s.Current) : t.Current := by
  intro hmount
  rw [h.mount] at hmount
  rw [h.path, h.lastChdir]
  exact hs hmount

/-- A mount that iomanX refuses changes neither; one that it takes starts with no directory
accepted. -/
theorem doMount_cases :
    Only (fun r => if 0 ≤ (io (.mount pfs (hdd ++ arg argv 1) 0) s.world).1.ret then
        r.2.ctx.mount = true ∧ r.2.ctx.path = s.ctx.path ∧ lastChdir r.2.calls = none
      else Steady s r.2) (doMount io argv s) := by
  intro r hr
  obtain ⟨mountPoint, hfits, rfl⟩ := Option.map_eq_some_iff.mp hr
  obtain rfl : mountPoint = hdd ++ arg argv 1 := by
    unfold buffer at hfits
    split at hfits
    · exact (Option.some.inj hfits).symm
    · cases hfits
  dsimp only [Session.call]
  generalize io (.mount pfs (hdd ++ arg argv 1) 0) s.world = r
  by_cases hret : 0 ≤ r.1.ret
  · rw [if_pos hret, if_pos hret, lastChdir_concat]
    exact ⟨rfl, rfl, if_pos hret⟩
  · rw [if_neg hret, if_neg hret]
    refine ⟨rfl, rfl, ?_⟩
    rw [Session.say, lastChdir_concat]
    exact if_neg hret

/-- A umount leaves no partition mounted, or changes nothing. -/
theorem doUmount_cases :
    Only (fun r => r.2.ctx.mount = false ∨ Steady s r.2) (doUmount io s) := by
  obtain ⟨reply, t, heq, ht⟩ := (Steady.refl s).called io (.umount pfs) trivial
  simp only [doUmount, heq]
  split
  · exact .some (.inl rfl)
  · exact .some (.inr (ht.say _))

/-- A change of directory ends in the one that `iomanX_chdir` has accepted, or changes nothing. -/
theorem doCd_cases :
    Only (fun r => lastChdir r.2.calls = some (pfs ++ r.2.ctx.path) ∨ Steady s r.2)
      (doCd io argv s) := by
  refine Only.bind (P := fun _ => True) (fun _ _ => trivial) fun path _ => ?_
  intro r hr
  obtain ⟨tmp, hfits, rfl⟩ := Option.map_eq_some_iff.mp hr
  obtain rfl : tmp = pfs ++ path := by
    unfold buffer at hfits
    split at hfits
    · exact (Option.some.inj hfits).symm
    · cases hfits
  dsimp only [Session.call]
  generalize io (.chdir (pfs ++ path)) s.world = r
  by_cases hret : r.1.ret < 0
  · rw [if_pos hret]
    refine .inr ⟨rfl, rfl, ?_⟩
    rw [Session.say, lastChdir_concat]
    exact if_neg (not_le.mpr hret)
  · rw [if_neg hret, lastChdir_concat]
    exact .inl (if_pos (not_lt.mp hret))

/-! ## 4. Runs -/

variable (uninit fuel) in
/-- A mount that succeeds leaves the shell where it is, with no directory accepted since. -/
theorem exec_mounts (h : Mounts io argv s) :
    ∃ t, execStep io uninit fuel argv s = some t ∧ t.ctx.mount = true ∧
      t.ctx.path = s.ctx.path ∧ lastChdir t.calls = none := by
  obtain ⟨hname, hargs, hsetup, hunmounted, hfits, hsucceeds⟩ := h
  obtain ⟨name, path, rfl⟩ : ∃ name path, argv = [name, path] := by
    match argv, hargs with
    | [name, path], _ => exact ⟨name, path, rfl⟩
  obtain rfl := Option.some.inj hname
  have hfind : (commands io uninit fuel).find? (fun c =>
      c.name = ascii ['m', 'o', 'u', 'n', 't'] ∧ c.args = [path].length) =
        some (mountCommand io) := rfl
  have hreq : checkRequirements s.ctx (mountCommand io).req = none := by
    simp [checkRequirements, mountCommand, hsetup, hunmounted]
  obtain ⟨r, hr⟩ : ∃ r, doMount io [ascii ['m', 'o', 'u', 'n', 't'], path] s = some r := by
    rw [doMount, buffer, if_pos hfits]
    exact ⟨_, rfl⟩
  have hcases := doMount_cases r hr
  simp only [if_pos hsucceeds] at hcases
  refine ⟨r.2, ?_, hcases⟩
  simp only [execStep, exec, hfind, hreq]
  exact congrArg (Option.map (·.2)) hr

theorem mounts_of_check {name : CStr} {args : List CStr} {r : ℤ × Session σ}
    (hname : (mountCommand io).name = name) (hargs : (mountCommand io).args = args.length)
    (hreq : checkRequirements s.ctx (mountCommand io).req = none)
    (hr : doMount io (name :: args) s = some r)
    (hret : 0 ≤ (io (.mount pfs (hdd ++ arg (name :: args) 1) 0) s.world).1.ret) :
    Mounts io (name :: args) s := by
  obtain ⟨mountPoint, hfits, -⟩ := Option.map_eq_some_iff.mp hr
  have hcheck : s.ctx.setup = true ∧ s.ctx.mount = false := by
    simp only [checkRequirements, mountCommand] at hreq
    cases hsetup : s.ctx.setup <;> cases hmount : s.ctx.mount <;> simp_all
  refine ⟨congrArg some hname.symm, congrArg (· + 1) hargs.symm, hcheck.1, hcheck.2, ?_, hret⟩
  unfold buffer at hfits
  split at hfits
  · assumption
  · cases hfits

/-- Anything else keeps the directory with the mount. -/
theorem exec_not_mounts (hs : s.Current) (h : ¬ Mounts io argv s)
    (hstep : execStep io uninit fuel argv s = some t) : t.Current := by
  obtain ⟨r, hr, rfl⟩ := Option.map_eq_some_iff.mp hstep
  match argv, hr with
  | [], hr =>
    obtain rfl := Option.some.inj hr
    exact hs
  | name :: args, hr =>
    simp only [exec] at hr
    split at hr
    · rename_i c hfind
      obtain ⟨hname, hargs⟩ : c.name = name ∧ c.args = args.length := by
        simpa using List.find?_some hfind
      split at hr
      · rename_i hreq
        rcases commands_steady (List.mem_of_find?_eq_some hfind) with rfl | rfl | rfl | hsteady
        · have hrefused := doMount_cases r hr
          simp only [if_neg fun hret => h (mounts_of_check hname hargs hreq hr hret)] at hrefused
          exact hrefused.current hs
        · rcases doUmount_cases r hr with hmount | hsteady
          · exact fun h => absurd (hmount.symm.trans h) Bool.false_ne_true
          · exact hsteady.current hs
        · rcases doCd_cases r hr with hcd | hsteady
          · exact fun _ => .inr hcd
          · exact hsteady.current hs
        · exact (hsteady _ _ r hr).current hs
      · obtain rfl := Option.some.inj hr
        exact hs
    · obtain rfl := Option.some.inj hr
      exact hs

variable (uninit fuel) in
theorem execStep_current (hs : s.Current) :
    MountsAtRoot io argv s ↔ ∀ t, execStep io uninit fuel argv s = some t → t.Current := by
  by_cases h : Mounts io argv s
  · obtain ⟨t, hstep, hmount, hpath, hlast⟩ := exec_mounts uninit fuel h
    constructor
    · intro hroot t' ht'
      obtain rfl := Option.some.inj (hstep.symm.trans ht')
      exact fun _ => .inl (hpath.trans (hroot h))
    · intro hcurrent _
      rcases hcurrent t hstep hmount with hroot | hchdir
      · exact hpath.symm.trans hroot
      · rw [hlast] at hchdir
        cases hchdir
  · exact ⟨fun _ t ht => exec_not_mounts hs h ht, fun _ hm => absurd hm h⟩

end Plain

theorem current_started (world : σ) : (started world).Current := fun h => by cases h

/-- **The directory belongs to the mount in every session reached, exactly when every mount that
succeeds is made in the root directory.** -/
theorem current_of_run (io : IomanX σ) (uninit : IoxDirent) (fuel : ℕ) (world : σ)
    (argvs : List (List CStr)) :
    Along (execStep io uninit fuel)
        (fun argv s => ∀ t, execStep io uninit fuel argv s = some t → t.Current) argvs
        (started world) ↔
      Along (execStep io uninit fuel) (MountsAtRoot io) argvs (started world) := by
  constructor
  · refine along_of_along (I := Session.Current) ?_ (current_started world)
    intro argv _ s hs hcurrent
    exact ⟨(execStep_current uninit fuel hs).mpr hcurrent, fun t ht => hcurrent t ht⟩
  · refine along_of_along (I := Session.Current) ?_ (current_started world)
    intro argv _ s hs hroot
    have hcurrent := (execStep_current uninit fuel hs).mp hroot
    exact ⟨hcurrent, fun t ht => hcurrent t ht⟩

/-- An iomanX where everything succeeds and every directory is empty. -/
def yielding : IomanX Unit := fun _ w => ({}, w)

/-- A directory of one partition, and then another partition. -/
def remounted : List (List CStr) :=
  [[ascii ['d', 'e', 'v', 'i', 'c', 'e'], ascii ['x']],
   [ascii ['m', 'o', 'u', 'n', 't'], ascii ['A']], [ascii ['c', 'd'], ascii ['d']],
   [ascii ['u', 'm', 'o', 'u', 'n', 't']], [ascii ['m', 'o', 'u', 'n', 't'], ascii ['B']]]

/-- **The shell is in `/d` of partition B, which it has never changed to.** -/
theorem stale_directory : ∃ s, run (execStep yielding {} 1) remounted (started ()) = some s ∧
    s.ctx.mount = true ∧ s.ctx.mountPoint = hdd ++ ascii ['B'] ∧ s.ctx.path = ascii ['/', 'd'] ∧
    lastChdir s.calls = none ∧ ¬ s.Current := by
  refine ⟨_, rfl, rfl, rfl, by decide, by decide, fun h => ?_⟩
  have h := h rfl
  revert h
  decide

end PfsShell.Shell
