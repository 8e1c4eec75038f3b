/-
# Transfers and seeks of several threads

`hdlfs_io_internal` and `hdlfs_lseek` take the semaphore of the unit on the way in and give it back
on every way out; what refuses a call is looked at before.  So the position in the game, which all
files of a unit share, is moved by one call at a time.

`hdlfs_init` makes the semaphores with `CreateSema`, which may fail: then their number is -1, and
`WaitSema` returns at once.  It also returns when a signal interrupts a thread that waits.  Its
result is not looked at.

The threads are interleaved step by step, one step for each turn of the loop, and wait on the
semaphores of `thsemap.c` (`Sdk.Thsemap`).  `unitCalls` are the two functions as calls that run in
a section (`Lib.Sections`).

* `whole_done`: a call that is alone does what `hdlfsRead`, `hdlfsWrite` and `hdlfsLseek` do;
* `unit_serial`: in every interleaving the calls have the results, and leave behind the driver, of
  calls one after the other, when `hdlfs_init` got its semaphore and no wait is interrupted;
* `read_torn`, `read_interrupted`: without the semaphore, and after an interrupted wait, a read can
  get sectors that are not one behind the other.
-/
import PfsShell.Hdlfs.Driver
import PfsShell.Lib.Sections
import PfsShell.Sdk.Thsemap

namespace PfsShell.Hdlfs

open PfsShell.Lib PfsShell.Sdk

variable {ι σ : Type}

/-! ## 1. The calls -/

/-- A call on a file of the unit. -/
inductive UnitCall
  | read (file : IopFile) (buffer : Option (List UInt8)) (size : ℤ)
  | write (file : IopFile) (buffer : Option (List UInt8)) (size : ℤ)
  | lseek (file : IopFile) (offset : ℤ) (whence : ℕ)

/-- The file of a call. -/
def UnitCall.file : UnitCall → IopFile
  | .read file .. | .write file .. | .lseek file .. => file

/-- What a call is in the middle of, with the semaphore taken: the loop of `hdlfs_io_internal`, with
what the buffer holds in front of the pointer and behind it, or the body of `hdlfs_lseek`. -/
inductive Inside
  | transfer (slot mode : ℕ) (size : ℤ) (done left : List UInt8) (sectorsRemaining : ℕ) (result : ℤ)
  | seek (slot : ℕ) (offset : ℤ) (whence : ℕ)

/-- What is returned, and what is in the buffer then. -/
abbrev Result := ℤ × List UInt8

section Calls

variable (io : IomanX σ)

/-- `hdlfs_io_internal` before the semaphore. -/
def startIo (file : IopFile) (buffer : Option (List UInt8)) (size : ℤ) (mode : ℕ) :
    Result ⊕ Inside :=
  match buffer with
  | none => .inl (-22, [])
  | some buffer =>
    if size % 512 ≠ 0 then .inl (-22, buffer)
    else .inr (.transfer file.privdata mode size [] buffer (u32 (size / 512)) 0)

/-- A call before the semaphore. -/
def startCall (o : UnitCall) (d : Driver σ) : Result ⊕ Inside :=
  match o with
  | .read file buffer size =>
    if file.mode &&& 1 ≠ 0 then startIo file buffer size 0 else .inl (-22, buffer.getD [])
  | .write file buffer size =>
    if file.mode &&& 2 ≠ 0 then startIo file buffer size 1 else .inl (-30, buffer.getD [])
  | .lseek file offset whence =>
    if file.unit < 2 ∧ 0 ≤ (d.fdList file.unit).mountFD then
      .inr (.seek file.privdata offset whence)
    else .inl (-19, [])

/-- What is left of a call after the semaphore: one turn of the loop, or the seek. -/
def turnCall (k : Inside) (d : Driver σ) : (Result ⊕ Inside) × Driver σ :=
  match k with
  | .transfer slot mode size done left sectorsRemaining result =>
    if 0 < sectorsRemaining then
      let f := (d.fdList slot).moveOn
      let n := if f.sectorsLeft < sectorsRemaining then f.sectorsLeft else sectorsRemaining
      let r := io (.hioctransfer f.mountFD
        { sub := f.currentPartNum
          sector := u32 (reservedSectors f.currentPartNum + f.relativeSectorNumber)
          size := n
          mode := mode
          buffer := left.take (n * 512) }) d.world
      if r.1.ret < 0 then
        (.inl (r.1.ret, done ++ (r.1.buffer ++ left.drop (n * 512))),
          { fdList := Function.update d.fdList slot f, world := r.2 })
      else
        (.inr (.transfer slot mode size (done ++ r.1.buffer) (left.drop (n * 512))
            (sectorsRemaining - n) r.1.ret),
          { fdList := Function.update d.fdList slot
              { f with
                offset := u32 (f.offset + n)
                relativeSectorNumber := u32 (f.relativeSectorNumber + n) }
            world := r.2 })
    else (.inl (if result < 0 then result else size, done ++ left), d)
  | .seek slot offset whence =>
    let f := d.fdList slot
    let i := f.partOf offset
    if i < f.numPartitions then
      let target := f.seekTo offset whence
      (.inl ((target / 4 : ℕ), []),
        { d with
          fdList := Function.update d.fdList slot
            { f with
              offset := target
              relativeSectorNumber := u32 (target - (f.partSpecs i).partOffset * 4)
              currentPartNum := i } })
    else (.inl (-22, []), d)

/-- The transfers and seeks of the driver, as calls that run in a section. -/
def unitCalls : Calls UnitCall Inside Result (Driver σ) where
  start := startCall
  turn := turnCall io

/-- What a call does when it is alone. -/
def UnitCall.Done (o : UnitCall) (d : Driver σ) (r : Result) (d' : Driver σ) : Prop :=
  match o with
  | .read file buffer size => ∃ fuel, hdlfsRead io fuel file buffer size d = some (r.1, r.2, d')
  | .write file buffer size => ∃ fuel, hdlfsWrite io fuel file buffer size d = some (r.1, r.2, d')
  | .lseek file offset whence => hdlfsLseek file offset whence d = (r.1, d') ∧ r.2 = []

end Calls

/-! ## 2. One call -/

section OneCall

variable {io : IomanX σ} {d d' : Driver σ} {r : Result}

/-- **The turns of the loop are the loop.** -/
theorem transfer_runs {k : Inside} (h : (unitCalls io).Runs k d r d') {slot mode : ℕ} {size : ℤ}
    {done left : List UInt8} {sectorsRemaining : ℕ} {result : ℤ}
    (hk : k = .transfer slot mode size done left sectorsRemaining result) :
    ∃ fuel res f buffer w,
      ioLoop io mode fuel sectorsRemaining result (d.fdList slot) left d.world =
        some (res, f, buffer, w) ∧
      r = (if res < 0 then res else size, done ++ buffer) ∧
      d' = { fdList := Function.update d.fdList slot f, world := w } := by
  induction h generalizing done left sectorsRemaining result with
  | @last k d d' r hturn =>
    subst hk
    simp only [unitCalls, turnCall] at hturn
    by_cases hmore : 0 < sectorsRemaining
    · rw [if_pos hmore] at hturn
      generalize hn : ite ((d.fdList slot).moveOn.sectorsLeft < sectorsRemaining) _ _ = n at hturn
      generalize hreply : io _ _ = reply at hturn
      by_cases hfailed : reply.1.ret < 0
      · rw [if_pos hfailed] at hturn
        obtain ⟨hr, rfl⟩ := Prod.mk.inj hturn
        obtain rfl := Sum.inl.inj hr
        refine ⟨1, reply.1.ret, _, _, reply.2, ?_, by rw [if_pos hfailed], rfl⟩
        rw [ioLoop, if_pos hmore]
        simp only [hn, hreply, if_pos hfailed]
      · rw [if_neg hfailed] at hturn
        cases (Prod.mk.inj hturn).1
    · rw [if_neg hmore] at hturn
      obtain ⟨hr, rfl⟩ := Prod.mk.inj hturn
      obtain rfl := Sum.inl.inj hr
      refine ⟨1, result, d.fdList slot, left, d.world, ?_, rfl, ?_⟩
      · rw [ioLoop, if_neg hmore]
      · rw [Function.update_eq_self]
  | @more k k' d d' d'' r hturn _ ih =>
    subst hk
    simp only [unitCalls, turnCall] at hturn
    by_cases hmore : 0 < sectorsRemaining
    · rw [if_pos hmore] at hturn
      generalize hn : ite ((d.fdList slot).moveOn.sectorsLeft < sectorsRemaining) _ _ = n at hturn
      generalize hreply : io _ _ = reply at hturn
      by_cases hfailed : reply.1.ret < 0
      · rw [if_pos hfailed] at hturn
        cases (Prod.mk.inj hturn).1
      · rw [if_neg hfailed] at hturn
        obtain ⟨hk', rfl⟩ := Prod.mk.inj hturn
        obtain ⟨fuel, res, f, buffer, w, hloop, hr, hd⟩ := ih (Sum.inr.inj hk').symm
        simp only [Function.update_self] at hloop
        refine ⟨fuel + 1, res, f, reply.1.buffer ++ buffer, w, ?_, ?_, ?_⟩
        · rw [ioLoop, if_pos hmore]
          simp only [hn, hreply, if_neg hfailed, hloop, Option.map_some]
        · rw [hr, List.append_assoc]
        · rw [hd, Function.update_idem]
    · rw [if_neg hmore] at hturn
      cases (Prod.mk.inj hturn).1

theorem startIo_done {file : IopFile} {buffer : Option (List UInt8)} {size : ℤ} {mode : ℕ}
    (h : startIo file buffer size mode = .inl r) (fuel : ℕ) :
    hdlfsIoInternal io fuel file buffer size mode d = some (r.1, r.2, d) := by
  cases buffer with
  | none =>
    obtain rfl := Sum.inl.inj h
    rfl
  | some buffer =>
    simp only [startIo] at h
    split at h
    · rename_i hsize
      obtain rfl := Sum.inl.inj h
      simp only [hdlfsIoInternal, if_pos hsize]
    · cases h

theorem startIo_runs {file : IopFile} {buffer : Option (List UInt8)} {size : ℤ} {mode : ℕ}
    {k : Inside} (h : startIo file buffer size mode = .inr k)
    (hruns : (unitCalls io).Runs k d r d') :
    ∃ fuel, hdlfsIoInternal io fuel file buffer size mode d = some (r.1, r.2, d') := by
  cases buffer with
  | none => cases h
  | some buffer =>
    simp only [startIo] at h
    split at h
    · cases h
    · rename_i hsize
      obtain ⟨fuel, res, f, rest, w, hloop, rfl, rfl⟩ := transfer_runs hruns (Sum.inr.inj h).symm
      refine ⟨fuel, ?_⟩
      simp only [hdlfsIoInternal, if_neg hsize, hloop, Option.map_some, List.nil_append]

theorem seek_runs {slot : ℕ} {offset : ℤ} {whence : ℕ} {file : IopFile}
    (hslot : slot = file.privdata) (hmounted : file.unit < 2 ∧ 0 ≤ (d.fdList file.unit).mountFD)
    (hruns : (unitCalls io).Runs (.seek slot offset whence) d r d') :
    hdlfsLseek file offset whence d = (r.1, d') ∧ r.2 = [] := by
  subst hslot
  cases hruns with
  | last hturn =>
    simp only [unitCalls, turnCall] at hturn
    simp only [hdlfsLseek, if_pos hmounted]
    split at hturn
    · rename_i hpart
      obtain ⟨hr, rfl⟩ := Prod.mk.inj hturn
      obtain rfl := Sum.inl.inj hr
      exact ⟨if_pos hpart, rfl⟩
    · rename_i hpart
      obtain ⟨hr, rfl⟩ := Prod.mk.inj hturn
      obtain rfl := Sum.inl.inj hr
      exact ⟨if_neg hpart, rfl⟩
  | more hturn _ =>
    simp only [unitCalls, turnCall] at hturn
    split at hturn <;> cases (Prod.mk.inj hturn).1

/-- **A call that is alone** is the function. -/
theorem whole_done (o : UnitCall) (h : (unitCalls io).Whole o d r d') : o.Done io d r d' := by
  cases o with
  | read file buffer size =>
    simp only [UnitCall.Done, hdlfsRead]
    by_cases hmode : file.mode &&& 1 ≠ 0
    · simp only [if_pos hmode]
      cases h with
      | refused h => exact ⟨0, startIo_done ((if_pos hmode).symm.trans h) 0⟩
      | ran h hruns => exact startIo_runs ((if_pos hmode).symm.trans h) hruns
    · simp only [if_neg hmode]
      cases h with
      | refused h =>
        obtain rfl := Sum.inl.inj ((if_neg hmode).symm.trans h)
        exact ⟨0, rfl⟩
      | ran h _ => cases (if_neg hmode).symm.trans h
  | write file buffer size =>
    simp only [UnitCall.Done, hdlfsWrite]
    by_cases hmode : file.mode &&& 2 ≠ 0
    · simp only [if_pos hmode]
      cases h with
      | refused h => exact ⟨0, startIo_done ((if_pos hmode).symm.trans h) 0⟩
      | ran h hruns => exact startIo_runs ((if_pos hmode).symm.trans h) hruns
    · simp only [if_neg hmode]
      cases h with
      | refused h =>
        obtain rfl := Sum.inl.inj ((if_neg hmode).symm.trans h)
        exact ⟨0, rfl⟩
      | ran h _ => cases (if_neg hmode).symm.trans h
  | lseek file offset whence =>
    by_cases hmounted : file.unit < 2 ∧ 0 ≤ (d.fdList file.unit).mountFD
    · cases h with
      | refused h => cases (if_pos hmounted).symm.trans h
      | ran h hruns =>
        obtain rfl := Sum.inr.inj ((if_pos hmounted).symm.trans h)
        exact seek_runs rfl hmounted hruns
    · cases h with
      | refused h =>
        obtain rfl := Sum.inl.inj ((if_neg hmounted).symm.trans h)
        exact ⟨if_neg hmounted, rfl⟩
      | ran h _ => cases (if_neg hmounted).symm.trans h

end OneCall

/-- The descriptor of the mount stays what it is. -/
theorem mountFD_update {fds : ℕ → HdlfsFileDescriptor} {slot : ℕ} {f : HdlfsFileDescriptor}
    (hf : f.mountFD = (fds slot).mountFD) (unit : ℕ) :
    (Function.update fds slot f unit).mountFD = (fds unit).mountFD := by
  by_cases h : unit = slot
  · subst h
    rw [Function.update_self, hf]
  · rw [Function.update_of_ne h]

theorem moveOn_mountFD (f : HdlfsFileDescriptor) : f.moveOn.mountFD = f.mountFD := by
  unfold HdlfsFileDescriptor.moveOn
  split <;> rfl

/-- A call looks only at what the steps leave alone. -/
theorem unitCalls_steady (io : IomanX σ) : (unitCalls io).Steady := by
  intro k d x d' hturn o
  have hmount : ∀ unit, (d'.fdList unit).mountFD = (d.fdList unit).mountFD := by
    cases k with
    | transfer slot mode size done left sectorsRemaining result =>
      simp only [unitCalls, turnCall] at hturn
      split at hturn
      · generalize io _ _ = reply at hturn
        by_cases hfailed : reply.1.ret < 0
        · rw [if_pos hfailed] at hturn
          obtain ⟨-, rfl⟩ := Prod.mk.inj hturn
          exact mountFD_update (moveOn_mountFD _)
        · rw [if_neg hfailed] at hturn
          obtain ⟨-, rfl⟩ := Prod.mk.inj hturn
          exact mountFD_update (moveOn_mountFD _)
      · obtain ⟨-, rfl⟩ := Prod.mk.inj hturn
        exact fun _ => rfl
    | seek slot offset whence =>
      simp only [unitCalls, turnCall] at hturn
      split at hturn
      · obtain ⟨-, rfl⟩ := Prod.mk.inj hturn
        exact mountFD_update rfl
      · obtain ⟨-, rfl⟩ := Prod.mk.inj hturn
        exact fun _ => rfl
  cases o <;> simp only [unitCalls, startCall, hmount]

/-! ## 3. The semaphores -/

/-- `hdlfs_init`: the `SemaID` of each unit, -1 where there is none. -/
def hdlfsInit (semInit : ℕ → ℤ) (s : Semas) : Except Stuck ((ℕ → ℤ) × Semas) :=
  match createSema (semInit 0) s with
  | .error x => .error x
  | .ok (first, s) =>
    match createSema (semInit 1) s with
    | .error x => .error x
    | .ok (second, s) => .ok (fun unit => if unit = 0 then first.ret else second.ret, s)

/-- The threads, the semaphores and the driver; `returned` are the calls that have returned. -/
structure Users (ι σ : Type) where
  semas : Semas
  phase : ι → Phase UnitCall Inside Result := fun _ => .outside
  driver : Driver σ
  returned : List (ι × UnitCall × Result) := []

section Semaphores

variable [DecidableEq ι]

/-- A thread goes on to `p`. -/
def Users.enter (i : ι) (p : Phase UnitCall Inside Result) (u : Users ι σ) : Users ι σ :=
  { u with phase := Function.update u.phase i p }

/-- One step of one thread, and whether a signal interrupts it if it has to wait. -/
structure UserTurn (ι : Type) where
  turn : Turn ι UnitCall
  interrupted : Bool := false

/-- One step of one thread. -/
def usersStep (io : IomanX σ) (semaID : ℕ → ℤ) (e : UserTurn ι) (u : Users ι σ) :
    Option (Users ι σ) :=
  match e.turn with
  | .call i o =>
    match u.phase i, startCall o u.driver with
    | .outside, .inl r => some { u with returned := u.returned ++ [(i, o, r)] }
    | .outside, .inr k =>
      -- what `WaitSema` returns is not looked at
      match waitSema (semaID o.file.privdata) e.interrupted u.semas with
      | .ok (_, semas) => some { u.enter i (.inside o k) with semas := semas }
      | .error _ => none
    | _, _ => none
  | .turn i =>
    match u.phase i with
    | .inside o k =>
      match turnCall io k u.driver with
      | (.inl r, driver) => some { u.enter i (.finished o r) with driver := driver }
      | (.inr k, driver) => some { u.enter i (.inside o k) with driver := driver }
    | _ => none
  | .leave i =>
    match u.phase i with
    | .finished o r =>
      match signalSema (semaID o.file.privdata) u.semas with
      | .ok (_, semas) =>
        some { u.enter i .outside with semas := semas, returned := u.returned ++ [(i, o, r)] }
      | .error _ => none
    | _ => none

/-- The calls are on files of the unit. -/
def OnUnit (unit : ℕ) : Turn ι UnitCall → Prop
  | .call _ o => o.file.privdata = unit
  | _ => True

/-- The call a thread is in is on a file of the unit. -/
def PhaseOn (unit : ℕ) : Phase UnitCall Inside Result → Prop
  | .outside => True
  | .inside o _ | .finished o _ => o.file.privdata = unit

/-- **The lock of the section is the semaphore of the unit**: its count is 1 while the lock is
free, and the thread with the lock is the one in a call. -/
structure Guarded (grants : ℕ → Bool) (semid : ℤ) (unit : ℕ) (u : Users ι σ)
    (s : Section ι UnitCall Inside Result (Driver σ)) : Prop where
  phase : s.phase = u.phase
  shared : s.shared = u.driver
  returned : s.returned = u.returned
  onUnit : ∀ i, PhaseOn unit (u.phase i)
  held : ∀ i, s.lock = some i ↔ u.phase i ≠ .outside
  count : ∃ t, Represents grants u.semas t ∧
    t.count semid.toNat = some (if s.lock = none then 1 else 0)

section Steps

variable {io : IomanX σ} {semaID : ℕ → ℤ} {grants : ℕ → Bool} {unit : ℕ} {u u' : Users ι σ}
variable {s : Section ι UnitCall Inside Result (Driver σ)} {i : ι} {o : UnitCall}

omit [DecidableEq ι] in
/-- A wait that returns has found the lock free. -/
theorem Guarded.wait (h : Guarded grants (semaID unit) unit u s)
    (hid : 0 ≤ semaID unit ∧ semaID unit < semaCount) {reply : Sdk.Reply} {semas : Semas}
    (hwait : waitSema (semaID unit) false u.semas = .ok (reply, semas)) :
    s.lock = none ∧ ∃ t, Represents grants semas t ∧ t.count (semaID unit).toNat = some 0 := by
  obtain ⟨t, hrep, hcount⟩ := h.count
  obtain ⟨t', hstep, hrep'⟩ := hrep.next_step (e := .wait (semaID unit) false) hwait
  by_cases hlock : s.lock = none
  · refine ⟨hlock, t', hrep', ?_⟩
    simp only [hlock, if_true] at hcount
    simp only [counterStep, onCount, if_pos hid, hcount] at hstep
    obtain ⟨-, rfl⟩ := Prod.mk.inj (Except.ok.inj hstep)
    exact Function.update_self ..
  · simp only [hlock, if_false] at hcount
    simp [counterStep, onCount, if_pos hid, hcount] at hstep

omit [DecidableEq ι] in
/-- A signal of the thread with the lock sets it free. -/
theorem Guarded.signal (h : Guarded grants (semaID unit) unit u s)
    (hid : 0 ≤ semaID unit ∧ semaID unit < semaCount) (hlock : s.lock ≠ none) {reply : Sdk.Reply}
    {semas : Semas} (hsignal : signalSema (semaID unit) u.semas = .ok (reply, semas)) :
    ∃ t, Represents grants semas t ∧ t.count (semaID unit).toNat = some 1 := by
  obtain ⟨t, hrep, hcount⟩ := h.count
  obtain ⟨t', hstep, hrep'⟩ := hrep.next_step (e := .signal (semaID unit)) hsignal
  refine ⟨t', hrep', ?_⟩
  simp only [hlock, if_false] at hcount
  simp only [counterStep, onCount, if_pos hid, hcount] at hstep
  obtain ⟨-, rfl⟩ := Prod.mk.inj (Except.ok.inj hstep)
  exact Function.update_self ..

theorem Guarded.call (h : Guarded grants (semaID unit) unit u s)
    (hid : 0 ≤ semaID unit ∧ semaID unit < semaCount) (hunit : o.file.privdata = unit)
    (hstep : usersStep io semaID ⟨.call i o, false⟩ u = some u') :
    ∃ s', (unitCalls io).step (.call i o) s = some s' ∧
      Guarded grants (semaID unit) unit u' s' := by
  simp only [usersStep] at hstep
  split at hstep
  · rename_i r hphase hstart
    obtain rfl := Option.some.inj hstep
    refine ⟨{ s with returned := s.returned ++ [(i, o, r)] }, ?_, h.phase, h.shared, ?_, h.onUnit,
      h.held, h.count⟩
    · simp [Calls.step, unitCalls, h.phase, h.shared, hphase, hstart]
    · rw [h.returned]
  · rename_i k hphase hstart
    rw [hunit] at hstep
    split at hstep
    · rename_i reply semas hwait
      obtain rfl := Option.some.inj hstep
      obtain ⟨hfree, t, hrep, hcount⟩ := h.wait hid hwait
      have hout : ∀ j, u.phase j = .outside := by
        intro j
        by_contra hin
        rw [(h.held j).mpr hin] at hfree
        cases hfree
      refine ⟨{ s.enter i (.inside o k) with lock := some i }, ?_, ?_, h.shared, h.returned,
        fun j => ?_, fun j => ?_, t, hrep, by simpa using hcount⟩
      · simp [Calls.step, unitCalls, h.phase, h.shared, hphase, hstart, hfree]
      · simp [Section.enter, Users.enter, h.phase]
      · by_cases hj : j = i
        · subst hj
          simpa [Users.enter, PhaseOn] using hunit
        · simpa [Users.enter, hj] using h.onUnit j
      · by_cases hj : j = i
        · simp [Users.enter, hj]
        · simp [Users.enter, hj, hout j, Ne.symm hj]
    · cases hstep
  · cases hstep

/-- The thread with the lock goes on. -/
theorem Guarded.stay (h : Guarded grants (semaID unit) unit u s)
    {p : Phase UnitCall Inside Result} (hin : u.phase i ≠ .outside) (hp : p ≠ .outside)
    (hunit : PhaseOn unit p) (driver : Driver σ) :
    Guarded grants (semaID unit) unit { u.enter i p with driver := driver }
      { s.enter i p with shared := driver } := by
  refine ⟨by simp [Section.enter, Users.enter, h.phase], rfl, h.returned, fun j => ?_,
    fun j => ?_, h.count⟩
  · by_cases hj : j = i
    · subst hj
      simpa [Users.enter] using hunit
    · simpa [Users.enter, hj] using h.onUnit j
  · by_cases hj : j = i
    · subst hj
      simpa [Section.enter, Users.enter, hp] using (h.held j).mpr hin
    · simpa [Section.enter, Users.enter, hj] using h.held j

theorem Guarded.turn (h : Guarded grants (semaID unit) unit u s)
    {interrupted : Bool} (hstep : usersStep io semaID ⟨.turn i, interrupted⟩ u = some u') :
    ∃ s', (unitCalls io).step (.turn i) s = some s' ∧ Guarded grants (semaID unit) unit u' s' := by
  simp only [usersStep] at hstep
  split at hstep
  · rename_i o k hphase
    have hunit : PhaseOn unit (.inside o k) := hphase ▸ h.onUnit i
    have hin : u.phase i ≠ .outside := by simp [hphase]
    split at hstep
    · rename_i r driver hturn
      obtain rfl := Option.some.inj hstep
      refine ⟨_, ?_, h.stay (p := .finished o r) hin (by simp) hunit driver⟩
      simp [Calls.step, unitCalls, h.phase, h.shared, hphase, hturn]
    · rename_i k' driver hturn
      obtain rfl := Option.some.inj hstep
      refine ⟨_, ?_, h.stay (p := .inside o k') hin (by simp) hunit driver⟩
      simp [Calls.step, unitCalls, h.phase, h.shared, hphase, hturn]
  · cases hstep

theorem Guarded.leave (h : Guarded grants (semaID unit) unit u s)
    (hid : 0 ≤ semaID unit ∧ semaID unit < semaCount)
    {interrupted : Bool} (hstep : usersStep io semaID ⟨.leave i, interrupted⟩ u = some u') :
    ∃ s', (unitCalls io).step (.leave i) s = some s' ∧ Guarded grants (semaID unit) unit u' s' := by
  simp only [usersStep] at hstep
  split at hstep
  · rename_i o r hphase
    have hunit : o.file.privdata = unit := by
      have hon := h.onUnit i
      rwa [hphase] at hon
    have hlock : s.lock = some i := (h.held i).mpr (by simp [hphase])
    rw [hunit] at hstep
    split at hstep
    · rename_i reply semas hsignal
      obtain rfl := Option.some.inj hstep
      obtain ⟨t, hrep, hcount⟩ := h.signal hid (by simp [hlock]) hsignal
      refine ⟨{ s.enter i .outside with lock := none, returned := s.returned ++ [(i, o, r)] }, ?_,
        ?_, h.shared, ?_, fun j => ?_, fun j => ?_, t, hrep, by simpa using hcount⟩
      · simp [Calls.step, h.phase, hphase]
      · simp [Section.enter, Users.enter, h.phase]
      · rw [h.returned]
      · by_cases hj : j = i
        · simp [Users.enter, hj, PhaseOn]
        · simpa [Users.enter, hj] using h.onUnit j
      · by_cases hj : j = i
        · simp [Users.enter, hj]
        · have hout : u.phase j = .outside := by
            by_contra hin
            have hheld := (h.held j).mpr hin
            rw [hlock] at hheld
            exact hj (Option.some.inj hheld).symm
          simp [Users.enter, hj, hout]
    · cases hstep
  · cases hstep

/-- **A step of the threads is a step in the section.** -/
theorem Guarded.step (h : Guarded grants (semaID unit) unit u s)
    (hid : 0 ≤ semaID unit ∧ semaID unit < semaCount) {e : UserTurn ι} (hunit : OnUnit unit e.turn)
    (hquiet : e.interrupted = false) (hstep : usersStep io semaID e u = some u') :
    ∃ s', (unitCalls io).step e.turn s = some s' ∧ Guarded grants (semaID unit) unit u' s' := by
  obtain ⟨e, interrupted⟩ := e
  cases e with
  | call i o =>
    obtain rfl : interrupted = false := hquiet
    exact h.call hid hunit hstep
  | turn i => exact h.turn hstep
  | leave i => exact h.leave hid hstep

end Steps

omit [DecidableEq ι] in
/-- `hdlfs_init` leaves the semaphore of each unit free, where it got one. -/
theorem guarded_init {grants : ℕ → Bool} {s₀ semas : Semas} {t : Counters}
    (hrep : Represents grants s₀ t) {semInit : ℕ → ℤ} {semaID : ℕ → ℤ}
    (hinit : hdlfsInit semInit s₀ = .ok (semaID, semas)) {unit : ℕ} (hid : 0 ≤ semaID unit)
    (d : Driver σ) : semaID unit < semaCount ∧
      Guarded (ι := ι) grants (semaID unit) unit { semas := semas, driver := d }
        { shared := d } := by
  simp only [hdlfsInit] at hinit
  split at hinit
  · cases hinit
  · rename_i first s₁ hfirst
    obtain ⟨t₁, hrep₁, -, hmade₁⟩ := hrep.created hfirst
    split at hinit
    · cases hinit
    · rename_i second s₂ hsecond
      obtain ⟨t₂, hrep₂, hkept, hmade₂⟩ := hrep₁.created hsecond
      obtain ⟨rfl, rfl⟩ := Prod.mk.inj (Except.ok.inj hinit)
      obtain ⟨hlt, hcount⟩ : (if unit = 0 then first.ret else second.ret) < semaCount ∧
          t₂.count (if unit = 0 then first.ret else second.ret).toNat = some 1 := by
        by_cases hzero : unit = 0
        · simp only [if_pos hzero] at hid ⊢
          exact ⟨(hmade₁ hid).1, hkept _ _ (hmade₁ hid).2⟩
        · simp only [if_neg hzero] at hid ⊢
          exact hmade₂ hid
      exact ⟨hlt, rfl, rfl, rfl, fun _ => trivial, fun _ => by simp, t₂, hrep₂, hcount⟩

/-- **Transfers and seeks on a unit are made one after the other.**  However the threads are
interleaved, when no wait is interrupted then the calls that have returned have the results of calls
that are alone, in the order they returned; and while no thread is in a call, the driver is as these
leave it. -/
theorem unit_serial {io : IomanX σ} {grants : ℕ → Bool} {s₀ semas : Semas} {semInit : ℕ → ℤ}
    {semaID : ℕ → ℤ} {unit : ℕ} (hstart : Reaches semaNext (semasStart grants) s₀)
    (hinit : hdlfsInit semInit s₀ = .ok (semaID, semas)) (hid : 0 ≤ semaID unit)
    {es : List (UserTurn ι)} (hunit : ∀ e ∈ es, OnUnit unit e.turn)
    (hquiet : ∀ e ∈ es, e.interrupted = false) {d : Driver σ} {u : Users ι σ}
    (hrun : run (usersStep io semaID) es { semas := semas, driver := d } = some u) :
    (∃ d', Serially (UnitCall.Done io) u.returned d d') ∧
      ((∀ i, u.phase i = .outside) → Serially (UnitCall.Done io) u.returned d u.driver) := by
  obtain ⟨t, hrep⟩ := represents_reached hstart
  obtain ⟨hlt, hguarded⟩ := guarded_init hrep hinit hid d
  have hsim : ∀ e ∈ es, ∀ (u u' : Users ι σ) s, Guarded grants (semaID unit) unit u s →
      OnUnit unit e.turn → usersStep io semaID e u = some u' →
      ∃ s' : Section ι UnitCall Inside Result (Driver σ),
        run (unitCalls io).step [e.turn] s = some s' ∧
          Guarded grants (semaID unit) unit u' s' := by
    intro e he u u' s hR hon hstep
    obtain ⟨s', hs', hR'⟩ := hR.step ⟨hid, hlt⟩ hon (hquiet e he) hstep
    exact ⟨s', run_cons.mpr ⟨s', hs', rfl⟩, hR'⟩
  obtain ⟨s, hs, hend⟩ :=
    run_simulates hsim hguarded (along_of_forall fun e he _ => hunit e he) hrun
  obtain ⟨hsome, hfree⟩ := run_serially (unitCalls_steady io) hs
  rw [hend.returned] at hsome hfree
  refine ⟨?_, fun hout => ?_⟩
  · obtain ⟨d', hcalls⟩ := hsome
    exact ⟨d', hcalls.mono fun o _ _ _ => whole_done o⟩
  · have hlock : s.lock = none := by
      cases hlock : s.lock with
      | none => rfl
      | some i => exact absurd (hout i) ((hend.held i).mp hlock)
    rw [hend.shared] at hfree
    exact (hfree hlock).mono fun o _ _ _ => whole_done o

end Semaphores

/-! ## 4. Two readers -/

/-- A disk whose sectors hold the number of the slice and their own number. -/
def numbered : IomanX Unit
  | .hioctransfer _ arg, w =>
    ({ buffer := (List.range arg.size).flatMap fun i =>
        List.replicate 256 (UInt8.ofNat arg.sub) ++
          List.replicate 256 (UInt8.ofNat (arg.sector + i)) }, w)
  | _, w => ({}, w)

/-- Unit 0 is mounted, with the position one sector in front of the end of its first slice. -/
def nearEnd : Driver Unit where
  fdList _ := { mountFD := 3, numPartitions := 2, relativeSectorNumber := 3, offset := 3, size := 8,
                partSpecs := fun _ => { partSize := 2048 } }
  world := ()

/-- A thread reads `n` bytes. -/
def askRead (i : Bool) (n : ℕ) : UserTurn Bool :=
  { turn := .call i (.read { mode := 1 } (some (List.replicate n 0)) n) }

/-- One thread reads two sectors, and another thread reads one as soon as it can. -/
def twoReads : List (UserTurn Bool) :=
  [askRead false 1024, ⟨.turn false, false⟩, ⟨.turn false, false⟩, ⟨.turn false, false⟩,
    ⟨.leave false, false⟩, askRead true 512, ⟨.turn true, false⟩, ⟨.turn true, false⟩,
    ⟨.leave true, false⟩]

theorem unit_serial_twoReads : ∃ semaID semas u,
    hdlfsInit (fun _ => 0) (semasStart fun _ => true) = .ok (semaID, semas) ∧
    run (usersStep numbered semaID) twoReads { semas := semas, driver := nearEnd } = some u ∧
    u.returned.map (·.1) = [false, true] ∧
    Serially (UnitCall.Done numbered) u.returned nearEnd u.driver := by
  obtain ⟨semaID, semas, u, hinit, hid, hrun, horder, hout⟩ : ∃ semaID semas u,
      hdlfsInit (fun _ => 0) (semasStart fun _ => true) = .ok (semaID, semas) ∧ 0 ≤ semaID 0 ∧
      run (usersStep numbered semaID) twoReads { semas := semas, driver := nearEnd } = some u ∧
      u.returned.map (·.1) = [false, true] ∧ u.phase = fun _ => .outside :=
    ⟨_, _, _, rfl, by decide, rfl, rfl, funext fun i => by cases i <;> rfl⟩
  have hunit : ∀ e ∈ twoReads, OnUnit 0 e.turn := by
    simp [-List.reduceReplicate, twoReads, askRead, OnUnit, UnitCall.file]
  have hquiet : ∀ e ∈ twoReads, e.interrupted = false := by
    simp [-List.reduceReplicate, twoReads, askRead]
  exact ⟨semaID, semas, u, hinit, hrun, horder,
    (unit_serial (.refl _) hinit hid hunit hquiet hrun).2 fun i => by rw [hout]⟩

/-- The second thread reads between two turns of the first. -/
def tornReads (interrupted : Bool) : List (UserTurn Bool) :=
  [askRead false 1024, ⟨.turn false, false⟩, { askRead true 512 with interrupted := interrupted },
    ⟨.turn true, false⟩, ⟨.turn true, false⟩, ⟨.leave true, false⟩, ⟨.turn false, false⟩,
    ⟨.turn false, false⟩, ⟨.leave false, false⟩]

/-- **A read is torn where `CreateSema` failed**: the sector behind the first is the other
thread's, which need not wait. -/
theorem read_torn : ∃ semaID semas u,
    hdlfsInit (fun _ => 0) (semasStart fun _ => false) = .ok (semaID, semas) ∧
    run (usersStep numbered semaID) (tornReads false) { semas := semas, driver := nearEnd } =
      some u ∧
    u.returned.map (fun c => (c.1, c.2.2.2[300]?, c.2.2.2[800]?)) =
      [(true, some 4, none), (false, some 3, some 5)] :=
  ⟨_, _, _, rfl, rfl, by decide +kernel⟩

/-- **A read is torn after an interrupted wait**: the other thread goes on without the semaphore. -/
theorem read_interrupted : ∃ semaID semas u,
    hdlfsInit (fun _ => 0) (semasStart fun _ => true) = .ok (semaID, semas) ∧
    run (usersStep numbered semaID) (tornReads true) { semas := semas, driver := nearEnd } =
      some u ∧
    u.returned.map (fun c => (c.1, c.2.2.2[300]?, c.2.2.2[800]?)) =
      [(true, some 4, none), (false, some 3, some 5)] :=
  ⟨_, _, _, rfl, rfl, by decide +kernel⟩

end PfsShell.Hdlfs
