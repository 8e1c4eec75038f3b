/-
# Two changes of a header at once

`hdlfs_chstat` and `HDLFS_DEVCTL_SET_TITLE` both read the 1024 bytes of the header, change them
and write them back, through one descriptor with one position.  `hdlfs_chstat` holds the unit's
semaphore meanwhile; `hdlfs_UpdateGameTitle` does not.

Here a call is its steps (`HeaderCall.turn`): it enters, seeks, reads, seeks, writes and leaves,
and any number of calls on the unit take their steps in any order (`Overlap.step`).  Taken
alone, the steps are the call (`run_alone`).

* `serial_of_run`: as long as no step of a `SET_TITLE` or beside one comes between a seek and
  what it is for, or a write between another call's read and its write, the header is in the end
  what the calls make of it one after the other; between two `hdlfs_chstat` the semaphore sees to
  that;
* `update_lost`: a `SET_TITLE` that undoes an `hdlfs_chstat`.
-/
import PfsShell.Hdlfs.Mounted
import PfsShell.Lib.Mutex

namespace PfsShell.Hdlfs

open PfsShell.Lib

/-! ## 1. The steps of a call -/

/-- A call that changes the header of a unit. -/
inductive HeaderCall
  | chstat (stat : IoxStat) (flags : ℕ)
  | setTitle (newName : List UInt8)

/-- What the call makes of the header. -/
def HeaderCall.change : HeaderCall → HdlGameInfo → HdlGameInfo
  | .chstat stat flags => HdlGameInfo.setStat stat flags
  | .setTitle newName => HdlGameInfo.setTitle newName

/-- Whether the call takes the unit's semaphore. -/
def HeaderCall.waits : HeaderCall → Bool
  | .chstat _ _ => true
  | .setTitle _ => false

/-- What the call returns when it has written the header. -/
def HeaderCall.success : HeaderCall → ℤ
  | .chstat _ _ => 1024
  | .setTitle _ => 0

/-- Where a call is: in front of its `WaitSema`, or in front of a seek, of the read, of the second
seek with the changed header, of the write, of its `SignalSema`, or at its end. -/
inductive Stage
  | idle
  | entered
  | seeked
  | holding (info : HdlGameInfo)
  | aimed (info : HdlGameInfo)
  | leaving (ret : ℤ)
  | done (ret : ℤ)

/-- How the call goes on with the header it has read. -/
def HeaderCall.modify (info : HdlGameInfo) : HeaderCall → Stage
  | .chstat stat flags =>
    if flags &&& fioCstFixed = 0 then .holding (info.setStat stat flags) else .leaving (-22)
  | .setTitle newName => .holding (info.setTitle newName)

/-- The call as the driver does it, in one go. -/
def HeaderCall.exec {σ : Type} (io : IomanX σ) (file : IopFile) :
    HeaderCall → Driver σ → ℤ × Driver σ
  | .chstat stat flags => hdlfsChstat io file stat flags
  | .setTitle newName => hdlfsDevctlSetTitle io file newName

/-- One step of a call on the descriptor `fd`, with the unit's semaphore: where the call is then,
the semaphore, and iomanX. -/
def HeaderCall.turn {σ : Type} (io : IomanX σ) (fd : ℤ) (c : HeaderCall) (free : Bool)
    (stage : Stage) (w : σ) : Option (Stage × Bool × σ) :=
  match stage with
  | .idle =>
    match c with
    | .chstat _ _ => if free then some (.entered, false, w) else none
    | .setTitle newName =>
      some (if newName.length < 160 then .entered else .done (-22), free, w)
  | .entered => some (.seeked, free, (io (.lseek fd hdlGameDataOffset) w).2)
  | .seeked =>
    let r := io (.read fd 1024) w
    some (if r.1.ret = 1024 then c.modify r.1.info else .leaving (-5), free, r.2)
  | .holding info => some (.aimed info, free, (io (.lseek fd hdlGameDataOffset) w).2)
  | .aimed info =>
    let r := io (.write fd info 1024) w
    some (.leaving (if r.1.ret = 1024 then c.success else -5), free, r.2)
  | .leaving ret => some (.done ret, if c.waits then true else free, w)
  | .done _ => none

/-- Calls on one unit that overlap. -/
structure Overlap (ι σ : Type) where
  free : Bool := true
  stage : ι → Stage := fun _ => .idle
  world : σ

section Overlap

variable {ι σ : Type} [DecidableEq ι] (io : IomanX σ) (fd : ℤ) (call : ι → HeaderCall)

/-- Call `i` takes a step. -/
def Overlap.step (i : ι) (s : Overlap ι σ) : Option (Overlap ι σ) :=
  ((call i).turn io fd s.free (s.stage i) s.world).map fun (stage, free, world) =>
    { free := free, stage := Function.update s.stage i stage, world := world }

variable {io fd call}

/-- **Alone, the steps are the call.** -/
theorem run_alone {file : IopFile} {d : Driver σ} (hunit : file.unit < 2)
    (hmounted : 0 ≤ (d.fdList file.unit).mountFD) (i : ι) (stage : ι → Stage)
    (hidle : stage i = .idle) : ∃ n,
      run (Overlap.step io (d.fdList file.unit).mountFD call) (List.replicate n i)
          { stage := stage, world := d.world } =
        some { stage := Function.update stage i (.done ((call i).exec io file d).1),
               world := ((call i).exec io file d).2.world } := by
  obtain ⟨fd, hfd⟩ : ∃ fd, fd = (d.fdList file.unit).mountFD := ⟨_, rfl⟩
  rw [← hfd] at hmounted ⊢
  obtain ⟨r, hr⟩ : ∃ r, r = io (.read fd 1024) (io (.lseek fd hdlGameDataOffset) d.world).2 :=
    ⟨_, rfl⟩
  -- entering, seeking and reading; then, after one step or three, leaving
  cases hcall : call i with
  | chstat stat flags =>
    by_cases hread : r.1.ret = 1024
    · by_cases hflags : flags &&& fioCstFixed = 0
      · refine ⟨6, ?_⟩
        simp [List.replicate, run, Overlap.step, HeaderCall.turn, HeaderCall.modify,
          HeaderCall.exec, HeaderCall.waits, HeaderCall.success, hdlfsChstat, hcall, hidle, hunit,
          hmounted, ← hfd, ← hr, hread, hflags]
      · refine ⟨4, ?_⟩
        simp [List.replicate, run, Overlap.step, HeaderCall.turn, HeaderCall.modify,
          HeaderCall.exec, HeaderCall.waits, hdlfsChstat, hcall, hidle, hunit, hmounted, ← hfd,
          ← hr, hread, hflags]
    · refine ⟨4, ?_⟩
      simp [List.replicate, run, Overlap.step, HeaderCall.turn, HeaderCall.exec,
        HeaderCall.waits, hdlfsChstat, hcall, hidle, hunit, hmounted, ← hfd, ← hr, hread]
  | setTitle newName =>
    by_cases hlen : newName.length < 160
    · by_cases hread : r.1.ret = 1024
      · refine ⟨6, ?_⟩
        simp [List.replicate, run, Overlap.step, HeaderCall.turn, HeaderCall.modify,
          HeaderCall.exec, HeaderCall.waits, HeaderCall.success, hdlfsDevctlSetTitle,
          hdlfsUpdateGameTitle, hcall, hidle, hunit, hmounted, ← hfd, ← hr, hread, hlen]
      · refine ⟨4, ?_⟩
        simp [List.replicate, run, Overlap.step, HeaderCall.turn, HeaderCall.exec,
          HeaderCall.waits, hdlfsDevctlSetTitle, hdlfsUpdateGameTitle, hcall, hidle, hunit,
          hmounted, ← hfd, ← hr, hread, hlen]
    · refine ⟨1, ?_⟩
      simp [List.replicate, run, Overlap.step, HeaderCall.turn, HeaderCall.exec,
        hdlfsDevctlSetTitle, hdlfsUpdateGameTitle, hcall, hidle, hunit, hmounted, ← hfd, hlen]

end Overlap

/-! ## 2. What a stage relies on -/

/-- The call is between its `WaitSema` and its `SignalSema`. -/
def Stage.Inside : Stage → Prop
  | .idle | .done _ => False
  | _ => True

/-- The call has sought the header for what it does next. -/
def Stage.Aims : Stage → Prop
  | .seeked | .aimed _ => True
  | _ => False

/-- The header a call is going to write. -/
def Stage.carried : Stage → Option HdlGameInfo
  | .holding info | .aimed info => some info
  | _ => none

/-- The call has written the header. -/
def Stage.Written : Stage → Prop
  | .leaving ret | .done ret => 0 ≤ ret
  | _ => False

/-- The call has failed. -/
def Stage.Failed : Stage → Prop
  | .leaving ret | .done ret => ret < 0
  | _ => False

theorem Stage.Aims.inside : ∀ {stage : Stage}, stage.Aims → stage.Inside
  | .seeked, _ | .aimed _, _ => trivial

theorem Stage.inside_of_carried : ∀ {stage : Stage} {info : HdlGameInfo},
    stage.carried = some info → stage.Inside
  | .holding _, _, _ | .aimed _, _, _ => trivial

section Stages

variable {ι σ : Type} {io : IomanX σ} {fd : ℤ} {call : ι → HeaderCall} {geo : CStr → Partition}
  {view : σ → ApaView} {dev : CStr} {i : ι} {s t : Overlap ι σ}

/-- **The step comes between no two steps of another call that belong together**, as far as the
semaphore does not see to it: a read or a write when the other has sought the header, or a write
when it has read it. -/
def Apart (call : ι → HeaderCall) (i : ι) (s : Overlap ι σ) : Prop :=
  ∀ j, j ≠ i → ¬ ((call i).waits = true ∧ (call j).waits = true) →
    match s.stage i with
    | .seeked => ¬ (s.stage j).Aims
    | .aimed _ => ¬ (s.stage j).Aims ∧ (s.stage j).carried = none
    | _ => True


/-- What holds between the steps: the semaphore does its work, who has sought the header stands
in front of it, and who carries a header carries the one on the disk with its change. -/
structure Consistent (view : σ → ApaView) (fd : ℤ) (dev : CStr) (call : ι → HeaderCall)
    (s : Overlap ι σ) : Prop where
  on : (view s.world).on fd = some dev
  mutex : Mutex s.free fun i => (call i).waits = true ∧ (s.stage i).Inside
  pos : ∀ i, (s.stage i).Aims → (view s.world).pos fd = hdlGameDataOffset
  copy : ∀ i info, (s.stage i).carried = some info →
    info = (call i).change ((view s.world).info dev)

/-- With the semaphore, the step comes between no two steps of any other call. -/
theorem Consistent.apart (h : Consistent view fd dev call s) (ha : Apart call i s)
    (hi : (s.stage i).Inside) : ∀ j, j ≠ i →
      match s.stage i with
      | .seeked => ¬ (s.stage j).Aims
      | .aimed _ => ¬ (s.stage j).Aims ∧ (s.stage j).carried = none
      | _ => True := by
  intro j hj
  by_cases hboth : (call i).waits = true ∧ (call j).waits = true
  · have hnot : ¬ (s.stage j).Inside := fun hin =>
      hj (h.mutex.excl j i ⟨hboth.2, hin⟩ ⟨hboth.1, hi⟩)
    have haims : ¬ (s.stage j).Aims := fun haims => hnot haims.inside
    have hcarried : (s.stage j).carried = none := by
      by_contra hsome
      obtain ⟨info, hinfo⟩ := Option.ne_none_iff_exists'.mp hsome
      exact hnot (Stage.inside_of_carried hinfo)
    split
    · exact haims
    · exact ⟨haims, hcarried⟩
    · trivial
  · exact ha j hj hboth

/-- The calls that have written the header, in that order. -/
structure Serial (view : σ → ApaView) (dev : CStr) (call : ι → HeaderCall) (info₀ : HdlGameInfo)
    (order : List ι) (s : Overlap ι σ) : Prop where
  nodup : order.Nodup
  mem : ∀ i, i ∈ order ↔ (s.stage i).Written
  header : (view s.world).info dev = order.foldl (fun info i => (call i).change info) info₀

/-! ## 3. One step -/

/-- What a read in front of the header gives a call that does not fail. -/
theorem read_holding (laws : HeaderLaws io geo view) (h : Consistent view fd dev call s)
    (hstage : s.stage i = .seeked) {stage : Stage}
    (hgo : (if (io (.read fd 1024) s.world).1.ret = 1024 then
      (call i).modify (io (.read fd 1024) s.world).1.info else .leaving (-5)) = stage)
    (hok : ¬ stage.Failed) :
    stage = .holding ((call i).change ((view s.world).info dev)) := by
  have hpos : (view s.world).pos fd = hdlGameDataOffset := h.pos i (by rw [hstage]; trivial)
  obtain ⟨hread, -⟩ := laws.read fd dev s.world h.on hpos
  split at hgo
  · rename_i hfull
    have hinfo : (io (.read fd 1024) s.world).1.info = (view s.world).info dev := by
      rcases hread with ⟨-, hinfo⟩ | hneg
      · exact hinfo
      · omega
    rw [hinfo] at hgo
    cases hcall : call i with
    | chstat stat flags =>
      simp only [hcall, HeaderCall.modify] at hgo
      split at hgo
      · exact hgo.symm
      · rw [← hgo] at hok
        exact absurd (by decide : (-22 : ℤ) < 0) hok
    | setTitle newName =>
      simp only [hcall, HeaderCall.modify] at hgo
      exact hgo.symm
  · rw [← hgo] at hok
    exact absurd (by decide : (-5 : ℤ) < 0) hok

variable [DecidableEq ι]

/-- Call `i` goes on to `stage`, with whatever that needs and leaves to the others. -/
theorem Consistent.next {free : Bool} {stage : Stage} {w : σ}
    (hon : (view w).on fd = some dev)
    (hmutex : Mutex free fun j => (call j).waits = true ∧
      (Function.update s.stage i stage j).Inside)
    (hpos : stage.Aims → (view w).pos fd = hdlGameDataOffset)
    (hothers : ∀ j, j ≠ i → (s.stage j).Aims → (view w).pos fd = hdlGameDataOffset)
    (hcopy : ∀ info, stage.carried = some info → info = (call i).change ((view w).info dev))
    (hcopies : ∀ j, j ≠ i → ∀ info, (s.stage j).carried = some info →
      info = (call j).change ((view w).info dev)) :
    Consistent view fd dev call
      { free := free, stage := Function.update s.stage i stage, world := w } where
  on := hon
  mutex := hmutex
  pos := (Function.forall_update_iff s.stage
    (p := fun _ stage => stage.Aims → (view w).pos fd = hdlGameDataOffset)).mpr ⟨hpos, hothers⟩
  copy := (Function.forall_update_iff s.stage
    (p := fun j stage => ∀ info, stage.carried = some info →
      info = (call j).change ((view w).info dev))).mpr ⟨hcopy, hcopies⟩

/-- Between its semaphore calls a call stays inside. -/
theorem Consistent.mutex_stay (h : Consistent view fd dev call s) {stage : Stage}
    (hin : (call i).waits = true → stage.Inside → (s.stage i).Inside) :
    Mutex s.free fun j => (call j).waits = true ∧ (Function.update s.stage i stage j).Inside := by
  refine h.mutex.mono ((Function.forall_update_iff s.stage
    (p := fun j stage => (call j).waits = true ∧ stage.Inside →
      (call j).waits = true ∧ (s.stage j).Inside)).mpr ⟨?_, fun _ _ h => h⟩)
  exact fun hi => ⟨hi.1, hin hi.1 hi.2⟩

variable {info₀ : HdlGameInfo} {order : List ι}

/-- A step that writes nothing. -/
theorem Serial.next (h : Serial view dev call info₀ order s) {free : Bool} {stage : Stage} {w : σ}
    (hinfo : (view w).info = (view s.world).info) (hwritten : stage.Written ↔ (s.stage i).Written) :
    Serial view dev call info₀ order
      { free := free, stage := Function.update s.stage i stage, world := w } where
  nodup := h.nodup
  mem := (Function.forall_update_iff s.stage
    (p := fun j stage => j ∈ order ↔ stage.Written)).mpr
      ⟨(h.mem i).trans hwritten.symm, fun j _ => h.mem j⟩
  header := by
    simp only [hinfo]
    exact h.header

/-- The write of a header. -/
theorem Serial.write (h : Serial view dev call info₀ order s) {free : Bool} {stage : Stage} {w : σ}
    (hbefore : ¬ (s.stage i).Written) (hwritten : stage.Written)
    (hinfo : (view w).info dev = (call i).change ((view s.world).info dev)) :
    Serial view dev call info₀ (order ++ [i])
      { free := free, stage := Function.update s.stage i stage, world := w } where
  nodup := by
    have hi : i ∉ order := fun hmem => hbefore ((h.mem i).mp hmem)
    refine List.nodup_append.mpr ⟨h.nodup, List.nodup_singleton i, fun j hj k hk => ?_⟩
    rw [List.mem_singleton.mp hk]
    exact fun hji => hi (hji ▸ hj)
  mem := (Function.forall_update_iff s.stage
    (p := fun j stage => j ∈ order ++ [i] ↔ stage.Written)).mpr
      ⟨iff_of_true (by simp) hwritten, fun j hj => by simpa [hj] using h.mem j⟩
  header := by
    rw [List.foldl_append, ← h.header]
    exact hinfo

/-- A call begins: with the semaphore, or without it. -/
theorem enter_consistent (h : Consistent view fd dev call s)
    (hs : Serial view dev call info₀ order s) (hstage : s.stage i = .idle) {free : Bool}
    (hfree : (call i).waits = true ∧ s.free = true ∧ free = false ∨
      (call i).waits = false ∧ free = s.free) :
    Consistent view fd dev call
        { free := free, stage := Function.update s.stage i .entered, world := s.world } ∧
      Serial view dev call info₀ order
        { free := free, stage := Function.update s.stage i .entered, world := s.world } := by
  have hwritten : ¬ (s.stage i).Written := by rw [hstage]; exact id
  refine ⟨Consistent.next h.on ?_ (fun h => h.elim) (fun j _ => h.pos j) (fun _ h => by cases h)
    (fun j _ => h.copy j), hs.next rfl (iff_of_false id hwritten)⟩
  rcases hfree with ⟨-, hfree, rfl⟩ | ⟨hwaits, rfl⟩
  · have hmutex := h.mutex
    rw [hfree] at hmutex
    refine hmutex.enter (i := i) fun j hj hin => ?_
    rwa [Function.update_of_ne hj] at hin
  · exact h.mutex_stay fun hw => absurd hw (by rw [hwaits]; exact Bool.false_ne_true)

/-- A call seeks the header, for its read or for its write. -/
theorem seek_consistent (laws : HeaderLaws io geo view) (h : Consistent view fd dev call s)
    (hs : Serial view dev call info₀ order s) (stage : Stage) (hin : (s.stage i).Inside)
    (hcarried : ∀ info, stage.carried = some info → (s.stage i).carried = some info)
    (hbefore : ¬ (s.stage i).Written) (hafter : ¬ stage.Written) :
    Consistent view fd dev call
        { free := s.free, stage := Function.update s.stage i stage,
          world := (io (.lseek fd hdlGameDataOffset) s.world).2 } ∧
      Serial view dev call info₀ order
        { free := s.free, stage := Function.update s.stage i stage,
          world := (io (.lseek fd hdlGameDataOffset) s.world).2 } := by
  have hview := laws.lseek fd hdlGameDataOffset s.world
  have hpos : (view (io (.lseek fd hdlGameDataOffset) s.world).2).pos fd =
      hdlGameDataOffset := by simp [hview]
  refine ⟨Consistent.next (by simpa [hview] using h.on) (h.mutex_stay fun _ _ => hin)
    (fun _ => hpos) (fun _ _ _ => hpos) (fun info hc => ?_)
    (fun j _ => by simpa [hview] using h.copy j),
    hs.next (by simp [hview]) (iff_of_false hafter hbefore)⟩
  simpa [hview] using h.copy i info (hcarried info hc)

/-- A call reads the header, and holds it with its change. -/
theorem read_consistent (laws : HeaderLaws io geo view) (h : Consistent view fd dev call s)
    (hs : Serial view dev call info₀ order s) (ha : Apart call i s)
    (hstage : s.stage i = .seeked) :
    Consistent view fd dev call
        { free := s.free,
          stage := Function.update s.stage i
            (.holding ((call i).change ((view s.world).info dev))),
          world := (io (.read fd 1024) s.world).2 } ∧
      Serial view dev call info₀ order
        { free := s.free,
          stage := Function.update s.stage i
            (.holding ((call i).change ((view s.world).info dev))),
          world := (io (.read fd 1024) s.world).2 } := by
  have hpos : (view s.world).pos fd = hdlGameDataOffset := h.pos i (by rw [hstage]; trivial)
  have hothers := h.apart ha (by rw [hstage]; trivial)
  simp only [hstage] at hothers
  obtain ⟨-, p, hview⟩ := laws.read fd dev s.world h.on hpos
  refine ⟨Consistent.next (by simpa [hview] using h.on)
    (h.mutex_stay fun _ _ => by rw [hstage]; trivial) (fun h => h.elim)
    (fun j hj haims => absurd haims (hothers j hj)) (fun info hc => ?_)
    (fun j _ => by simpa [hview] using h.copy j),
    hs.next (by simp [hview]) (iff_of_false id (by rw [hstage]; exact id))⟩
  obtain rfl := Option.some.inj hc
  simp [hview]

/-- A call writes the header it holds. -/
theorem write_consistent (laws : HeaderLaws io geo view) (h : Consistent view fd dev call s)
    (hs : Serial view dev call info₀ order s) (ha : Apart call i s) {info : HdlGameInfo}
    (hstage : s.stage i = .aimed info) (hdone : (io (.write fd info 1024) s.world).1.ret = 1024) :
    Consistent view fd dev call
        { free := s.free, stage := Function.update s.stage i (.leaving (call i).success),
          world := (io (.write fd info 1024) s.world).2 } ∧
      Serial view dev call info₀ (order ++ [i])
        { free := s.free, stage := Function.update s.stage i (.leaving (call i).success),
          world := (io (.write fd info 1024) s.world).2 } := by
  have hpos : (view s.world).pos fd = hdlGameDataOffset := h.pos i (by rw [hstage]; trivial)
  have hcopy := h.copy i info (by rw [hstage]; rfl)
  have hothers := h.apart ha (by rw [hstage]; trivial)
  simp only [hstage] at hothers
  obtain ⟨p, disk, hview, -⟩ := laws.write fd dev info s.world h.on hpos hdone
  refine ⟨Consistent.next (by simpa [hview] using h.on)
    (h.mutex_stay fun _ _ => by rw [hstage]; trivial) (fun h => h.elim)
    (fun j hj haims => absurd haims (hothers j hj).1) (fun _ h => by cases h)
    (fun j hj info' hc => ?_), hs.write (by rw [hstage]; exact id) ?_ ?_⟩
  · rw [(hothers j hj).2] at hc
    cases hc
  · cases call i <;> simp [Stage.Written, HeaderCall.success]
  · simp [hview, ← hcopy]

/-- A call ends, and gives the semaphore back if it has it. -/
theorem leave_consistent (h : Consistent view fd dev call s)
    (hs : Serial view dev call info₀ order s) {ret : ℤ} (hstage : s.stage i = .leaving ret) :
    Consistent view fd dev call
        { free := if (call i).waits then true else s.free,
          stage := Function.update s.stage i (.done ret), world := s.world } ∧
      Serial view dev call info₀ order
        { free := if (call i).waits then true else s.free,
          stage := Function.update s.stage i (.done ret), world := s.world } := by
  refine ⟨Consistent.next h.on ?_ (fun h => h.elim) (fun j _ => h.pos j) (fun _ h => by cases h)
    (fun j _ => h.copy j), hs.next rfl (by rw [hstage]; exact Iff.rfl)⟩
  split
  · rename_i hwaits
    refine h.mutex.leave (i := i) ⟨hwaits, by rw [hstage]; trivial⟩ ?_ fun j hj hin => ?_
    · rw [Function.update_self]
      exact fun hin => hin.2
    · rwa [Function.update_of_ne hj] at hin
  · rename_i hwaits
    exact h.mutex_stay fun hw => absurd hw hwaits

/-- **One step of one call**, which does not fail. -/
theorem step_consistent (laws : HeaderLaws io geo view) (h : Consistent view fd dev call s)
    (hs : Serial view dev call info₀ order s) (ha : Apart call i s)
    (hstep : Overlap.step io fd call i s = some t) (hok : ¬ (t.stage i).Failed) :
    Consistent view fd dev call t ∧ ∃ order', Serial view dev call info₀ order' t := by
  obtain ⟨⟨stage, free, w⟩, hturn, rfl⟩ := Option.map_eq_some_iff.mp hstep
  simp only [Function.update_self] at hok
  cases hstage : s.stage i with
  | idle =>
    rw [hstage] at hturn
    cases hcall : call i with
    | chstat stat flags =>
      simp only [hcall, HeaderCall.turn] at hturn
      split at hturn
      · rename_i hfree
        obtain ⟨rfl, rfl, rfl⟩ : .entered = stage ∧ false = free ∧ s.world = w := by
          simpa using hturn
        have hnext := enter_consistent h hs hstage (.inl ⟨by rw [hcall]; rfl, hfree, rfl⟩)
        exact ⟨hnext.1, order, hnext.2⟩
      · cases hturn
    | setTitle newName =>
      simp only [hcall, HeaderCall.turn] at hturn
      split at hturn
      · obtain ⟨rfl, rfl, rfl⟩ : .entered = stage ∧ s.free = free ∧ s.world = w := by
          simpa using hturn
        have hnext := enter_consistent h hs hstage (.inr ⟨by rw [hcall]; rfl, rfl⟩)
        exact ⟨hnext.1, order, hnext.2⟩
      · obtain ⟨rfl, -, -⟩ : .done (-22) = stage ∧ s.free = free ∧ s.world = w := by
          simpa using hturn
        exact absurd (by decide : (-22 : ℤ) < 0) hok
  | entered =>
    rw [hstage] at hturn
    obtain ⟨rfl, rfl, rfl⟩ : .seeked = stage ∧ s.free = free ∧
        (io (.lseek fd hdlGameDataOffset) s.world).2 = w := by
      simpa [HeaderCall.turn] using hturn
    have hnext := seek_consistent laws h hs .seeked (i := i)
      (by rw [hstage]; trivial) (fun _ hc => by cases hc) (by rw [hstage]; exact id) id
    exact ⟨hnext.1, order, hnext.2⟩
  | seeked =>
    rw [hstage] at hturn
    obtain ⟨hgo, rfl, rfl⟩ : (if (io (.read fd 1024) s.world).1.ret = 1024 then
        (call i).modify (io (.read fd 1024) s.world).1.info else .leaving (-5)) = stage ∧
        s.free = free ∧ (io (.read fd 1024) s.world).2 = w := by
      simpa [HeaderCall.turn] using hturn
    rw [read_holding laws h hstage hgo hok]
    have hnext := read_consistent laws h hs ha hstage
    exact ⟨hnext.1, order, hnext.2⟩
  | holding info =>
    rw [hstage] at hturn
    obtain ⟨rfl, rfl, rfl⟩ : .aimed info = stage ∧ s.free = free ∧
        (io (.lseek fd hdlGameDataOffset) s.world).2 = w := by
      simpa [HeaderCall.turn] using hturn
    have hnext := seek_consistent laws h hs (.aimed info) (i := i)
      (by rw [hstage]; trivial) (fun _ hc => by rw [hstage]; exact hc) (by rw [hstage]; exact id)
      id
    exact ⟨hnext.1, order, hnext.2⟩
  | aimed info =>
    rw [hstage] at hturn
    obtain ⟨hgo, rfl, rfl⟩ : Stage.leaving (if (io (.write fd info 1024) s.world).1.ret = 1024 then
        (call i).success else -5) = stage ∧ s.free = free ∧
          (io (.write fd info 1024) s.world).2 = w := by
      simpa [HeaderCall.turn] using hturn
    split at hgo
    · rename_i hdone
      subst hgo
      have hnext := write_consistent laws h hs ha hstage hdone
      exact ⟨hnext.1, order ++ [i], hnext.2⟩
    · rw [← hgo] at hok
      exact absurd (by decide : (-5 : ℤ) < 0) hok
  | leaving ret =>
    rw [hstage] at hturn
    obtain ⟨rfl, rfl, rfl⟩ : .done ret = stage ∧
        (if (call i).waits then true else s.free) = free ∧ s.world = w := by
      simpa [HeaderCall.turn] using hturn
    have hnext := leave_consistent h hs hstage
    exact ⟨hnext.1, order, hnext.2⟩
  | done ret =>
    rw [hstage] at hturn
    cases hturn

/-! ## 4. Runs -/

/-- A call that has failed stays so. -/
theorem failed_step {j : ι} (h : (s.stage i).Failed)
    (hstep : Overlap.step io fd call j s = some t) : (t.stage i).Failed := by
  obtain ⟨⟨stage, free, w⟩, hturn, rfl⟩ := Option.map_eq_some_iff.mp hstep
  by_cases hij : i = j
  · subst hij
    simp only [Function.update_self]
    cases hstage : s.stage i with
    | leaving ret =>
      rw [hstage] at hturn h
      obtain ⟨rfl, -, -⟩ : .done ret = stage ∧
          (if (call i).waits then true else s.free) = free ∧ s.world = w := by
        simpa [HeaderCall.turn] using hturn
      exact h
    | done ret =>
      rw [hstage] at hturn
      cases hturn
    | _ =>
      rw [hstage] at h
      exact h.elim
  · simpa only [Function.update_of_ne hij] using h

/-- Along a run after which no call has failed, each state is consistent, with the writes up to it
in order. -/
theorem run_consistent (laws : HeaderLaws io geo view) {s' : Overlap ι σ}
    (hgood : ∀ i, ¬ (s'.stage i).Failed) {sched : List ι} {s : Overlap ι σ} {order : List ι}
    (h : Consistent view fd dev call s) (hs : Serial view dev call info₀ order s)
    (hrun : run (Overlap.step io fd call) sched s = some s')
    (hapart : Along (Overlap.step io fd call) (Apart call) sched s) :
    (∃ order', Serial view dev call info₀ order' s') ∧
      Along (Overlap.step io fd call) (fun i s => ∀ info, s.stage i = .aimed info →
        (view s.world).pos fd = hdlGameDataOffset) sched s := by
  induction sched generalizing s order with
  | nil =>
    obtain rfl := Option.some.inj hrun
    exact ⟨⟨order, hs⟩, trivial⟩
  | cons i sched ih =>
    obtain ⟨t, ht, hrest⟩ := run_cons.mp hrun
    have hok : ¬ (t.stage i).Failed := fun hfailed => hgood i
      (run_preserves (I := fun s => (s.stage i).Failed)
        (fun _ _ _ hs hstep => failed_step hs hstep) hfailed hrest)
    obtain ⟨hnext, order', hserial'⟩ := step_consistent laws h hs hapart.1 ht hok
    obtain ⟨hend, halong⟩ := ih hnext hserial' hrest (hapart.2 t ht)
    refine ⟨hend, fun info haimed => h.pos i (by rw [haimed]; trivial), fun u hu => ?_⟩
    rw [ht, Option.some.injEq] at hu
    exact hu ▸ halong

/-- **No change of the header is lost** when no `SET_TITLE` comes between the steps of another
call, nor another call between its own.  From an idle unit, any number of calls take their steps
in any order until all that have begun are done, with success.  Then the header is the one that
comes of making the changes one after the other, and whenever a call was about to write, the
descriptor stood at `HDL_GAME_DATA_OFFSET`. -/
theorem serial_of_run (laws : HeaderLaws io geo view) {world : σ}
    (hon : (view world).on fd = some dev) {sched : List ι} {s' : Overlap ι σ}
    (hrun : run (Overlap.step io fd call) sched { world := world } = some s')
    (hdone : ∀ i, s'.stage i = .idle ∨ ∃ ret, 0 ≤ ret ∧ s'.stage i = .done ret)
    (hapart : Along (Overlap.step io fd call) (Apart call) sched { world := world }) :
    (∃ order : List ι, order.Nodup ∧ (∀ i, i ∈ order ↔ s'.stage i ≠ .idle) ∧
      (view s'.world).info dev =
        order.foldl (fun info i => (call i).change info) ((view world).info dev)) ∧
    Along (Overlap.step io fd call) (fun i s => ∀ info, s.stage i = .aimed info →
      (view s.world).pos fd = hdlGameDataOffset) sched { world := world } := by
  have hgood : ∀ i, ¬ (s'.stage i).Failed := by
    intro i hfailed
    rcases hdone i with hidle | ⟨ret, hret, hdone⟩
    · rw [hidle] at hfailed
      exact hfailed
    · rw [hdone] at hfailed
      exact absurd hret (Int.not_le.mpr hfailed)
  have hstart : Consistent view fd dev call ({ world := world } : Overlap ι σ) :=
    ⟨hon, mutex_start fun _ h => h.2, fun _ h => h.elim, fun _ _ h => by cases h⟩
  have hnone : Serial view dev call ((view world).info dev) []
      ({ world := world } : Overlap ι σ) :=
    ⟨List.nodup_nil, fun i => iff_of_false List.not_mem_nil id, rfl⟩
  obtain ⟨⟨order, hserial⟩, halong⟩ := run_consistent laws hgood hstart hnone hrun hapart
  refine ⟨⟨order, hserial.nodup, fun i => (hserial.mem i).trans ?_, hserial.header⟩, halong⟩
  rcases hdone i with hidle | ⟨ret, hret, hdone⟩
  · rw [hidle]
    exact iff_of_false id (not_not.mpr rfl)
  · rw [hdone]
    exact iff_of_true hret (by simp)

end Stages

/-! ## 5. A title and an attribute -/

/-- Partition A is open on descriptor 0. -/
def openedA : ApaView :=
  { blank with on := Function.update (fun _ => none) 0 (some (ascii ['A'])) }

/-- One call sets the title, the other the DMA mode. -/
def titleAndMode : Bool → HeaderCall
  | true => .setTitle (ascii ['t'])
  | false => .chstat { attr := 5 * 2 ^ 24 } fioCstAttr

/-- What an order that has the mode in it makes of a header has the mode. -/
theorem dmaMode_foldl (order : List Bool) (info : HdlGameInfo)
    (h : false ∈ order ∨ info.dmaMode = 5) :
    (order.foldl (fun info i => (titleAndMode i).change info) info).dmaMode = 5 := by
  induction order generalizing info with
  | nil => exact h.resolve_left List.not_mem_nil
  | cons i order ih =>
    refine ih _ ?_
    cases i with
    | false => exact .inr rfl
    | true =>
      rcases h with hmem | hmode
      · exact .inl ((List.mem_cons.mp hmem).resolve_left Bool.false_ne_true)
      · exact .inr hmode

/-- The title's call begins while `hdlfs_chstat` has sought the header, and seeks when that has
been written; `hdlfs_chstat` leaves between the title's second seek and its write. -/
def overlapping : List Bool :=
  [false, false, true, false, false, false, true, true, true, false, true, true]

theorem serial_of_run_title : ∃ s',
    run (Overlap.step twoSliceApa 0 titleAndMode) overlapping { world := openedA } = some s' ∧
      (s'.world.info (ascii ['A'])).dmaMode = 5 := by
  obtain ⟨s', hs'⟩ : ∃ s', run (Overlap.step twoSliceApa 0 titleAndMode) overlapping
      { world := openedA } = some s' := ⟨_, rfl⟩
  have hdone : ∀ i, s'.stage i = .idle ∨ ∃ ret, 0 ≤ ret ∧ s'.stage i = .done ret := by
    obtain rfl := Option.some.inj hs'
    rintro (_ | _)
    · exact .inr ⟨1024, by decide, rfl⟩
    · exact .inr ⟨0, by decide, rfl⟩
  have hapart : Along (Overlap.step twoSliceApa 0 titleAndMode) (Apart titleAndMode) overlapping
      { world := openedA } := by
    -- at each read and write the other is in front of a seek, or has written
    iterate 12
      refine ⟨fun j hj _ => ?_, fun t ht => ?_⟩
      · cases j <;> first | exact absurd rfl hj | exact trivial | exact ⟨id, rfl⟩ | exact id
      obtain rfl := Option.some.inj ht
    trivial
  have hon : (id openedA).on 0 = some (ascii ['A']) := rfl
  obtain ⟨⟨order, -, hmem, hinfo⟩, -⟩ := serial_of_run twoSliceApa_mountLaws.toHeaderLaws hon
    hs' hdone hapart
  refine ⟨s', hs', ?_⟩
  have hmode : false ∈ order := by
    rw [hmem false]
    obtain rfl := Option.some.inj hs'
    exact fun h => by cases h
  exact (congrArg HdlGameInfo.dmaMode hinfo).trans (dmaMode_foldl order _ (.inl hmode))

/-- **An update is lost.**  `HDLFS_DEVCTL_SET_TITLE` has read the header; an `hdlfs_chstat` runs
from its `WaitSema` to its end; then the title is written, with the header as it was before.  Both
report success, and the DMA mode is not the one set, as it is in no order of the two. -/
theorem update_lost : ∃ s',
    run (Overlap.step twoSliceApa 0 titleAndMode)
        ([true, true, true] ++ List.replicate 6 false ++ [true, true, true])
        { world := openedA } = some s' ∧
      s'.stage true = .done 0 ∧ s'.stage false = .done 1024 ∧
      (s'.world.info (ascii ['A'])).dmaMode = 0 ∧
      ∀ order : List Bool, (∀ i, i ∈ order ↔ s'.stage i ≠ .idle) →
        s'.world.info (ascii ['A']) ≠
          order.foldl (fun info i => (titleAndMode i).change info)
            (openedA.info (ascii ['A'])) := by
  refine ⟨_, rfl, rfl, rfl, rfl, fun order hmem heq => ?_⟩
  have hmode : false ∈ order := (hmem false).mpr fun h => by cases h
  have hfive := (congrArg HdlGameInfo.dmaMode heq).trans (dmaMode_foldl order _ (.inl hmode))
  exact absurd hfive (by decide)

end PfsShell.Hdlfs
