/-
# A mount that fails

`hdlfs_mount` puts the result of `iomanX_open` into `MountFD` before it has read the header.  What
it finds then, an error of the open or of the read or a header that is too short, leaves the unit
with that descriptor; nothing is closed, and neither is the one the unit had before.

* `hdlfsMount_sound_iff`: when a mount that fails changes nothing, and one that does not fail
  loses nothing;
* `short_header_mounts`: a header that is read in part.
-/
import PfsShell.Hdlfs.Slices

namespace PfsShell.Hdlfs

open PfsShell.Lib

/-! ## 1. What is asked of a mount -/

/-- A complete header was read. -/
def HeaderRead (calls : List (Call × ℤ)) : Prop := ∃ fd, (Call.read fd 1024, 1024) ∈ calls

/-- The descriptor was closed. -/
def ClosedIn (fd : ℤ) (calls : List (Call × ℤ)) : Prop := ∃ ret, (Call.close fd, ret) ∈ calls

/-- What was opened was closed afterwards. -/
def AllClosed (calls : List (Call × ℤ)) : Prop :=
  ∀ front back dev flags fd, calls = front ++ (.open dev flags, fd) :: back → 0 ≤ fd →
    ClosedIn fd back

/-- **A mount that changes nothing when it fails**, and loses nothing.  `before` and `after` are
the unit's descriptor. -/
structure MountSound (before after : HdlfsFileDescriptor) (ret : ℤ) (calls : List (Call × ℤ)) :
    Prop where
  failed : ¬ HeaderRead calls → ret < 0 ∧ after = before ∧ AllClosed calls
  kept : 0 ≤ before.mountFD → after.mountFD = before.mountFD ∨ ClosedIn before.mountFD calls

section Mount

variable {σ : Type} (io : IomanX σ)

/-- The driver with a record of its calls. -/
def Driver.recorded (d : Driver σ) : Driver (σ × List (Call × ℤ)) where
  fdList := d.fdList
  world := (d.world, [])

/-- What `iomanX_getstat` answers. -/
def statAnswer (blockdev : CStr) (d : Driver σ) : Reply × σ := io (.getstat blockdev) d.world

/-- What `iomanX_open` answers. -/
def openAnswer (blockdev : CStr) (flags : ℕ) (d : Driver σ) : Reply × σ :=
  io (.open blockdev (if flags = 0 then 3 else 1)) (statAnswer io blockdev d).2

/-- What `iomanX_read` answers. -/
def readAnswer (blockdev : CStr) (flags : ℕ) (d : Driver σ) : Reply × σ :=
  let o := openAnswer io blockdev flags d
  io (.read o.1.ret 1024) (io (.lseek o.1.ret hdlGameDataOffset) o.2).2

/-- **When a mount does.**  It ends before the open; or the open fails with what the unit has for
a descriptor already; or the header is read in full, and the unit was not mounted or gets the same
descriptor again. -/
def MountOk (file : IopFile) (blockdev : CStr) (flags : ℕ) (d : Driver σ) : Prop :=
  file.unit < 2 → 0 ≤ (statAnswer io blockdev d).1.ret →
  (statAnswer io blockdev d).1.mode = 0x1337 →
    if 0 ≤ (openAnswer io blockdev flags d).1.ret then
      (readAnswer io blockdev flags d).1.ret = 1024 ∧
        (0 ≤ (d.fdList file.unit).mountFD →
          (openAnswer io blockdev flags d).1.ret = (d.fdList file.unit).mountFD)
    else (openAnswer io blockdev flags d).1.ret = (d.fdList file.unit).mountFD

variable {io}

/-! ## 2. The calls of a mount -/

/-- Neither opens nor closes a descriptor. -/
def Holding (c : Call × ℤ) : Prop :=
  (∀ dev flags, c.1 ≠ .open dev flags) ∧ ∀ fd, c.1 ≠ .close fd

/-- Adding up the sizes opens and closes nothing. -/
theorem addSizes_calls (fd : ℤ) (k : ℕ) : ∀ (part size : ℕ) (w : σ × List (Call × ℤ)),
    ∃ news, (addSizes (recording io) fd k part size w).2.2 = w.2 ++ news ∧
      ∀ c ∈ news, Holding c := by
  induction k with
  | zero =>
    intro part size w
    exact ⟨[], (List.append_nil _).symm, fun c hc => absurd hc List.not_mem_nil⟩
  | succ k ih =>
    intro part size w
    rw [addSizes]
    obtain ⟨news, hnews, hholding⟩ := ih (part + 1)
      (u32 (size + (recording io (.hiocgetsize fd part) w).1.ret))
      (recording io (.hiocgetsize fd part) w).2
    refine ⟨(.hiocgetsize fd part, (io (.hiocgetsize fd part) w.1).1.ret) :: news, ?_, ?_⟩
    · rw [hnews, recording_calls, List.append_assoc]
      rfl
    · intro c hc
      rcases List.mem_cons.mp hc with rfl | hc
      · exact ⟨fun _ _ h => (by cases h), fun _ h => (by cases h)⟩
      · exact hholding c hc

/-- **Reading the header into the unit.**  A header that is not complete changes nothing; a
complete one leaves the descriptor that it was read through. -/
theorem readInfo_recorded (unit : ℕ) (f : HdlfsFileDescriptor) (w : σ × List (Call × ℤ)) {r : ℤ}
    (hr : (io (.read f.mountFD 1024) (io (.lseek f.mountFD hdlGameDataOffset) w.1).2).1.ret = r) :
    ∃ seek, (r ≠ 1024 → (readInfo (recording io) unit f w).1 = r ∧
        (readInfo (recording io) unit f w).2.1 = f ∧
        (readInfo (recording io) unit f w).2.2.2 =
          w.2 ++ [(.lseek f.mountFD hdlGameDataOffset, seek), (.read f.mountFD 1024, r)]) ∧
      (r = 1024 → (readInfo (recording io) unit f w).2.1.mountFD = f.mountFD ∧
        ∃ news, (readInfo (recording io) unit f w).2.2.2 =
            w.2 ++ (.lseek f.mountFD hdlGameDataOffset, seek) ::
              (.read f.mountFD 1024, 1024) :: news ∧
          ∀ c ∈ news, Holding c) := by
  have hread : (recording io (.read f.mountFD 1024)
      (recording io (.lseek f.mountFD hdlGameDataOffset) w).2).1.ret = r := hr
  refine ⟨(recording io (.lseek f.mountFD hdlGameDataOffset) w).1.ret, ?_, ?_⟩
  · intro hne
    rw [readInfo]
    simp only [hread, if_neg hne]
    refine ⟨trivial, trivial, ?_⟩
    rw [recording_calls, recording_calls, hread, List.append_assoc]
    rfl
  · intro hfull
    have hcalls : (recording io (.read f.mountFD 1024)
        (recording io (.lseek f.mountFD hdlGameDataOffset) w).2).2.2 = w.2 ++
          [(.lseek f.mountFD hdlGameDataOffset,
            (recording io (.lseek f.mountFD hdlGameDataOffset) w).1.ret),
           (.read f.mountFD 1024, 1024)] := by
      rw [recording_calls, recording_calls, hread, hfull, List.append_assoc]
      rfl
    rw [readInfo]
    simp only [hread, if_pos hfull]
    refine ⟨trivial, ?_⟩
    generalize (recording io (.read f.mountFD 1024)
      (recording io (.lseek f.mountFD hdlGameDataOffset) w).2).2 = w₂ at hcalls ⊢
    obtain ⟨news, hnews, hholding⟩ := addSizes_calls f.mountFD
      (u16 ((recording io (.hiocnsub f.mountFD) w₂).1.ret + 1)) 0 0
      (recording io (.hiocnsub f.mountFD) w₂).2
    refine ⟨(.hiocnsub f.mountFD, (recording io (.hiocnsub f.mountFD) w₂).1.ret) :: news, ?_, ?_⟩
    · rw [hnews, recording_calls, hcalls]
      simp only [List.append_assoc, List.cons_append, List.nil_append]
    · intro c hc
      rcases List.mem_cons.mp hc with rfl | hc
      · exact ⟨fun _ _ h => (by cases h), fun _ h => (by cases h)⟩
      · exact hholding c hc

/-! ## 3. When it is sound -/

/-- A mount that ends before it opens anything. -/
theorem mountSound_of_unopened {f : HdlfsFileDescriptor} {ret : ℤ} {calls : List (Call × ℤ)}
    (hret : ret < 0) (hcalls : ∀ c ∈ calls, Holding c) : MountSound f f ret calls where
  failed := by
    intro _
    refine ⟨hret, rfl, ?_⟩
    intro front back dev flags fd hsplit _
    have hmem : (Call.open dev flags, fd) ∈ calls := by
      rw [hsplit]
      exact List.mem_append_right _ (List.mem_cons_self ..)
    exact absurd rfl ((hcalls _ hmem).1 dev flags)
  kept := fun _ => .inl rfl

/-- Calls that close nothing. -/
theorem not_closedIn {calls : List (Call × ℤ)} (h : ∀ c ∈ calls, ∀ fd, c.1 ≠ .close fd) (fd : ℤ) :
    ¬ ClosedIn fd calls := by
  rintro ⟨ret, hmem⟩
  exact h _ hmem fd rfl

/-- One open between calls that open and close nothing. -/
theorem allClosed_iff {front back : List (Call × ℤ)} {dev : CStr} {flags : ℕ} {ret : ℤ}
    (hfront : ∀ c ∈ front, Holding c) (hback : ∀ c ∈ back, Holding c) :
    AllClosed (front ++ (.open dev flags, ret) :: back) ↔ ret < 0 := by
  constructor
  · intro h
    by_contra hneg
    have hclosed := h front back dev flags ret rfl (Int.not_lt.mp hneg)
    exact not_closedIn (fun c hc => (hback c hc).2) ret hclosed
  · intro hneg front' back' dev' flags' fd hsplit hfd
    have hmem : (Call.open dev' flags', fd) ∈ front ++ (.open dev flags, ret) :: back := by
      rw [hsplit]
      exact List.mem_append_right _ (List.mem_cons_self ..)
    rcases List.mem_append.mp hmem with hmem | hmem
    · exact absurd rfl ((hfront _ hmem).1 dev' flags')
    · rcases List.mem_cons.mp hmem with hsame | hmem
      · rw [(Prod.mk.inj hsame).2] at hfd
        omega
      · exact absurd rfl ((hback _ hmem).1 dev' flags')

/-- Changing the mounted flag back and forth. -/
theorem mountFD_eq_iff {f : HdlfsFileDescriptor} {fd : ℤ} :
    ({ f with mountFD := fd } : HdlfsFileDescriptor) = f ↔ fd = f.mountFD := by
  constructor
  · intro h
    exact congrArg HdlfsFileDescriptor.mountFD h
  · rintro rfl
    rfl

/-- The open fails: its result is all that changes. -/
theorem mountSound_failed_iff {f : HdlfsFileDescriptor} {front : List (Call × ℤ)} {dev : CStr}
    {flags : ℕ} {ret : ℤ} (hfront : ∀ c ∈ front, Holding c) (hunread : ¬HeaderRead front)
    (hret : ret < 0) :
    MountSound f { f with mountFD := ret } ret (front ++ [(.open dev flags, ret)]) ↔
      ret = f.mountFD := by
  have hno : ¬HeaderRead (front ++ [(.open dev flags, ret)]) := by
    rintro ⟨fd, hfd⟩
    rcases List.mem_append.mp hfd with hfd | hfd
    · exact hunread ⟨fd, hfd⟩
    · cases List.mem_singleton.mp hfd
  constructor
  · intro h
    exact mountFD_eq_iff.mp (h.failed hno).2.1
  · intro h
    rw [mountFD_eq_iff.mpr h]
    refine ⟨fun _ => ⟨hret, rfl, ?_⟩, fun _ => .inl rfl⟩
    exact (allClosed_iff hfront fun _ hc => absurd hc List.not_mem_nil).mpr hret

/-- The header is complete: what is left is the descriptor the unit had. -/
theorem mountSound_loaded_iff {before after : HdlfsFileDescriptor} {ret : ℤ}
    {calls : List (Call × ℤ)} (hread : HeaderRead calls) (hopen : ∀ fd, ¬ClosedIn fd calls) :
    MountSound before after ret calls ↔
      (0 ≤ before.mountFD → after.mountFD = before.mountFD) := by
  constructor
  · intro h hmounted
    rcases h.kept hmounted with hsame | hclosed
    · exact hsame
    · exact absurd hclosed (hopen _)
  · exact fun h => ⟨fun hno => absurd hread hno, fun hmounted => .inl (h hmounted)⟩

/-- The header is not complete: the descriptor stays open. -/
theorem not_mountSound_of_short {before after : HdlfsFileDescriptor} {ret fd seek r : ℤ}
    {front : List (Call × ℤ)} {dev : CStr} {flags offset : ℕ} (hfront : ∀ c ∈ front, Holding c)
    (hunread : ¬HeaderRead front) (hfd : 0 ≤ fd) (hr : r ≠ 1024) :
    ¬MountSound before after ret
      (front ++ (.open dev flags, fd) :: [(.lseek fd offset, seek), (.read fd 1024, r)]) := by
  intro h
  have hno : ¬HeaderRead
      (front ++ (.open dev flags, fd) :: [(.lseek fd offset, seek), (.read fd 1024, r)]) := by
    rintro ⟨fd', hmem⟩
    rcases List.mem_append.mp hmem with hmem | hmem
    · exact hunread ⟨fd', hmem⟩
    · simp only [List.mem_cons, Prod.mk.injEq, reduceCtorEq, false_and, false_or,
        List.not_mem_nil, or_false] at hmem
      exact hr hmem.2.symm
  refine absurd hfd (Int.not_le.mpr ((allClosed_iff hfront ?_).mp (h.failed hno).2.2))
  intro c hc
  rcases List.mem_cons.mp hc with rfl | hc
  · exact ⟨fun _ _ h => (by cases h), fun _ h => (by cases h)⟩
  · rw [List.mem_singleton.mp hc]
    exact ⟨fun _ _ h => (by cases h), fun _ h => (by cases h)⟩

/-- **A mount is sound exactly when** it ends before the open, the open fails with the descriptor
the unit has, or the header is complete and no other descriptor is lost. -/
theorem hdlfsMount_sound_iff (io : IomanX σ) (file : IopFile) (blockdev : CStr) (flags : ℕ)
    (d : Driver σ) :
    MountSound (d.fdList file.unit)
        ((hdlfsMount (recording io) file blockdev flags d.recorded).2.fdList file.unit)
        (hdlfsMount (recording io) file blockdev flags d.recorded).1
        (hdlfsMount (recording io) file blockdev flags d.recorded).2.world.2 ↔
      MountOk io file blockdev flags d := by
  by_cases hunit : file.unit < 2
  swap
  · rw [hdlfsMount, if_neg hunit]
    refine iff_of_true (mountSound_of_unopened (by decide : (-19 : ℤ) < 0) ?_)
      fun h => absurd h hunit
    intro c hc
    cases hc
  -- the calls before the open
  obtain ⟨s, hs⟩ : ∃ s, s = recording io (.getstat blockdev) (d.world, []) := ⟨_, rfl⟩
  have hstatRet : (statAnswer io blockdev d).1 = s.1 := by rw [hs]; rfl
  have hstatWorld : (statAnswer io blockdev d).2 = s.2.1 := by rw [hs]; rfl
  have hstatCalls : s.2.2 = [(.getstat blockdev, s.1.ret)] := by rw [hs]; rfl
  have hholding : ∀ c ∈ s.2.2, Holding c := by
    intro c hc
    rw [hstatCalls] at hc
    rw [List.mem_singleton.mp hc]
    exact ⟨fun _ _ h => (by cases h), fun _ h => (by cases h)⟩
  have hunread : ¬HeaderRead s.2.2 := by
    rintro ⟨fd, hfd⟩
    rw [hstatCalls] at hfd
    cases List.mem_singleton.mp hfd
  rw [hdlfsMount, if_pos hunit, MountOk]
  simp only [Driver.recorded, ← hs, hstatRet]
  by_cases hstat : 0 ≤ s.1.ret
  swap
  · rw [if_neg hstat]
    exact iff_of_true (mountSound_of_unopened (Int.not_le.mp hstat) hholding)
      fun _ h => absurd h hstat
  rw [if_pos hstat]
  by_cases hmode : s.1.mode = 0x1337
  swap
  · rw [if_neg hmode]
    exact iff_of_true (mountSound_of_unopened (by decide : (-24 : ℤ) < 0) hholding)
      fun _ _ h => absurd h hmode
  rw [if_pos hmode]
  obtain ⟨mode, hmodeEq⟩ : ∃ mode, mode = if flags = 0 then 3 else 1 := ⟨_, rfl⟩
  obtain ⟨o, ho⟩ : ∃ o, o = recording io (.open blockdev mode) s.2 := ⟨_, rfl⟩
  have hopenAnswer : openAnswer io blockdev flags d = (o.1, o.2.1) := by
    rw [ho, openAnswer, hstatWorld, ← hmodeEq]
    rfl
  have hopenCalls : o.2.2 = s.2.2 ++ [(.open blockdev mode, o.1.ret)] := by
    rw [ho, recording_calls]
  simp only [← hmodeEq, ← ho, hopenAnswer, Function.update_self]
  by_cases hopen : 0 ≤ o.1.ret
  swap
  · simp only [if_neg hopen]
    rw [hopenCalls, mountSound_failed_iff hholding hunread (Int.not_le.mp hopen)]
    exact ⟨fun h _ _ _ => h, fun h => h hunit hstat hmode⟩
  simp only [if_pos hopen]
  obtain ⟨r, hr⟩ : ∃ r, (readAnswer io blockdev flags d).1.ret = r := ⟨_, rfl⟩
  have hread := hr
  rw [readAnswer, hopenAnswer] at hread
  obtain ⟨seek, hshort, hfull⟩ := readInfo_recorded file.unit
    { d.fdList file.unit with mountFD := o.1.ret } o.2 hread
  rw [hr]
  by_cases hheader : r = 1024
  · obtain ⟨hfd, news, hcalls, hnews⟩ := hfull hheader
    have hloaded : HeaderRead (readInfo (recording io) file.unit
        { d.fdList file.unit with mountFD := o.1.ret } o.2).2.2.2 := by
      refine ⟨o.1.ret, ?_⟩
      rw [hcalls]
      simp
    have hopened : ∀ fd, ¬ ClosedIn fd (readInfo (recording io) file.unit
        { d.fdList file.unit with mountFD := o.1.ret } o.2).2.2.2 := by
      refine not_closedIn ?_
      rw [hcalls, hopenCalls, hstatCalls]
      intro c hc fd
      simp only [List.cons_append, List.nil_append, List.mem_cons] at hc
      rcases hc with rfl | rfl | rfl | rfl | hc
      · exact fun h => (by cases h)
      · exact fun h => (by cases h)
      · exact fun h => (by cases h)
      · exact fun h => (by cases h)
      · exact (hnews c hc).2 fd
    rw [mountSound_loaded_iff hloaded hopened, hfd]
    exact ⟨fun h _ _ _ => ⟨hheader, h⟩, fun h => (h hunit hstat hmode).2⟩
  · obtain ⟨-, -, hcalls⟩ := hshort hheader
    refine iff_of_false ?_ fun h => hheader (h hunit hstat hmode).1
    rw [hcalls, hopenCalls, List.append_assoc]
    exact not_mountSound_of_short hholding hunread hopen hheader

end Mount

/-! ## 4. A short header -/

/-- `twoSliceApa` on a disk where only half of a header can be read. -/
def shortApa : IomanX ApaView
  | .read _ _, v => ({ ret := 512 }, v)
  | c, v => twoSliceApa c v

/-- **A header that is read in part mounts the unit.**  The mount returns 512, and the unit has
the descriptor, but no layout; `hdlfs_open` takes it for mounted.  A second mount of a unit whose
header is complete loses its first descriptor. -/
theorem short_header_mounts :
    (hdlfsMount (recording shortApa) {} (ascii ['A']) 0
      ({ world := blank } : Driver ApaView).recorded).1 = 512 ∧
    ((hdlfsMount (recording shortApa) {} (ascii ['A']) 0
      ({ world := blank } : Driver ApaView).recorded).2.fdList 0).mountFD = 0 ∧
    (hdlfsOpen {} (hdlfsMount (recording shortApa) {} (ascii ['A']) 0
      ({ world := blank } : Driver ApaView).recorded).2).1 = 0 ∧
    ¬ MountSound (({ world := blank } : Driver ApaView).fdList 0)
      ((hdlfsMount (recording shortApa) {} (ascii ['A']) 0
        ({ world := blank } : Driver ApaView).recorded).2.fdList 0)
      (hdlfsMount (recording shortApa) {} (ascii ['A']) 0
        ({ world := blank } : Driver ApaView).recorded).1
      (hdlfsMount (recording shortApa) {} (ascii ['A']) 0
        ({ world := blank } : Driver ApaView).recorded).2.world.2 ∧
    (mounted.fdList 0).mountFD = 0 ∧
    ((hdlfsMount twoSliceApa {} (ascii ['A']) 0 mounted).2.fdList 0).mountFD = 1 := by
  refine ⟨by decide, by decide, by decide, ?_, by decide, by decide⟩
  intro h
  have hno : ¬ HeaderRead (hdlfsMount (recording shortApa) {} (ascii ['A']) 0
      ({ world := blank } : Driver ApaView).recorded).2.world.2 := by
    rintro ⟨fd, hfd⟩
    have hcalls : (hdlfsMount (recording shortApa) {} (ascii ['A']) 0
        ({ world := blank } : Driver ApaView).recorded).2.world.2 =
          [(.getstat (ascii ['A']), 0), (.open (ascii ['A']) 3, 0),
           (.lseek 0 hdlGameDataOffset, 1048576), (.read 0 1024, 512)] := rfl
    rw [hcalls] at hfd
    simp at hfd
  exact absurd (h.failed hno).1 (by decide)

end PfsShell.Hdlfs
