/-
# The layout a unit has, and the layout on the disk

`hdlfs_mount` copies `part_specs` into the unit, and every transfer goes by the copy.  Of the
operations that change the header, `hdlfs_chstat` and `HDLFS_DEVCTL_SET_TITLE` leave the table
alone; `hdlfs_format` writes a new one, and no unit hears of it.

The table a format writes is settled by the slices and the size of the game
(`hdlfsFormat_layout`), so a format of a mounted partition is harmless only when it lays the game
out as it was.

* `cached_of_run`: along every run of successful operations that format no partition to another
  layout than the one a unit is mounted over, every mounted unit has the table of its header;
* `stale_after_format`: mount and then format, the order of the driver's README.
-/
import PfsShell.Hdlfs.Position

namespace PfsShell.Hdlfs

open PfsShell.Lib

/-! ## 1. What the operations do to the units and the headers -/

section Layout

variable {σ : Type} {io : IomanX σ} {geo : CStr → Partition} {view : σ → ApaView}

/-- The rest of what the driver relies on: a descriptor that is opened was not open, and
`HIOCFLUSH` changes nothing of what is in the view. -/
structure MountLaws {σ : Type} (io : IomanX σ) (geo : CStr → Partition) (view : σ → ApaView) :
    Prop extends HeaderLaws io geo view where
  fresh : ∀ dev flags w, 0 ≤ (io (.open dev flags) w).1.ret →
    (view w).on (io (.open dev flags) w).1.ret = none
  hiocflush : ∀ fd w, view (io (.hiocflush fd) w).2 = view w

/-- **A format that succeeds** writes the layout of the game, and closes what it has opened. -/
theorem hdlfsFormat_layout (laws : MountLaws io geo view) {args : HdlfsFormatArgs} {dev : CStr}
    {w w' : σ} (hn : args.numSectors < 2 ^ 32) (h : hdlfsFormat io args dev w = (0, w')) :
    (view w').on = (view w).on ∧ (∀ j, j ≠ dev → (view w').info j = (view w).info j) ∧
      ∀ i, ((view w').info dev).partSpecs i = (geo dev).layout args.numSectors i := by
  obtain ⟨fd, w₂, l, hfd, hpos, hon, hl, hresult, -, hstored, hothers, hclosed⟩ :=
    hdlfsFormat_written laws.toHeaderLaws hn h
  refine ⟨?_, hothers, fun i => ?_⟩
  · have hfresh := laws.fresh dev 2 (io (.devctlMaxsector dev) w).2 (hfd ▸ hpos)
    rw [← hfd, laws.devctl dev w] at hfresh
    rw [hclosed]
    exact Function.update_eq_self_iff.mpr hfresh.symm
  · obtain ⟨-, hfollows⟩ := layParts_follows laws.toHeaderLaws hn ((geo dev).nsub + 1) 0
      { world := w₂ } (Nat.zero_add _) hon (.start _ _ w₂)
    rw [← hl] at hfollows
    rw [hstored, ← (hfollows hresult).partSpecs_eq]
    rfl

/-- Reading the header: it is the one of the partition. -/
theorem readHeader_view (laws : HeaderLaws io geo view) {fd : ℤ} {dev : CStr} {w : σ}
    (hon : (view w).on fd = some dev) :
    ∃ r, io (.read fd 1024) (io (.lseek fd hdlGameDataOffset) w).2 = r ∧
      (r.1.ret = 1024 → r.1.info = (view w).info dev) ∧ (view r.2).on = (view w).on ∧
      (view r.2).info = (view w).info ∧ (view r.2).disk = (view w).disk := by
  have hseek := laws.lseek fd hdlGameDataOffset w
  generalize (io (.lseek fd hdlGameDataOffset) w).2 = w₁ at hseek ⊢
  have hon₁ : (view w₁).on fd = some dev := by simp [hseek, hon]
  have hpos₁ : (view w₁).pos fd = hdlGameDataOffset := by simp [hseek]
  obtain ⟨hread, p, hview₂⟩ := laws.read fd dev w₁ hon₁ hpos₁
  refine ⟨_, rfl, fun hret => ?_, ?_, ?_, ?_⟩
  · rcases hread with ⟨-, hinfo⟩ | hneg
    · rw [hinfo, hseek]
    · omega
  · rw [hview₂, hseek]
  · rw [hview₂, hseek]
  · rw [hview₂, hseek]

/-- Writing the header.  What lies behind the reserved areas stays. -/
theorem writeHeader_view (laws : HeaderLaws io geo view) {fd : ℤ} {dev : CStr} {w : σ}
    (info : HdlGameInfo) (hon : (view w).on fd = some dev) :
    ∃ r, io (.write fd info 1024) (io (.lseek fd hdlGameDataOffset) w).2 = r ∧
      (r.1.ret = 1024 → (view r.2).on = (view w).on ∧
        (view r.2).info = Function.update (view w).info dev info ∧
        ∀ a, ¬ (geo dev).InReserved a → (view r.2).disk a = (view w).disk a) := by
  have hseek := laws.lseek fd hdlGameDataOffset w
  generalize (io (.lseek fd hdlGameDataOffset) w).2 = w₁ at hseek ⊢
  have hon₁ : (view w₁).on fd = some dev := by simp [hseek, hon]
  have hpos₁ : (view w₁).pos fd = hdlGameDataOffset := by simp [hseek]
  refine ⟨_, rfl, fun hret => ?_⟩
  obtain ⟨p, disk, hview₂, hdata⟩ := laws.write fd dev info w₁ hon₁ hpos₁ hret
  refine ⟨by rw [hview₂, hseek], by rw [hview₂, hseek], fun a ha => ?_⟩
  rw [hview₂, hseek]
  rw [hseek] at hdata
  exact hdata a ha

/-- `d'` is `d` with the header of `dev` changed by `f`. -/
def HeaderChanged (view : σ → ApaView) (dev : CStr) (f : HdlGameInfo → HdlGameInfo)
    (d d' : Driver σ) : Prop :=
  d'.fdList = d.fdList ∧ (view d'.world).on = (view d.world).on ∧
    (view d'.world).info = Function.update (view d.world).info dev (f ((view d.world).info dev))

variable {dev : CStr} {file : IopFile} {d d' : Driver σ}

/-- **A `chstat` that succeeds** writes the header with the fields it is asked to change, and
nothing behind the reserved areas. -/
theorem hdlfsChstat_success (laws : HeaderLaws io geo view) {stat : IoxStat} {flags : ℕ} {ret : ℤ}
    (hon : (view d.world).on (d.fdList file.unit).mountFD = some dev)
    (h : hdlfsChstat io file stat flags d = (ret, d')) (hret : 0 ≤ ret) :
    HeaderChanged view dev (HdlGameInfo.setStat stat flags) d d' ∧
      ∀ a, ¬ (geo dev).InReserved a → (view d'.world).disk a = (view d.world).disk a := by
  unfold hdlfsChstat at h
  obtain ⟨r, hr, hinfo, hon₁, hinfo₁, hdisk₁⟩ := readHeader_view laws hon
  simp only [hr] at h
  split at h
  · split at h
    · rename_i hfull
      obtain ⟨s, hs, hwrite⟩ := writeHeader_view laws (r.1.info.setStat stat flags)
        (w := r.2) (by rw [hon₁]; exact hon)
      simp only [hs] at h
      split at h
      · obtain ⟨rfl, rfl⟩ := Prod.mk.inj h
        split at hret
        · rename_i hdone
          obtain ⟨hon₂, hinfo₂, hdata⟩ := hwrite hdone
          refine ⟨⟨rfl, hon₂.trans hon₁, ?_⟩, fun a ha => (hdata a ha).trans (congrFun hdisk₁ a)⟩
          simp only [hinfo₂, hinfo₁, hinfo hfull]
        · exact absurd hret (by decide)
      · obtain ⟨rfl, -⟩ := Prod.mk.inj h
        exact absurd hret (by decide)
    · obtain ⟨rfl, -⟩ := Prod.mk.inj h
      exact absurd hret (by decide)
  · obtain ⟨rfl, -⟩ := Prod.mk.inj h
    exact absurd hret (by decide)

/-- **A `SET_TITLE` that succeeds** changes the title. -/
theorem hdlfsDevctlSetTitle_changed (laws : HeaderLaws io geo view) {arg : List UInt8} {ret : ℤ}
    (hon : (view d.world).on (d.fdList file.unit).mountFD = some dev)
    (h : hdlfsDevctlSetTitle io file arg d = (ret, d')) (hret : 0 ≤ ret) :
    HeaderChanged view dev (HdlGameInfo.setTitle arg) d d' := by
  unfold hdlfsDevctlSetTitle hdlfsUpdateGameTitle at h
  obtain ⟨r, hr, hinfo, hon₁, hinfo₁, -⟩ := readHeader_view laws hon
  simp only [hr] at h
  split at h
  · split at h
    · split at h
      · rename_i hfull
        obtain ⟨s, hs, hwrite⟩ := writeHeader_view laws (r.1.info.setTitle arg) (w := r.2)
          (by rw [hon₁]; exact hon)
        simp only [hs] at h
        obtain ⟨rfl, rfl⟩ := Prod.mk.inj h
        split at hret
        · rename_i hdone
          obtain ⟨hon₂, hinfo₂, -⟩ := hwrite hdone
          exact ⟨rfl, hon₂.trans hon₁, by simp only [hinfo₂, hinfo₁, hinfo hfull]⟩
        · exact absurd hret (by decide)
      · obtain ⟨rfl, -⟩ := Prod.mk.inj h
        exact absurd hret (by decide)
    · obtain ⟨rfl, -⟩ := Prod.mk.inj h
      exact absurd hret (by decide)
  · obtain ⟨rfl, -⟩ := Prod.mk.inj h
    exact absurd hret (by decide)

/-- Neither changes the table. -/
@[simp] theorem partSpecs_setStat (stat : IoxStat) (flags : ℕ) (info : HdlGameInfo) :
    (info.setStat stat flags).partSpecs = info.partSpecs := by
  unfold HdlGameInfo.setStat
  simp only
  split <;> split <;> rfl

@[simp] theorem partSpecs_setTitle (newName : List UInt8) (info : HdlGameInfo) :
    (info.setTitle newName).partSpecs = info.partSpecs := rfl

/-- **An umount that succeeds** closes the unit's descriptor, and touches no other. -/
theorem hdlfsUmount_spec (laws : MountLaws io geo view) {ret : ℤ}
    (h : hdlfsUmount io file d = (ret, d')) (hret : 0 ≤ ret) :
    (d'.fdList file.unit).mountFD = -1 ∧
      (∀ u, u ≠ file.unit → d'.fdList u = d.fdList u) ∧
      (view d'.world).on = Function.update (view d.world).on (d.fdList file.unit).mountFD none ∧
      (view d'.world).info = (view d.world).info := by
  unfold hdlfsUmount at h
  simp only at h
  split at h
  · obtain ⟨-, rfl⟩ := Prod.mk.inj h
    refine ⟨by simp only [Function.update_self], fun u hu => ?_, ?_, ?_⟩
    · exact Function.update_of_ne hu _ _
    · simp only [laws.closed, laws.hiocflush]
    · simp only [laws.closed, laws.hiocflush]
  · obtain ⟨rfl, -⟩ := Prod.mk.inj h
    exact absurd hret (by decide)

/-- Reading the header at the mount opens nothing and changes no header. -/
theorem readInfo_view (laws : HeaderLaws io geo view) (unit : ℕ) (f : HdlfsFileDescriptor) {w : σ}
    (hon : (view w).on f.mountFD = some dev) :
    (readInfo io unit f w).2.1.mountFD = f.mountFD ∧
      (view (readInfo io unit f w).2.2).on = (view w).on ∧
      (view (readInfo io unit f w).2.2).info = (view w).info := by
  obtain ⟨r, hr, -, hon₁, hinfo₁, -⟩ := readHeader_view laws hon
  unfold readInfo
  simp only [hr]
  split
  · have hon₂ : (view r.2).on f.mountFD = some dev := by rw [hon₁]; exact hon
    obtain ⟨hnsub, hview₃⟩ := laws.hiocnsub f.mountFD dev r.2 hon₂
    generalize io (.hiocnsub f.mountFD) r.2 = c at hnsub hview₃ ⊢
    have hcount : u16 (c.1.ret + 1) = (geo dev).nsub + 1 := by
      have := (geo dev).nsub_le
      rw [hnsub]
      unfold u16
      omega
    have hsizes : view (addSizes io f.mountFD ((geo dev).nsub + 1) 0 0 c.2).2 = view c.2 :=
      view_addSizes laws (Nat.zero_add _) (by rw [hview₃]; exact hon₂)
    rw [hcount]
    refine ⟨rfl, ?_, ?_⟩
    · simp only [hsizes, hview₃, hon₁]
    · simp only [hsizes, hview₃, hinfo₁]
  · exact ⟨rfl, hon₁, hinfo₁⟩

/-- **A mount that succeeds** opens one descriptor more, for its unit. -/
theorem hdlfsMount_view (laws : MountLaws io geo view) {flags : ℕ} {ret : ℤ}
    (h : hdlfsMount io file dev flags d = (ret, d')) (hret : 0 ≤ ret) :
    (view d.world).on (d'.fdList file.unit).mountFD = none ∧
      (∀ u, u ≠ file.unit → d'.fdList u = d.fdList u) ∧
      (view d'.world).on =
        Function.update (view d.world).on (d'.fdList file.unit).mountFD (some dev) ∧
      (view d'.world).info = (view d.world).info := by
  unfold hdlfsMount at h
  split at h
  · simp only at h
    have hstat := laws.getstat dev d.world
    generalize io (.getstat dev) d.world = s at h hstat
    generalize (if flags = 0 then 3 else 1) = mode at h
    split at h
    · split at h
      · obtain ⟨rfl, rfl⟩ := Prod.mk.inj h
        simp only [Function.update_self]
        split at hret
        · rename_i hopen
          have hfresh := laws.fresh dev mode s.2 hopen
          have hview := laws.opened dev mode s.2 hopen
          rw [if_pos hopen]
          generalize io (.open dev mode) s.2 = o at hfresh hview hopen hret ⊢
          have hon : (view o.2).on o.1.ret = some dev := by simp [hview]
          obtain ⟨hfd, hon₁, hinfo₁⟩ := readInfo_view laws.toHeaderLaws file.unit
            { d.fdList file.unit with mountFD := o.1.ret } hon
          rw [hfd, hon₁, hinfo₁, hview, hstat]
          rw [hstat] at hfresh
          exact ⟨hfresh, fun u hu => Function.update_of_ne hu _ _, rfl, rfl⟩
        · rename_i hopen
          exact absurd hret hopen
      · obtain ⟨rfl, -⟩ := Prod.mk.inj h
        exact absurd hret (by decide)
    · rename_i hneg
      obtain ⟨rfl, -⟩ := Prod.mk.inj h
      exact absurd hret hneg
  · obtain ⟨rfl, -⟩ := Prod.mk.inj h
    exact absurd hret (by decide)

/-- A format reports success as 0. -/
theorem hdlfsFormat_eq_zero (io : IomanX σ) {args : HdlfsFormatArgs} {w : σ}
    (h : 0 ≤ (hdlfsFormat io args dev w).1) : (hdlfsFormat io args dev w).1 = 0 := by
  have hwrite : ∀ (fd num : ℤ) (l : Laying σ), 0 ≤ (writeInfo io fd args num l).1 →
      (writeInfo io fd args num l).1 = 0 := by
    intro fd num l
    unfold writeInfo
    split
    · split
      · exact fun hneg => absurd hneg (by decide : ¬ (0 : ℤ) ≤ -12)
      · simp only
        split
        · exact fun _ => rfl
        · exact fun hneg => absurd hneg (by decide)
    · rename_i hresult
      exact fun hnonneg => absurd hnonneg hresult
  unfold hdlfsFormat at h ⊢
  simp only at h ⊢
  split at h
  · rename_i hopen
    rw [if_pos hopen]
    exact hwrite _ _ _ h
  · rename_i hopen
    exact absurd h hopen

/-! ## 2. Runs of successful operations -/

/-- The operations that set up a unit or change a header. -/
inductive UnitOp
  | mount (unit : ℕ) (blockdev : CStr) (flags : ℕ)
  | umount (unit : ℕ)
  | format (blockdev : CStr) (args : HdlfsFormatArgs)
  | chstat (unit : ℕ) (stat : IoxStat) (flags : ℕ)
  | setTitle (unit : ℕ) (arg : List UInt8)

/-- The operation as the driver does it. -/
def UnitOp.exec (io : IomanX σ) : UnitOp → Driver σ → ℤ × Driver σ
  | .mount unit blockdev flags, d => hdlfsMount io { unit := unit } blockdev flags d
  | .umount unit, d => hdlfsUmount io { unit := unit } d
  | .format blockdev args, d =>
    ((hdlfsFormat io args blockdev d.world).1,
      { d with world := (hdlfsFormat io args blockdev d.world).2 })
  | .chstat unit stat flags, d => hdlfsChstat io { unit := unit } stat flags d
  | .setTitle unit arg, d => hdlfsDevctlSetTitle io { unit := unit } arg d

/-- The operation as a step, if it reports success. -/
def UnitOp.next (io : IomanX σ) (op : UnitOp) (d : Driver σ) : Option (Driver σ) :=
  if 0 ≤ (op.exec io d).1 then some (op.exec io d).2 else none

/-- `NumSectors` is an `unsigned int`. -/
def UnitOp.Typed : UnitOp → Prop
  | .format _ args => args.numSectors < 2 ^ 32
  | _ => True

/-- **Every mounted unit has the table of the header of its partition.** -/
def Cached (view : σ → ApaView) (d : Driver σ) : Prop :=
  ∀ u, 0 ≤ (d.fdList u).mountFD → ∃ dev, (view d.world).on (d.fdList u).mountFD = some dev ∧
    ∀ i, i < 65 → (d.fdList u).partSpecs i = ((view d.world).info dev).partSpecs i

/-- A format of a partition that a unit is mounted on lays the game out as it was. -/
def UnitOp.KeepsLayout (geo : CStr → Partition) (view : σ → ApaView) (op : UnitOp)
    (d : Driver σ) : Prop :=
  match op with
  | .format dev args => ∀ u, 0 ≤ (d.fdList u).mountFD →
      (view d.world).on (d.fdList u).mountFD = some dev →
      ∀ i, i < 65 → ((view d.world).info dev).partSpecs i = (geo dev).layout args.numSectors i
  | _ => True

/-- No two units share a descriptor. -/
def OwnFds (d : Driver σ) : Prop :=
  ∀ u v, 0 ≤ (d.fdList u).mountFD → (d.fdList u).mountFD = (d.fdList v).mountFD → u = v

/-- Changing anything but the table in a header. -/
theorem HeaderChanged.cached {f : HdlGameInfo → HdlGameInfo} (h : HeaderChanged view dev f d d')
    (hf : ∀ info, (f info).partSpecs = info.partSpecs) (hc : Cached view d) (ho : OwnFds d) :
    Cached view d' ∧ OwnFds d' := by
  obtain ⟨hfds, hon, hinfo⟩ := h
  refine ⟨fun u hu => ?_, by rw [OwnFds, hfds]; exact ho⟩
  rw [hfds] at hu ⊢
  obtain ⟨dev', hdev', htable⟩ := hc u hu
  refine ⟨dev', by rw [hon]; exact hdev', fun i hi => ?_⟩
  rw [htable i hi, hinfo, Function.update_apply]
  split
  · rename_i heq
    rw [hf, heq]
  · rfl

/-- A mount. -/
theorem cached_mount (laws : MountLaws io geo view) {flags : ℕ} {ret : ℤ}
    (h : hdlfsMount io file dev flags d = (ret, d')) (hret : 0 ≤ ret) (hc : Cached view d)
    (ho : OwnFds d) : Cached view d' ∧ OwnFds d' := by
  obtain ⟨-, hloaded, hon⟩ := hdlfsMount_loaded laws.toHeaderLaws h hret
  obtain ⟨hfresh, hothers, hon', hinfo⟩ := hdlfsMount_view laws h hret
  -- the descriptor of a unit that was mounted before is another one
  have hother : ∀ u, u ≠ file.unit → 0 ≤ (d.fdList u).mountFD →
      (d.fdList u).mountFD ≠ (d'.fdList file.unit).mountFD := by
    intro u _ hu heq
    obtain ⟨dev', hdev', -⟩ := hc u hu
    rw [heq, hfresh] at hdev'
    cases hdev'
  refine ⟨fun u hu => ?_, fun u v hu heq => ?_⟩
  · by_cases hunit : u = file.unit
    · subst hunit
      exact ⟨dev, hon, fun i hi => by rw [hinfo]; exact hloaded.partSpecs i hi⟩
    · rw [hothers u hunit] at hu ⊢
      obtain ⟨dev', hdev', htable⟩ := hc u hu
      refine ⟨dev', ?_, by rw [hinfo]; exact htable⟩
      rw [hon', Function.update_of_ne (hother u hunit hu)]
      exact hdev'
  · by_cases hunit : u = file.unit
    · by_cases hunit' : v = file.unit
      · rw [hunit, hunit']
      · rw [hunit] at hu heq
        rw [hothers v hunit'] at heq
        exact absurd heq.symm (hother v hunit' (heq ▸ hu))
    · rw [hothers u hunit] at hu heq
      by_cases hunit' : v = file.unit
      · rw [hunit'] at heq
        exact absurd heq (hother u hunit hu)
      · rw [hothers v hunit'] at heq
        exact ho u v hu heq

/-- An umount. -/
theorem cached_umount (laws : MountLaws io geo view) {ret : ℤ}
    (h : hdlfsUmount io file d = (ret, d')) (hret : 0 ≤ ret) (hc : Cached view d)
    (ho : OwnFds d) : Cached view d' ∧ OwnFds d' := by
  obtain ⟨hclosed, hothers, hon, hinfo⟩ := hdlfsUmount_spec laws h hret
  have hunit : ∀ u, 0 ≤ (d'.fdList u).mountFD → u ≠ file.unit := by
    intro u hu heq
    rw [heq, hclosed] at hu
    exact absurd hu (by decide)
  refine ⟨fun u hu => ?_, fun u v hu heq => ?_⟩
  · have hne := hunit u hu
    rw [hothers u hne] at hu ⊢
    obtain ⟨dev', hdev', htable⟩ := hc u hu
    refine ⟨dev', ?_, by rw [hinfo]; exact htable⟩
    rw [hon, Function.update_of_ne fun heq => hne (ho u _ hu heq)]
    exact hdev'
  · have hne := hunit u hu
    have hne' := hunit v (heq ▸ hu)
    rw [hothers u hne] at hu heq
    rw [hothers v hne'] at heq
    exact ho u v hu heq

/-- A format. -/
theorem cached_format (laws : MountLaws io geo view) {args : HdlfsFormatArgs} {w : σ}
    (hn : args.numSectors < 2 ^ 32) (h : hdlfsFormat io args dev d.world = (0, w))
    (hc : Cached view d) : Cached view { d with world := w } ↔
      (UnitOp.format dev args).KeepsLayout geo view d := by
  obtain ⟨hon, hinfo, hlayout⟩ := hdlfsFormat_layout laws hn h
  constructor
  · intro hcached u hu hdev i hi
    obtain ⟨dev', hdev', htable⟩ := hcached u hu
    simp only [hon, hdev, Option.some.injEq] at hdev'
    subst hdev'
    obtain ⟨dev'', hdev'', hbefore⟩ := hc u hu
    rw [hdev, Option.some.injEq] at hdev''
    subst hdev''
    rw [← hbefore i hi, ← hlayout i]
    exact htable i hi
  · intro hkeeps u hu
    obtain ⟨dev', hdev', htable⟩ := hc u hu
    refine ⟨dev', by simp only [hon]; exact hdev', fun i hi => ?_⟩
    simp only [htable i hi]
    by_cases hsame : dev' = dev
    · subst hsame
      rw [hlayout i]
      exact hkeeps u hu hdev' i hi
    · rw [hinfo dev' hsame]

/-- **One operation that succeeds.** -/
theorem cached_next (laws : MountLaws io geo view) {op : UnitOp} (htyped : op.Typed)
    (h : op.next io d = some d') (hc : Cached view d) (ho : OwnFds d) :
    OwnFds d' ∧ (Cached view d' ↔ op.KeepsLayout geo view d) := by
  unfold UnitOp.next at h
  split at h
  · rename_i hret
    obtain rfl := Option.some.inj h
    cases op with
    | mount unit dev flags =>
      obtain ⟨hc', ho'⟩ := cached_mount laws rfl hret hc ho
      exact ⟨ho', iff_of_true hc' trivial⟩
    | umount unit =>
      obtain ⟨hc', ho'⟩ := cached_umount laws rfl hret hc ho
      exact ⟨ho', iff_of_true hc' trivial⟩
    | format dev args =>
      exact ⟨ho, cached_format laws htyped
        (Prod.ext (hdlfsFormat_eq_zero io hret) rfl) hc⟩
    | chstat unit stat flags =>
      have hmounted : 0 ≤ (d.fdList unit).mountFD := by
        by_contra hnot
        simp only [UnitOp.exec, hdlfsChstat] at hret
        rw [if_neg fun h => hnot h.2] at hret
        exact absurd hret (by decide : ¬ (0 : ℤ) ≤ -19)
      obtain ⟨dev, hdev, -⟩ := hc unit hmounted
      obtain ⟨hc', ho'⟩ := (hdlfsChstat_success laws.toHeaderLaws hdev rfl hret).1.cached
        (partSpecs_setStat stat flags) hc ho
      exact ⟨ho', iff_of_true hc' trivial⟩
    | setTitle unit arg =>
      have hmounted : 0 ≤ (d.fdList unit).mountFD := by
        by_contra hnot
        simp only [UnitOp.exec, hdlfsDevctlSetTitle] at hret
        rw [if_neg fun h => hnot h.2] at hret
        exact absurd hret (by decide : ¬ (0 : ℤ) ≤ -19)
      obtain ⟨dev, hdev, -⟩ := hc unit hmounted
      obtain ⟨hc', ho'⟩ := (hdlfsDevctlSetTitle_changed laws.toHeaderLaws hdev rfl hret).cached
        (partSpecs_setTitle arg) hc ho
      exact ⟨ho', iff_of_true hc' trivial⟩
  · cases h

/-- **The mounted layout is the layout on the disk**, along every run of successful operations
from an empty unit table that formats no partition a unit is mounted on, save to the layout it
has; and the next operation keeps it so just when it does the same. -/
theorem cached_of_run (laws : MountLaws io geo view) {ops : List UnitOp}
    (hinit : ∀ u, (d.fdList u).mountFD = -1) (htyped : ∀ op ∈ ops, op.Typed)
    (hrun : run (UnitOp.next io) ops d = some d')
    (hkeeps : Along (UnitOp.next io) (UnitOp.KeepsLayout geo view) ops d) :
    Cached view d' ∧ ∀ op : UnitOp, op.Typed → ∀ d'', op.next io d' = some d'' →
      (Cached view d'' ↔ op.KeepsLayout geo view d') := by
  have hall : ∀ (ops : List UnitOp) (e : Driver σ), (∀ op ∈ ops, op.Typed) → Cached view e →
      OwnFds e → run (UnitOp.next io) ops e = some d' →
      Along (UnitOp.next io) (UnitOp.KeepsLayout geo view) ops e →
      Cached view d' ∧ OwnFds d' := by
    intro ops
    induction ops with
    | nil =>
      intro e _ hc ho hrun _
      obtain rfl := Option.some.inj hrun
      exact ⟨hc, ho⟩
    | cons op ops ih =>
      intro e htyped hc ho hrun hkeeps
      obtain ⟨t, ht, hrest⟩ := run_cons.mp hrun
      obtain ⟨ho', hiff⟩ := cached_next laws (htyped op List.mem_cons_self) ht hc ho
      exact ih t (fun op hop => htyped op (List.mem_cons_of_mem _ hop)) (hiff.mpr hkeeps.1) ho'
        hrest (hkeeps.2 t ht)
  have hunmounted : ∀ u, ¬ 0 ≤ (d.fdList u).mountFD := by
    intro u hu
    rw [hinit u] at hu
    exact absurd hu (by decide)
  obtain ⟨hc, ho⟩ := hall ops d htyped (fun u hu => absurd hu (hunmounted u))
    (fun u _ hu _ => absurd hu (hunmounted u)) hrun hkeeps
  exact ⟨hc, fun op hop d'' hnext => (cached_next laws hop hnext hc ho).2⟩

end Layout

/-! ## 3. Mount, then format -/

theorem smallApa_mountLaws {geo : CStr → Partition}
    (hstart : ∀ dev i, ((geo dev).slice i).start < 4294967296) :
    MountLaws (smallApa geo) geo id where
  toHeaderLaws := (smallApa_laws hstart).toHeaderLaws
  fresh dev flags w h := by
    simp only [smallApa] at h ⊢
    split at h
    · rename_i k hk
      simpa using List.find?_some hk
    · exact absurd h (by decide : ¬ (0 : ℤ) ≤ -24)
  hiocflush _ _ := rfl

theorem twoSliceApa_mountLaws : MountLaws twoSliceApa (fun _ => twoSlices) id := by
  refine smallApa_mountLaws fun _ i => ?_
  simp only [twoSlices]
  split <;> decide

/-- Partition A is formatted for three sectors, and then mounted; B is formatted, and A is given
a title. -/
def formatThenMount : List UnitOp :=
  [.format (ascii ['A']) { numSectors := 3 }, .mount 0 (ascii ['A']) 0,
    .format (ascii ['B']) { numSectors := 2 }, .setTitle 0 (ascii ['t'])]

theorem cached_of_run_formatted : ∃ d',
    run (UnitOp.next twoSliceApa) formatThenMount { world := blank } = some d' ∧
      0 ≤ (d'.fdList 0).mountFD ∧ Cached id d' := by
  have hkeeps : Along (UnitOp.next twoSliceApa) (UnitOp.KeepsLayout (fun _ => twoSlices) id)
      formatThenMount { world := blank } := by
    refine ⟨fun u hu => absurd hu (by decide : ¬ (0 : ℤ) ≤ -1), fun t ht => ⟨trivial, fun v hv =>
      ⟨fun u hu hdev => ?_, fun _ _ => ⟨trivial, fun _ _ => trivial⟩⟩⟩⟩
    obtain rfl := Option.some.inj ht
    obtain rfl := Option.some.inj hv
    cases u with
    | zero => exact absurd hdev (by decide)
    | succ u => exact absurd hu (by decide : ¬ (0 : ℤ) ≤ -1)
  have htyped : ∀ op ∈ formatThenMount, op.Typed := by
    simp [formatThenMount, UnitOp.Typed]
  obtain ⟨d', hd'⟩ : ∃ d', run (UnitOp.next twoSliceApa) formatThenMount { world := blank } =
      some d' := ⟨_, rfl⟩
  have hcached := (cached_of_run twoSliceApa_mountLaws (fun _ => rfl) htyped hd' hkeeps).1
  obtain rfl := Option.some.inj hd'
  exact ⟨_, rfl, by decide, hcached⟩

/-- **Mount, then format.**  In the order of the driver's README the unit keeps the table that
was on the disk before: its first part has no byte, and that of the header 4096. -/
theorem stale_after_format : ∃ d',
    run (UnitOp.next twoSliceApa) [.mount 0 (ascii ['A']) 0,
      .format (ascii ['A']) { numSectors := 3 }] { world := blank } = some d' ∧
      d'.world.on (d'.fdList 0).mountFD = some (ascii ['A']) ∧
      ((d'.fdList 0).partSpecs 0).partSize = 0 ∧
      ((d'.world.info (ascii ['A'])).partSpecs 0).partSize = 4096 ∧ ¬ Cached id d' := by
  refine ⟨_, rfl, by decide, by decide, by decide, fun h => ?_⟩
  obtain ⟨dev, hdev, htable⟩ := h 0 (by decide)
  have hA : some (ascii ['A']) = some dev := hdev
  obtain rfl := Option.some.inj hA
  exact absurd (congrArg PartSpecs.partSize (htable 0 (by decide))) (by decide)

end PfsShell.Hdlfs
