/-
# What HDLFS relies on in APA

A partition is a main slice and up to 64 subs, which are ranges of 512-byte sectors of the disk
that do not overlap (`Partition`; `geo` gives the partition of each device name).  Behind
iomanX's state stands an `ApaView`: what each descriptor is open on and where it stands, the
bytes of the disk, and the header in each partition's reserved area.

`HeaderLaws` and `ApaLaws` say what each call does to the view.  Only a call made as the driver
makes it is spoken of: the header is read and written at `HDL_GAME_DATA_OFFSET`, and a transfer
lies in one slice, behind its reserved sectors.

`smallApa` is an APA that keeps just the view.
-/
import PfsShell.Hdlfs.Driver
import PfsShell.Lib.Tiling

namespace PfsShell.Hdlfs

open PfsShell.Lib

/-! ## 1. Partitions -/

/-- A slice, in sectors of the disk. -/
structure Slice where
  start : ℕ
  size : ℕ

/-- A partition: slice 0 is the main one.  Each slice is at least four sectors larger than its
reserved area. -/
structure Partition where
  nsub : ℕ
  slice : ℕ → Slice
  nsub_le : nsub ≤ 64
  room : ∀ i, i ≤ nsub → reservedSectors i + 4 ≤ (slice i).size
  size_lt : ∀ i, i ≤ nsub → (slice i).size < 2 ^ 32
  disjoint : ∀ i j, i ≤ nsub → j ≤ nsub → i ≠ j →
    (slice i).start + (slice i).size ≤ (slice j).start ∨
      (slice j).start + (slice j).size ≤ (slice i).start

/-- Byte `a` of the disk is in the reserved area of a slice. -/
def Partition.InReserved (P : Partition) (a : ℕ) : Prop :=
  ∃ i ≤ P.nsub, 512 * (P.slice i).start ≤ a ∧
    a < 512 * ((P.slice i).start + reservedSectors i)

/-! ## 2. The laws -/

/-- What stands behind a state of iomanX. -/
structure ApaView where
  on : ℤ → Option CStr := fun _ => none
  pos : ℤ → ℕ := fun _ => 0
  disk : ℕ → UInt8
  info : CStr → HdlGameInfo := fun _ => {}

/-- `HIOCTRANSFER` of sectors behind the reserved ones, within one slice, with a buffer of
their size. -/
structure Partition.Transferable (P : Partition) (arg : HddIoctl2Transfer) : Prop where
  sub : arg.sub ≤ P.nsub
  behind : reservedSectors arg.sub ≤ arg.sector
  within : arg.sector + arg.size ≤ (P.slice arg.sub).size
  buffer : arg.buffer.length = arg.size * 512

/-- What the calls do that find a partition, its header and its slices.  Opening may fail, and
so may reading or writing the header, but not in part. -/
structure HeaderLaws {σ : Type} (io : IomanX σ) (geo : CStr → Partition) (view : σ → ApaView) :
    Prop where
  devctl : ∀ dev w, view (io (.devctlMaxsector dev) w).2 = view w
  getstat : ∀ dev w, view (io (.getstat dev) w).2 = view w
  opened : ∀ dev flags w, 0 ≤ (io (.open dev flags) w).1.ret →
    view (io (.open dev flags) w).2 =
      { view w with
        on := Function.update (view w).on (io (.open dev flags) w).1.ret (some dev)
        pos := Function.update (view w).pos (io (.open dev flags) w).1.ret 0 }
  closed : ∀ fd w, view (io (.close fd) w).2 =
    { view w with on := Function.update (view w).on fd none }
  lseek : ∀ fd offset w, view (io (.lseek fd offset) w).2 =
    { view w with pos := Function.update (view w).pos fd offset }
  read : ∀ fd dev w, (view w).on fd = some dev → (view w).pos fd = hdlGameDataOffset →
    ((io (.read fd 1024) w).1.ret = 1024 ∧ (io (.read fd 1024) w).1.info = (view w).info dev ∨
      (io (.read fd 1024) w).1.ret < 0) ∧
    ∃ p, view (io (.read fd 1024) w).2 =
      { view w with pos := Function.update (view w).pos fd p }
  write : ∀ fd dev info w, (view w).on fd = some dev → (view w).pos fd = hdlGameDataOffset →
    (io (.write fd info 1024) w).1.ret = 1024 →
    ∃ p disk, view (io (.write fd info 1024) w).2 =
        { view w with
          pos := Function.update (view w).pos fd p
          disk := disk
          info := Function.update (view w).info dev info } ∧
      ∀ a, ¬ (geo dev).InReserved a → disk a = (view w).disk a
  hiocnsub : ∀ fd dev w, (view w).on fd = some dev →
    (io (.hiocnsub fd) w).1.ret = (geo dev).nsub ∧ view (io (.hiocnsub fd) w).2 = view w
  hiocgetpartstart : ∀ fd dev i w, (view w).on fd = some dev → i ≤ (geo dev).nsub →
    u32 (io (.hiocgetpartstart fd i) w).1.ret = ((geo dev).slice i).start ∧
      view (io (.hiocgetpartstart fd i) w).2 = view w
  hiocgetsize : ∀ fd dev i w, (view w).on fd = some dev → i ≤ (geo dev).nsub →
    u32 (io (.hiocgetsize fd i) w).1.ret = ((geo dev).slice i).size ∧
      view (io (.hiocgetsize fd i) w).2 = view w

/-- What the calls of the driver do.  A transfer succeeds: sector `n` of a slice is sector
`start + n` of the disk. -/
structure ApaLaws {σ : Type} (io : IomanX σ) (geo : CStr → Partition) (view : σ → ApaView) :
    Prop extends HeaderLaws io geo view where
  hioctransfer : ∀ fd dev arg w, (view w).on fd = some dev → (geo dev).Transferable arg →
    0 ≤ (io (.hioctransfer fd arg) w).1.ret ∧
    (io (.hioctransfer fd arg) w).1.buffer = (access (arg.mode == 1) (view w).disk
      (512 * (((geo dev).slice arg.sub).start + arg.sector)) arg.buffer).1 ∧
    view (io (.hioctransfer fd arg) w).2 =
      { view w with
        disk := (access (arg.mode == 1) (view w).disk
          (512 * (((geo dev).slice arg.sub).start + arg.sector)) arg.buffer).2 }

/-! ## 3. A small APA -/

/-- The view itself as iomanX's state.  Every device exists, and its header can be read and
written. -/
def smallApa (geo : CStr → Partition) : IomanX ApaView
  | .devctlMaxsector _, v => ({ ret := 0x10000000 }, v)
  | .getstat _, v => ({ mode := 0x1337 }, v)
  | .open dev _, v =>
    match (List.range 32).find? fun k => v.on k = none with
    | some k =>
      ({ ret := k },
        { v with
          on := Function.update v.on k (some dev)
          pos := Function.update v.pos k 0 })
    | none => ({ ret := -24 }, v)
  | .close fd, v => ({}, { v with on := Function.update v.on fd none })
  | .lseek fd offset, v => ({ ret := offset }, { v with pos := Function.update v.pos fd offset })
  | .read fd size, v =>
    match v.on fd with
    | some dev =>
      ({ ret := size, info := v.info dev },
        { v with pos := Function.update v.pos fd (v.pos fd + size) })
    | none => ({ ret := -9 }, v)
  | .write fd info size, v =>
    match v.on fd with
    | some dev =>
      ({ ret := size },
        { v with
          pos := Function.update v.pos fd (v.pos fd + size)
          info := Function.update v.info dev info })
    | none => ({ ret := -9 }, v)
  | .hiocnsub fd, v =>
    match v.on fd with
    | some dev => ({ ret := (geo dev).nsub }, v)
    | none => ({ ret := -9 }, v)
  | .hiocgetpartstart fd i, v =>
    match v.on fd with
    | some dev => ({ ret := ((geo dev).slice i).start }, v)
    | none => ({ ret := -9 }, v)
  | .hiocgetsize fd i, v =>
    match v.on fd with
    | some dev => ({ ret := ((geo dev).slice i).size }, v)
    | none => ({ ret := -9 }, v)
  | .hiocflush _, v => ({}, v)
  | .hioctransfer fd arg, v =>
    match v.on fd with
    | some dev =>
      let r := access (arg.mode == 1) v.disk (512 * (((geo dev).slice arg.sub).start + arg.sector))
        arg.buffer
      ({ buffer := r.1 }, { v with disk := r.2 })
    | none => ({ ret := -9 }, v)

theorem u32_natCast {n : ℕ} (h : n < 4294967296) : u32 n = n := by
  unfold u32
  omega

theorem smallApa_laws {geo : CStr → Partition}
    (hstart : ∀ dev i, ((geo dev).slice i).start < 4294967296) :
    ApaLaws (smallApa geo) geo id where
  devctl _ _ := rfl
  getstat _ _ := rfl
  opened dev flags w h := by
    simp only [smallApa] at h ⊢
    split at h
    · rfl
    · simp at h
  closed _ _ := rfl
  lseek _ _ _ := rfl
  read fd dev w hon _ := by
    have hon' : w.on fd = some dev := hon
    refine ⟨.inl ?_, w.pos fd + 1024, ?_⟩ <;> simp [smallApa, hon']
  write fd dev info w hon _ _ := by
    have hon' : w.on fd = some dev := hon
    exact ⟨w.pos fd + 1024, w.disk, by simp [smallApa, hon'], fun _ _ => rfl⟩
  hiocnsub fd dev w hon := by
    have hon' : w.on fd = some dev := hon
    simp [smallApa, hon']
  hiocgetpartstart fd dev i w hon hi := by
    have hon' : w.on fd = some dev := hon
    simp [smallApa, hon', u32_natCast (hstart dev i)]
  hiocgetsize fd dev i w hon hi := by
    have hon' : w.on fd = some dev := hon
    simp [smallApa, hon', u32_natCast ((geo dev).size_lt i hi)]
  hioctransfer fd dev arg w hon _ := by
    have hon' : w.on fd = some dev := hon
    simp [smallApa, hon']

end PfsShell.Hdlfs
