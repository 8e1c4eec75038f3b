/-
# The emulated ATA disk

`subprojects/fakeps2sdk/atad.c`: the image stands for disk 0.  `set_atad_device_handle` takes its
size from `lseek`, and `ata_device_sector_io` seeks and transfers.

The system calls are a parameter: a function from the call and a state of its own to the reply
and the next state.  A size in bytes has 64 bits, a number of sectors 32, and so has the number of
bytes of a transfer, which is `nsectors * 512` in the type of `nsectors`.

* `totalSectors_le`: the disk ends inside the image;
* `sectorIo_iff`: when a transfer that is reported as a success was one of all its sectors;
* `sectorIo_short`: 2^23 sectors of an image, of which nothing is transferred.
-/
import Mathlib.Tactic.Common
import PfsShell.Lib.Bytes

namespace PfsShell.Disk

open PfsShell.Lib

/-! ## 1. The system -/

/-- The system calls. -/
inductive SysCall
  | lseek (fd offset : ℤ) (whence : ℕ)
  | read (fd : ℤ) (count : ℕ)
  | write (fd : ℤ) (buf : List UInt8) (count : ℕ)

/-- What a call returns, and what `read` puts into the buffer. -/
structure SysReply where
  ret : ℤ
  data : List UInt8 := []

/-- The system over its own state. -/
abbrev Sys (σ : Type) := SysCall → σ → SysReply × σ

/-- `SEEK_SET`. -/
def seekSet : ℕ := 0

/-- `SEEK_END`. -/
def seekEnd : ℕ := 2

/-- An image of `size` bytes is open as `fd`, at position `pos`: a seek that succeeds ends where it
is told to, and a transfer inside the image is one of all bytes. -/
structure ImageLaws {σ : Type} (sys : Sys σ) (fd : ℤ) (size : ℕ) (pos : σ → ℕ) : Prop where
  lseekEnd : ∀ w, (sys (.lseek fd 0 seekEnd) w).1.ret ≠ -1 →
    (sys (.lseek fd 0 seekEnd) w).1.ret = size
  lseekSet : ∀ (offset : ℕ) w, (sys (.lseek fd offset seekSet) w).1.ret ≠ -1 →
    (sys (.lseek fd offset seekSet) w).1.ret = offset ∧
      pos (sys (.lseek fd offset seekSet) w).2 = offset
  read : ∀ count w, pos w + count ≤ size → (sys (.read fd count) w).1.ret = count
  write : ∀ buf count w, pos w + count ≤ size → (sys (.write fd buf count) w).1.ret = count

/-! ## 2. The disk -/

/-- The variables `handle` and `hdd_length`. -/
structure Atad where
  handle : ℤ := -1
  hddLength : ℕ := 0

/-- `ata_devinfo_t`. -/
structure AtaDevinfo where
  «exists» : ℕ
  hasPacket : ℕ
  totalSectors : ℕ
  securityStatus : ℕ

/-- `ata_get_devinfo`. -/
def ataGetDevinfo (device : ℤ) (a : Atad) : AtaDevinfo :=
  if device = 0 ∧ a.handle ≠ -1 then
    { «exists» := 1, hasPacket := 0, totalSectors := a.hddLength, securityStatus := 0 }
  else { «exists» := 0, hasPacket := 0, totalSectors := 0, securityStatus := 0 }

section Disk

variable {σ : Type} (sys : Sys σ)

/-- `set_atad_device_handle`, by way of `lseek`.  The division is the one of C. -/
def setAtadDeviceHandle (fd : ℤ) (a : Atad) (w : σ) : ℤ × Atad × σ :=
  let s := sys (.lseek fd 0 seekEnd) w
  if s.1.ret ≠ -1 then (0, { handle := fd, hddLength := u32 ((s.1.ret - 511).tdiv 512) }, s.2)
  else (1, a, s.2)

/-- What `ata_device_sector_io` returns, what is in the buffer afterwards, and `moved`: the first
byte of the image that was transferred, and how many were. -/
structure SectorIo (σ : Type) where
  ret : ℤ
  buf : List UInt8
  moved : Option (ℕ × ℕ) := none
  world : σ

/-- `write` with `ATA_DIR_WRITE`, and `read` otherwise. -/
def transferCall (fd : ℤ) (buf : List UInt8) (count : ℕ) (dir : ℤ) : SysCall :=
  if dir = 1 then .write fd buf count else .read fd count

/-- `ata_device_sector_io`. -/
def ataDeviceSectorIo (a : Atad) (device : ℤ) (buf : List UInt8) (lba nsectors : ℕ) (dir : ℤ)
    (w : σ) : SectorIo σ :=
  if a.handle = -1 then { ret := -1, buf := buf, world := w }
  else if device ≠ 0 then { ret := -1, buf := buf, world := w }
  else
    let s := sys (.lseek a.handle (512 * lba : ℕ) seekSet) w
    if s.1.ret = -1 then { ret := -1, buf := buf, world := s.2 }
    else
      let count := u32 (512 * nsectors : ℕ)
      let t := sys (transferCall a.handle buf count dir) s.2
      { ret := if t.1.ret = count then 0 else -1
        buf := if dir = 1 then buf else t.1.data ++ buf.drop t.1.data.length
        moved := some (s.1.ret.toNat, t.1.ret.toNat)
        world := t.2 }

/-- The system seeks to the first sector. -/
def Seeks (a : Atad) (lba : ℕ) (w : σ) : Prop :=
  (sys (.lseek a.handle (512 * lba : ℕ) seekSet) w).1.ret ≠ -1

/-- The system transfers all of `count` bytes after the seek. -/
def TransfersAll (a : Atad) (buf : List UInt8) (lba count : ℕ) (dir : ℤ) (w : σ) : Prop :=
  (sys (transferCall a.handle buf count dir)
    (sys (.lseek a.handle (512 * lba : ℕ) seekSet) w).2).1.ret = count

end Disk

/-! ## 3. The size of the disk -/

section Laws

variable {σ : Type} {sys : Sys σ} {fd device dir : ℤ} {size lba nsectors : ℕ} {pos : σ → ℕ}
  {a₀ a : Atad} {w₀ w₁ w : σ} {buf : List UInt8}

/-- A size that is accepted. -/
theorem setAtadDeviceHandle_spec (laws : ImageLaws sys fd size pos)
    (hset : setAtadDeviceHandle sys fd a₀ w₀ = (0, a, w₁)) :
    a.handle = fd ∧ a.hddLength = u32 (((size : ℤ) - 511).tdiv 512) := by
  unfold setAtadDeviceHandle at hset
  simp only at hset
  split at hset
  · rename_i hok
    rw [laws.lseekEnd w₀ hok] at hset
    obtain ⟨-, htail⟩ := Prod.mk.inj hset
    obtain ⟨rfl, -⟩ := Prod.mk.inj htail
    exact ⟨rfl, rfl⟩
  · exact absurd (Prod.mk.inj hset).1 (by decide)

/-- What is lost by rounding, and by the 32 bits, makes the disk smaller. -/
theorem u32_tdiv_le (size : ℕ) : 512 * u32 (((size : ℤ) - 511).tdiv 512) ≤ size := by
  by_cases hsmall : size < 511
  · have hzero : ((size : ℤ) - 511).tdiv 512 = 0 := by
      rw [show (size : ℤ) - 511 = -(511 - size) by omega, Int.neg_tdiv,
        Int.tdiv_eq_zero_of_lt (by omega) (by omega)]
      rfl
    rw [hzero]
    exact Nat.zero_le size
  · have hdiv : ((size : ℤ) - 511).tdiv 512 = ((size - 511) / 512 : ℕ) := by
      rw [Int.tdiv_eq_ediv_of_nonneg (by omega)]
      omega
    rw [hdiv]
    unfold u32
    omega

/-- **The disk ends inside the image.** -/
theorem totalSectors_le (laws : ImageLaws sys fd size pos)
    (hset : setAtadDeviceHandle sys fd a₀ w₀ = (0, a, w₁)) :
    512 * (ataGetDevinfo device a).totalSectors ≤ size := by
  obtain ⟨-, hlength⟩ := setAtadDeviceHandle_spec laws hset
  unfold ataGetDevinfo
  split
  · show 512 * a.hddLength ≤ size
    rw [hlength]
    exact u32_tdiv_le size
  · exact Nat.zero_le size

/-! ## 4. Transfers -/

/-- **A success** is a transfer of as many bytes as 32 bits make of `512 * nsectors`. -/
theorem sectorIo_success (laws : ImageLaws sys a.handle size pos) :
    ((ataDeviceSectorIo sys a device buf lba nsectors dir w).ret = 0 ↔
      a.handle ≠ -1 ∧ device = 0 ∧ Seeks sys a lba w ∧
        TransfersAll sys a buf lba (u32 (512 * nsectors : ℕ)) dir w) ∧
    ((ataDeviceSectorIo sys a device buf lba nsectors dir w).ret = 0 →
      (ataDeviceSectorIo sys a device buf lba nsectors dir w).moved =
        some (512 * lba, u32 (512 * nsectors : ℕ))) := by
  unfold ataDeviceSectorIo Seeks TransfersAll
  by_cases hhandle : a.handle = -1
  · rw [if_pos hhandle]
    exact ⟨iff_of_false (by simp) fun h => h.1 hhandle, by simp⟩
  by_cases hdevice : device = 0
  · rw [if_neg hhandle, if_neg (not_not.mpr hdevice)]
    by_cases hseek : (sys (.lseek a.handle (512 * lba : ℕ) seekSet) w).1.ret = -1
    · simp only [if_pos hseek]
      exact ⟨iff_of_false (by simp) fun h => h.2.2.1 hseek, by simp⟩
    · obtain ⟨hpos, -⟩ := laws.lseekSet (512 * lba) w hseek
      simp only [if_neg hseek]
      generalize sys (transferCall a.handle buf (u32 (512 * nsectors : ℕ)) dir) _ = t
      have hall : (if t.1.ret = u32 (512 * nsectors : ℕ) then (0 : ℤ) else -1) = 0 ↔
          t.1.ret = u32 (512 * nsectors : ℕ) := by
        split <;> simp_all
      rw [hall]
      refine ⟨⟨fun h => ⟨hhandle, hdevice, hseek, h⟩, fun h => h.2.2.2⟩, fun h => ?_⟩
      rw [hpos, h]
      rfl
  · rw [if_neg hhandle, if_pos hdevice]
    exact ⟨iff_of_false (by simp) fun h => hdevice h.2.1, by simp⟩

/-- What 32 bits make of the number of bytes. -/
theorem u32_bytes (nsectors : ℕ) : u32 (512 * nsectors : ℕ) = 512 * (nsectors % 2 ^ 23) := by
  unfold u32
  omega

/-- **Inside the disk** the system transfers what it is asked for. -/
theorem transfersAll_inside (laws : ImageLaws sys a.handle size pos) {count : ℕ}
    (hseek : Seeks sys a lba w) (hinside : 512 * lba + count ≤ size) :
    TransfersAll sys a buf lba count dir w := by
  obtain ⟨-, hpos⟩ := laws.lseekSet (512 * lba) w hseek
  unfold TransfersAll transferCall
  split
  · exact laws.write buf count _ (by rw [hpos]; exact hinside)
  · exact laws.read count _ (by rw [hpos]; exact hinside)

/-- **When a success is a whole transfer**: for less than 2^23 sectors, or when the system does not
get as far as to transfer the bytes that 32 bits leave of the others.  Inside the disk it does, as
soon as it seeks. -/
theorem sectorIo_iff (laws : ImageLaws sys fd size pos)
    (hset : setAtadDeviceHandle sys fd a₀ w₀ = (0, a, w₁)) :
    ((lba + nsectors ≤ (ataGetDevinfo device a).totalSectors → 512 * (lba + nsectors) ≤ size) ∧
      ((ataDeviceSectorIo sys a device buf lba nsectors dir w).ret = 0 →
        (ataDeviceSectorIo sys a device buf lba nsectors dir w).moved =
          some (512 * lba, 512 * nsectors)) ↔
      nsectors < 2 ^ 23 ∨ ¬ (fd ≠ -1 ∧ device = 0 ∧ Seeks sys a lba w ∧
        TransfersAll sys a buf lba (512 * (nsectors % 2 ^ 23)) dir w)) ∧
    (Seeks sys a lba w → lba + nsectors ≤ (ataGetDevinfo device a).totalSectors →
      TransfersAll sys a buf lba (512 * (nsectors % 2 ^ 23)) dir w) := by
  have hend : 512 * (ataGetDevinfo device a).totalSectors ≤ size := totalSectors_le laws hset
  obtain ⟨hhandle, -⟩ := setAtadDeviceHandle_spec laws hset
  have laws' : ImageLaws sys a.handle size pos := by rwa [hhandle]
  obtain ⟨hsuccess, hmoved⟩ :
      ((ataDeviceSectorIo sys a device buf lba nsectors dir w).ret = 0 ↔ _) ∧ (_ → _) :=
    sectorIo_success laws'
  rw [hhandle, u32_bytes] at hsuccess
  rw [u32_bytes] at hmoved
  have hmod := Nat.mod_le nsectors (2 ^ 23)
  refine ⟨⟨fun h => ?_, fun h => ⟨fun hle => by omega, fun hret => ?_⟩⟩, fun hseek hle =>
    transfersAll_inside laws' hseek (by omega)⟩
  · -- a success with fewer bytes: only when the count has lost its upper bits
    by_contra hno
    obtain ⟨hlarge, hreaches⟩ := not_or.mp hno
    have hret := hsuccess.mpr (not_not.mp hreaches)
    have hcount := (Prod.mk.inj (Option.some.inj ((h.2 hret).symm.trans (hmoved hret)))).2
    omega
  · have hsmall : nsectors < 2 ^ 23 := h.resolve_right fun hno => hno (hsuccess.mp hret)
    rw [hmoved hret, Nat.mod_eq_of_lt hsmall]

end Laws

/-! ## 5. An image -/

/-- A regular file of `size` bytes, with its position as the state.  A write goes on behind the
end. -/
def regularFile (size : ℕ) : Sys ℕ
  | .lseek _ offset whence, pos =>
    if whence = seekEnd then ({ ret := size }, size)
    else if offset < 0 then ({ ret := -1 }, pos)
    else ({ ret := offset }, offset.toNat)
  | .read _ count, pos =>
    ({ ret := (min count (size - pos) : ℕ), data := List.replicate (min count (size - pos)) 0 },
      pos + min count (size - pos))
  | .write _ _ count, pos => ({ ret := count }, pos + count)

theorem regularFile_laws (size : ℕ) (fd : ℤ) : ImageLaws (regularFile size) fd size id where
  lseekEnd _ _ := rfl
  lseekSet offset _ _ := by
    have hoffset : ¬ ((offset : ℤ) < 0) := by omega
    simp only [regularFile, seekSet, seekEnd, if_neg hoffset]
    exact ⟨rfl, rfl⟩
  read count pos h := by
    show ((min count (size - pos) : ℕ) : ℤ) = count
    have hinside : pos + count ≤ size := h
    omega
  write _ _ _ _ := rfl

/-- Three sectors of an image of 2^20 bytes are read. -/
theorem sectorIo_iff_read : ∃ a w₁,
    setAtadDeviceHandle (regularFile 1048576) 3 {} 0 = (0, a, w₁) ∧
      (ataDeviceSectorIo (regularFile 1048576) a 0 [] 5 3 0 w₁).ret = 0 ∧
      (ataDeviceSectorIo (regularFile 1048576) a 0 [] 5 3 0 w₁).moved = some (2560, 1536) := by
  obtain ⟨a, w₁, hset⟩ : ∃ a w₁,
      setAtadDeviceHandle (regularFile 1048576) 3 {} 0 = (0, a, w₁) := ⟨_, _, rfl⟩
  have hret : (ataDeviceSectorIo (regularFile 1048576) a 0 [] 5 3 0 w₁).ret = 0 := by
    obtain ⟨rfl, rfl⟩ := Prod.mk.inj (Prod.mk.inj hset).2
    decide
  have hwhole : (5 + 3 ≤ (ataGetDevinfo 0 a).totalSectors → 512 * (5 + 3) ≤ 1048576) ∧
      ((ataDeviceSectorIo (regularFile 1048576) a 0 [] 5 3 0 w₁).ret = 0 →
        (ataDeviceSectorIo (regularFile 1048576) a 0 [] 5 3 0 w₁).moved =
          some (512 * 5, 512 * 3)) :=
    (sectorIo_iff (regularFile_laws 1048576 3) hset).1.mpr (.inl (by decide))
  exact ⟨a, w₁, hset, hret, hwhole.2 hret⟩

/-- **Nothing is transferred** of 2^23 sectors, and the call is a success: the number of bytes has
33 bits.  The image has 2^33 bytes, and all of the sectors are on the disk. -/
theorem sectorIo_short : ∃ a w₁,
    setAtadDeviceHandle (regularFile 8589934592) 3 {} 0 = (0, a, w₁) ∧
      0 + 8388608 ≤ (ataGetDevinfo 0 a).totalSectors ∧
      (ataDeviceSectorIo (regularFile 8589934592) a 0 [] 0 8388608 0 w₁).ret = 0 ∧
      (ataDeviceSectorIo (regularFile 8589934592) a 0 [] 0 8388608 0 w₁).moved ≠
        some (512 * 0, 512 * 8388608) :=
  ⟨_, _, rfl, by decide, by decide, by decide⟩

end PfsShell.Disk
