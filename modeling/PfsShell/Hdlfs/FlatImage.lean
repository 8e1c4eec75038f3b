/-
# A game is a flat disc image

What HDLFS is for: whoever has opened a unit sees one array of bytes, the disc image, and a
position in it (`Flat`).  Seeking, reading and writing through the slices of the partition is
seeking, reading and writing that array (`flat_image`), and nothing else on the disk changes.

The three position fields of the descriptor say the same thing (`Stands`); the loop of
`hdlfs_io_internal` moves from slice to slice and keeps that true (`ioLoop_transferred`).
-/
import PfsShell.Hdlfs.Layout
import PfsShell.Lib.Run

namespace PfsShell.Hdlfs

open PfsShell.Lib

/-! ## 1. The image -/

/-- A disc image and a position in it, in 512-byte sectors. -/
structure Flat where
  image : ℕ → UInt8
  pos : ℕ

/-- What is done with an open unit.  A read or a write is of as many bytes as its buffer has. -/
inductive Op
  | lseek (offset : ℤ)
  | read (buffer : List UInt8)
  | write (buffer : List UInt8)

/-- The bytes of an operation. -/
def Op.size : Op → ℕ
  | .lseek _ => 0
  | .read buffer | .write buffer => buffer.length

/-- Reading or writing the image at the position, within its `n` sectors of 2048 bytes.  The
results are the returned value and what is in the buffer afterwards. -/
def Flat.transfer (n : ℕ) (write : Bool) (buffer : List UInt8) (f : Flat) :
    Option ((ℤ × List UInt8) × Flat) :=
  if 512 ∣ buffer.length ∧ 512 * f.pos + buffer.length ≤ 2048 * n then
    some ((buffer.length, (access write f.image (512 * f.pos) buffer).1),
      { image := (access write f.image (512 * f.pos) buffer).2
        pos := f.pos + buffer.length / 512 })
  else none

/-- An operation on an image of `n` sectors of 2048 bytes, where it is within the image. -/
def Flat.step (n : ℕ) : Op → Flat → Option ((ℤ × List UInt8) × Flat)
  | .lseek offset, f =>
    if 0 ≤ offset ∧ offset < n then
      some ((offset, []), { f with pos := 4 * offset.toNat })
    else none
  | .read buffer, f => f.transfer n false buffer
  | .write buffer, f => f.transfer n true buffer

/-- The operation as the driver does it, with `fuel` for its loop. -/
def Op.exec {σ : Type} (io : IomanX σ) (fuel : ℕ) (file : IopFile) :
    Op → Driver σ → Option ((ℤ × List UInt8) × Driver σ)
  | .lseek offset, d => some (((hdlfsLseek file offset 0 d).1, []), (hdlfsLseek file offset 0 d).2)
  | .read buffer, d =>
    (hdlfsRead io fuel file (some buffer) buffer.length d).map fun (ret, buffer, d) =>
      ((ret, buffer), d)
  | .write buffer, d =>
    (hdlfsWrite io fuel file (some buffer) buffer.length d).map fun (ret, buffer, d) =>
      ((ret, buffer), d)

/-! ## 2. The position -/

/-- The position fields agree: the slice is one of the partition, the sector is one of the
slice's part or the one behind it, and the offset is that of the sector. -/
structure Stands (P : Partition) (f : HdlfsFileDescriptor) : Prop where
  part : f.currentPartNum ≤ P.nsub
  within : 512 * f.relativeSectorNumber ≤ (f.partSpecs f.currentPartNum).partSize
  offset : 512 * f.offset =
    (P.tiling f.partSpecs).start f.currentPartNum + 512 * f.relativeSectorNumber

/-- `k` sectors further, as a turn of `hdlfs_io_internal` computes it. -/
def HdlfsFileDescriptor.advance (f : HdlfsFileDescriptor) (k : ℕ) : HdlfsFileDescriptor :=
  { f with
    offset := u32 (f.offset + k)
    relativeSectorNumber := u32 (f.relativeSectorNumber + k) }

/-- The transfer that a turn asks for, of `k` sectors. -/
def HdlfsFileDescriptor.asked (f : HdlfsFileDescriptor) (mode k : ℕ) (buffer : List UInt8) :
    HddIoctl2Transfer where
  sub := f.currentPartNum
  sector := u32 (reservedSectors f.currentPartNum + f.relativeSectorNumber)
  size := k
  mode := mode
  buffer := buffer

/-- How many sectors a turn transfers, of `k` that remain. -/
def HdlfsFileDescriptor.turnSize (f : HdlfsFileDescriptor) (k : ℕ) : ℕ :=
  if f.sectorsLeft < k then f.sectorsLeft else k

theorem HdlfsFileDescriptor.turnSize_le (f : HdlfsFileDescriptor) (k : ℕ) :
    f.turnSize k ≤ f.sectorsLeft ∧ f.turnSize k ≤ k ∧
      (0 < f.sectorsLeft → 0 < k → 0 < f.turnSize k) := by
  unfold turnSize
  split <;> omega

section Turn

variable {σ : Type} {io : IomanX σ} {mode fuel k : ℕ} {result : ℤ} {f : HdlfsFileDescriptor}
  {buffer : List UInt8} {w : σ}

/-- **A turn of the loop.** -/
theorem ioLoop_turn (hk : 0 < k) {g : HdlfsFileDescriptor} (hg : f.moveOn = g) {m : ℕ}
    (hm : g.turnSize k = m) {r : Reply × σ}
    (hr : io (.hioctransfer g.mountFD (g.asked mode m (buffer.take (m * 512)))) w = r) :
    ioLoop io mode (fuel + 1) k result f buffer w =
      if r.1.ret < 0 then some (r.1.ret, g, r.1.buffer ++ buffer.drop (m * 512), r.2)
      else
        (ioLoop io mode fuel (k - m) r.1.ret (g.advance m) (buffer.drop (m * 512)) r.2).map
          fun q => (q.1, q.2.1, r.1.buffer ++ q.2.2.1, q.2.2.2) := by
  subst hg hm hr
  rw [ioLoop, if_pos hk]
  rfl

theorem ioLoop_done (hk : ¬0 < k) :
    ioLoop io mode (fuel + 1) k result f buffer w = some (result, f, buffer, w) := by
  rw [ioLoop, if_neg hk]

/-- What moving on, a transfer and advancing keep, the loop keeps. -/
theorem ioLoop_keeps {R : HdlfsFileDescriptor → σ → Prop} (hmove : ∀ f w, R f w → R f.moveOn w)
    (hturn : ∀ f w arg, R f w → R f (io (.hioctransfer f.mountFD arg) w).2)
    (hadvance : ∀ f w m, R f w → R (f.advance m) w) {r : ℤ} {f' : HdlfsFileDescriptor}
    {b : List UInt8} {w' : σ} (hR : R f w)
    (h : ioLoop io mode fuel k result f buffer w = some (r, f', b, w')) : R f' w' := by
  induction fuel generalizing k result f buffer b w with
  | zero => cases h
  | succ fuel ih =>
    by_cases hk : 0 < k
    · have hnext := hturn _ _ (f.moveOn.asked mode (f.moveOn.turnSize k)
        (buffer.take (f.moveOn.turnSize k * 512))) (hmove f w hR)
      rw [ioLoop_turn hk rfl rfl rfl] at h
      split at h
      · cases h
        exact hnext
      · obtain ⟨⟨ret, g, rest, v⟩, hloop, h⟩ := Option.map_eq_some_iff.mp h
        cases h
        exact ih (hadvance _ _ _ hnext) hloop
    · rw [ioLoop_done hk] at h
      cases h
      exact hR

end Turn

section Position

variable {P : Partition} {n : ℕ} {f : HdlfsFileDescriptor}

theorem Stands.sectorsLeft (ht : P.Tiled n f.partSpecs) (h : Stands P f) :
    512 * (f.relativeSectorNumber + f.sectorsLeft) = (f.partSpecs f.currentPartNum).partSize := by
  have hwithin := h.within
  have hwhole := (ht.part _ h.part).whole
  have hlt := (ht.part _ h.part).size_lt
  unfold HdlfsFileDescriptor.sectorsLeft u32
  omega

/-- **Moving on.**  In front of the end of the image, the descriptor stands in front of a sector
of its slice afterwards. -/
theorem Stands.moveOn (ht : P.Tiled n f.partSpecs) (h : Stands P f)
    (hlt : 512 * f.offset < 2048 * n) :
    Stands P f.moveOn ∧ 0 < f.moveOn.sectorsLeft ∧ f.moveOn.offset = f.offset ∧
      f.moveOn.partSpecs = f.partSpecs ∧ f.moveOn.mountFD = f.mountFD ∧
      f.moveOn.numPartitions = f.numPartitions := by
  have hleft := h.sectorsLeft ht
  have hoffset := h.offset
  unfold HdlfsFileDescriptor.moveOn
  split
  · rename_i hnone
    -- the position is the start of the next part, and that part is not empty
    have hnext : (P.tiling f.partSpecs).start (f.currentPartNum + 1) = 512 * f.offset := by
      rw [Tiling.start_succ, Partition.tiling_len]
      omega
    have hpart : f.currentPartNum + 1 ≤ P.nsub := by
      by_contra hlast
      have hend : f.currentPartNum + 1 = P.nsub + 1 := by
        have := h.part
        omega
      have htotal : (P.tiling f.partSpecs).start (f.currentPartNum + 1) = 2048 * n := by
        rw [hend]
        exact ht.total
      omega
    have hcount : u16 (f.currentPartNum + 1) = f.currentPartNum + 1 := by
      have := P.nsub_le
      unfold u16
      omega
    obtain ⟨g, hg⟩ : ∃ g : HdlfsFileDescriptor, g = { f with
        currentPartNum := u16 (f.currentPartNum + 1), relativeSectorNumber := 0 } := ⟨_, rfl⟩
    have hspecs : g.partSpecs = f.partSpecs := by rw [hg]
    have hcur : g.currentPartNum = f.currentPartNum + 1 := by rw [hg]; exact hcount
    have hrel : g.relativeSectorNumber = 0 := by rw [hg]
    have hoff : g.offset = f.offset := by rw [hg]
    have hstands : Stands P g := by
      refine ⟨?_, ?_, ?_⟩
      · rw [hcur]; exact hpart
      · rw [hrel]; exact Nat.zero_le _
      · rw [hcur, hrel, hspecs, hoff, hnext, Nat.mul_zero, Nat.add_zero]
    have hnew := hstands.sectorsLeft (by rw [hspecs]; exact ht)
    rw [← hg]
    refine ⟨hstands, ?_, hoff, hspecs, by rw [hg], by rw [hg]⟩
    have hfull := (ht.part _ hpart).full
    by_contra hzero
    rw [hspecs, hcur, hrel] at hnew
    omega
  · exact ⟨h, by omega, rfl, rfl, rfl, rfl⟩

/-- Moving forward within the slice. -/
theorem Stands.forward (h : Stands P f) {k : ℕ} (ht : P.Tiled n f.partSpecs)
    (hk : k ≤ f.sectorsLeft) :
    Stands P (f.advance k) ∧ (f.advance k).offset = f.offset + k := by
  have hleft := h.sectorsLeft ht
  have hoffset := h.offset
  have hlt := (ht.part _ h.part).size_lt
  have hn := ht.lt
  have hend : (P.tiling f.partSpecs).start (f.currentPartNum + 1) ≤ 2048 * n := by
    rw [← ht.total]
    exact Tiling.start_le_total (Nat.succ_le_succ h.part)
  rw [Tiling.start_succ, Partition.tiling_len] at hend
  have hoff : u32 (f.offset + k) = f.offset + k := by
    unfold u32
    omega
  have hrel : u32 (f.relativeSectorNumber + k) = f.relativeSectorNumber + k := by
    unfold u32
    omega
  refine ⟨⟨h.part, ?_, ?_⟩, hoff⟩
  · show 512 * u32 (f.relativeSectorNumber + k) ≤ (f.partSpecs f.currentPartNum).partSize
    rw [hrel]
    omega
  · show 512 * u32 (f.offset + k) = (P.tiling f.partSpecs).start f.currentPartNum +
      512 * u32 (f.relativeSectorNumber + k)
    rw [hrel, hoff]
    omega

/-- The slice `hdlfs_lseek` finds is the one the sector is in. -/
theorem partOf_spec (ht : P.Tiled n f.partSpecs) (hnum : f.numPartitions = P.nsub + 1) {t : ℕ}
    (hlt : t < n) : f.partOf t ≤ P.nsub ∧ (f.partSpecs (f.partOf t)).partOffset ≤ t ∧
      2048 * t < 2048 * (f.partSpecs (f.partOf t)).partOffset +
        (f.partSpecs (f.partOf t)).partSize := by
  have hn := ht.lt
  have htest : ∀ j, j ≤ P.nsub → ((f.partSpecs j).partOffset ≤ u32 t ∧
      u32 t < u32 ((f.partSpecs j).partOffset + ((f.partSpecs j).partSize / 2048 : ℕ)) ↔
      (P.tiling f.partSpecs).start j ≤ 2048 * t ∧
        2048 * t < (P.tiling f.partSpecs).start (j + 1)) := by
    intro j hj
    have hoffset := (ht.part j hj).offset
    have hwhole := (ht.part j hj).whole
    have hend : (P.tiling f.partSpecs).start (j + 1) ≤ 2048 * n := by
      rw [← ht.total]
      exact Tiling.start_le_total (Nat.succ_le_succ hj)
    rw [Tiling.start_succ, Partition.tiling_len] at hend ⊢
    unfold u32
    omega
  have hin : 2048 * t < (P.tiling f.partSpecs).total := by
    rw [ht.total]
    omega
  obtain ⟨hi, hle, hlt'⟩ := Tiling.tileOf_spec hin
  have hi' : (P.tiling f.partSpecs).tileOf (2048 * t) ≤ P.nsub := Nat.le_of_lt_succ hi
  have hpart : f.partOf t = (P.tiling f.partSpecs).tileOf (2048 * t) := by
    refine scan_eq_of_first (by rw [hnum]; exact hi) ((htest _ hi').mpr ⟨hle, hlt'⟩)
      fun j hj hp => ?_
    have hmono : (P.tiling f.partSpecs).start (j + 1) ≤
        (P.tiling f.partSpecs).start ((P.tiling f.partSpecs).tileOf (2048 * t)) :=
      Tiling.start_mono _ hj
    have hj' := ((htest j (by omega)).mp hp).2
    omega
  rw [hpart]
  have hoffset := (ht.part _ hi').offset
  rw [Tiling.start_succ, Partition.tiling_len] at hlt'
  exact ⟨hi', by omega, by omega⟩

end Position

/-! ## 3. One transfer -/

section Transfers

variable {σ : Type} {io : IomanX σ} {geo : CStr → Partition} {view : σ → ApaView} {dev : CStr}
  {n : ℕ}

/-- The image, as it lies on the disk. -/
def imageOf (P : Partition) (view : σ → ApaView) (f : HdlfsFileDescriptor) (w : σ) : ℕ → UInt8 :=
  (P.tiling f.partSpecs).view (view w).disk

theorem imageOf_congr (P : Partition) (view : σ → ApaView) {f g : HdlfsFileDescriptor}
    (h : f.partSpecs = g.partSpecs) (w : σ) : imageOf P view f w = imageOf P view g w := by
  rw [imageOf, imageOf, h]

/-- What a transfer of `buffer` at the position of `f` leads to: the position is behind it, the
image has the bytes, and the rest of the disk stays. -/
structure Transferred (P : Partition) (view : σ → ApaView) (n : ℕ) (write : Bool)
    (buffer : List UInt8) (f : HdlfsFileDescriptor) (w : σ) (f' : HdlfsFileDescriptor) (w' : σ) :
    Prop where
  stands : Stands P f'
  partSpecs : f'.partSpecs = f.partSpecs
  mountFD : f'.mountFD = f.mountFD
  numPartitions : f'.numPartitions = f.numPartitions
  offset : f'.offset = f.offset + buffer.length / 512
  on : (view w').on = (view w).on
  image : ∀ b, b < 2048 * n → imageOf P view f w' b =
    (access write (imageOf P view f w) (512 * f.offset) buffer).2 b
  frame : ∀ a, (∀ b, b < 2048 * n → (P.tiling f.partSpecs).addr b ≠ a) →
    (view w').disk a = (view w).disk a

/-- **One `HIOCTRANSFER` within the current slice** is an access to the image. -/
theorem hioctransfer_image (laws : ApaLaws io geo view) (mode : ℕ) {f : HdlfsFileDescriptor} {w : σ}
    {buffer : List UInt8} {k : ℕ} (ht : (geo dev).Tiled n f.partSpecs) (hs : Stands (geo dev) f)
    (hon : (view w).on f.mountFD = some dev) (hk : k ≤ f.sectorsLeft)
    (hbuffer : buffer.length = k * 512) :
    let r := io (.hioctransfer f.mountFD (f.asked mode k buffer)) w
    0 ≤ r.1.ret ∧
    r.1.buffer =
      (access (mode == 1) (imageOf (geo dev) view f w) (512 * f.offset) buffer).1 ∧
    (view r.2).on = (view w).on ∧
    (∀ b, b < 2048 * n → imageOf (geo dev) view f r.2 b =
      (access (mode == 1) (imageOf (geo dev) view f w) (512 * f.offset) buffer).2 b) ∧
    ∀ a, (∀ b, b < 2048 * n → ((geo dev).tiling f.partSpecs).addr b ≠ a) →
      (view r.2).disk a = (view w).disk a := by
  have hleft := hs.sectorsLeft ht
  have hpart := ht.part _ hs.part
  have hroom := hpart.room
  have hlt := hpart.size_lt
  have hoffset := hs.offset
  have hres : reservedSectors f.currentPartNum ≤ 0x2000 := by
    unfold reservedSectors
    split <;> omega
  have hsector : u32 (reservedSectors f.currentPartNum + f.relativeSectorNumber) =
      reservedSectors f.currentPartNum + f.relativeSectorNumber := by
    unfold u32
    omega
  simp only [HdlfsFileDescriptor.asked, hsector]
  obtain ⟨hret, hbuf, hview⟩ := laws.hioctransfer f.mountFD dev
    { sub := f.currentPartNum
      sector := reservedSectors f.currentPartNum + f.relativeSectorNumber
      size := k
      mode := mode
      buffer := buffer } w hon ⟨hs.part, Nat.le_add_right _ _, by simp only; omega, hbuffer⟩
  -- the place on the disk, as the tiling has it
  have hplace : 512 * (((geo dev).slice f.currentPartNum).start +
      (reservedSectors f.currentPartNum + f.relativeSectorNumber)) =
      ((geo dev).tiling f.partSpecs).base f.currentPartNum +
        (512 * f.offset - ((geo dev).tiling f.partSpecs).start f.currentPartNum) := by
    rw [Partition.tiling_base]
    omega
  simp only [hplace] at hbuf hview
  have htile : f.currentPartNum < ((geo dev).tiling f.partSpecs).count :=
    Nat.lt_succ_of_le hs.part
  have hstart : ((geo dev).tiling f.partSpecs).start f.currentPartNum ≤ 512 * f.offset := by
    omega
  have hend : 512 * f.offset + buffer.length ≤
      ((geo dev).tiling f.partSpecs).start (f.currentPartNum + 1) := by
    rw [Tiling.start_succ, Partition.tiling_len]
    omega
  have hacc := Tiling.access_view ht.disjoint (mode == 1) (view w).disk htile hstart hend
  have htotal := ht.total
  refine ⟨hret, ?_, by rw [hview], fun b hb => ?_, fun a ha => ?_⟩
  · rw [hbuf, hacc.1]
    rfl
  · rw [imageOf, hview]
    exact hacc.2 b (by rw [htotal]; exact hb)
  · rw [hview]
    refine Tiling.access_of_ne_addr (mode == 1) (view w).disk htile hstart hend fun c hc hc' => ?_
    have hle : ((geo dev).tiling f.partSpecs).start (f.currentPartNum + 1) ≤
        ((geo dev).tiling f.partSpecs).total := Tiling.start_le_total htile
    exact ha c (by omega)

/-- **The loop of `hdlfs_io_internal`** transfers the whole buffer: at each turn the part of it
that the current slice has room for. -/
theorem ioLoop_transferred (laws : ApaLaws io geo view) (mode : ℕ) :
    ∀ {fuel k : ℕ} {result : ℤ} {f : HdlfsFileDescriptor} {buffer : List UInt8} {w : σ},
      k < fuel → 0 ≤ result → (geo dev).Tiled n f.partSpecs → Stands (geo dev) f →
      (view w).on f.mountFD = some dev → buffer.length = k * 512 →
      512 * f.offset + buffer.length ≤ 2048 * n →
      ∃ r f' w', ioLoop io mode fuel k result f buffer w = some (r, f',
          (access (mode == 1) (imageOf (geo dev) view f w) (512 * f.offset) buffer).1, w') ∧
        0 ≤ r ∧ Transferred (geo dev) view n (mode == 1) buffer f w f' w' := by
  intro fuel
  induction fuel with
  | zero => exact fun hfuel => absurd hfuel (Nat.not_lt_zero _)
  | succ fuel ih =>
    intro k result f buffer w hfuel hresult ht hs hon hbuffer hfits
    by_cases hk : 0 < k
    · obtain ⟨hs₁, hleft, hoff, hspecs, hfd, hnum⟩ := hs.moveOn ht (by omega)
      obtain ⟨g, hg⟩ : ∃ g, f.moveOn = g := ⟨_, rfl⟩
      rw [hg] at hs₁ hleft hoff hspecs hfd hnum
      rw [← hspecs] at ht
      rw [← hfd] at hon
      obtain ⟨hmleft, hmk⟩ := g.turnSize_le k
      obtain ⟨m, hm⟩ : ∃ m, g.turnSize k = m := ⟨_, rfl⟩
      rw [hm] at hmleft hmk
      have hmpos := hmk.2 hleft hk
      have htake : (buffer.take (m * 512)).length = m * 512 := by
        rw [List.length_take]
        omega
      have hdrop : (buffer.drop (m * 512)).length = (k - m) * 512 := by
        rw [List.length_drop]
        omega
      obtain ⟨hret, hbuf, hon₂, himage₂, hframe₂⟩ :=
        hioctransfer_image laws mode ht hs₁ hon hmleft htake
      obtain ⟨hs₂, hoff₂⟩ := hs₁.forward ht hmleft
      obtain ⟨r, hr⟩ : ∃ r, io (.hioctransfer g.mountFD
        (g.asked mode m (buffer.take (m * 512)))) w = r := ⟨_, rfl⟩
      rw [hr] at hret hbuf hon₂ himage₂ hframe₂
      rw [ioLoop_turn hk hg hm hr, if_neg (Int.not_lt.mpr hret)]
      obtain ⟨g₂, hg₂⟩ : ∃ g₂, g₂ = g.advance m := ⟨_, rfl⟩
      rw [← hg₂] at hs₂ hoff₂ ⊢
      have hspecs₂ : g₂.partSpecs = f.partSpecs := by rw [hg₂]; exact hspecs
      have hoffset₂ : g₂.offset = f.offset + m := by rw [hoff₂, hoff]
      have hfd₂ : g₂.mountFD = f.mountFD := by rw [hg₂]; exact hfd
      have hnum₂ : g₂.numPartitions = f.numPartitions := by rw [hg₂]; exact hnum
      -- the rest is transferred behind what this turn has transferred
      have hfits₂ : 512 * g₂.offset + (buffer.drop (m * 512)).length ≤ 2048 * n := by
        rw [hoffset₂, hdrop]
        omega
      obtain ⟨ret, f', w', hloop, hret', hdone⟩ := ih (k := k - m) (f := g₂) (w := r.2)
        (by omega) hret (by rw [hspecs₂, ← hspecs]; exact ht) hs₂
        (by rw [hon₂, hfd₂, ← hfd]; exact hon) hdrop hfits₂
      have hsplit := access_append (mode == 1) (imageOf (geo dev) view f w) (512 * f.offset)
        (buffer.take (m * 512)) (buffer.drop (m * 512))
      rw [List.take_append_drop, htake] at hsplit
      have hnext : 512 * g₂.offset = 512 * f.offset + m * 512 := by omega
      rw [imageOf_congr _ _ hspecs, hoff] at hbuf
      have himage : ∀ b, b < 2048 * n → imageOf (geo dev) view g₂ r.2 b =
          (access (mode == 1) (imageOf (geo dev) view f w) (512 * f.offset)
            (buffer.take (m * 512))).2 b := by
        intro b hb
        rw [imageOf_congr _ _ (hspecs₂.trans hspecs.symm), himage₂ b hb,
          imageOf_congr _ _ hspecs, hoff]
      obtain ⟨hbytes, hrest⟩ := access_congr himage (mode == 1) hfits₂
      refine ⟨ret, f', w', ?_, hret', ⟨hdone.stands, hdone.partSpecs.trans hspecs₂,
        hdone.mountFD.trans hfd₂, hdone.numPartitions.trans hnum₂, ?_, hdone.on.trans hon₂,
        fun b hb => ?_, fun a ha => ?_⟩⟩
      · rw [hloop, Option.map_some, hsplit, hbuf, hbytes, hnext]
      · rw [hdone.offset, hoffset₂, hdrop, hbuffer]
        omega
      · rw [imageOf_congr _ _ hspecs₂.symm, hdone.image b hb, hrest b hb, hsplit, hnext]
      · rw [hdone.frame a (by rw [hspecs₂]; exact ha), hframe₂ a (by rw [hspecs]; exact ha)]
    · rw [ioLoop_done hk]
      have hnil : buffer = [] := List.eq_nil_of_length_eq_zero (by omega)
      subst hnil
      refine ⟨result, f, w, by simp, hresult, ⟨hs, rfl, rfl, rfl, rfl, rfl, fun b hb => ?_,
        fun _ _ => rfl⟩⟩
      simp

/-! ## 4. The driver presents the image -/

/-- The driver stands where the image stands, and the image is the one that lies on the disk as
`specs` says; outside the image the disk is still as `disk₀`. -/
structure Presents (P : Partition) (view : σ → ApaView) (dev : CStr) (n : ℕ)
    (specs : ℕ → PartSpecs) (disk₀ : ℕ → UInt8) (file : IopFile) (d : Driver σ) (f : Flat) :
    Prop where
  unit : file.unit < 2
  privdata : file.privdata = file.unit
  mounted : 0 ≤ (d.fdList file.unit).mountFD
  on : (view d.world).on (d.fdList file.unit).mountFD = some dev
  numPartitions : (d.fdList file.unit).numPartitions = P.nsub + 1
  partSpecs : (d.fdList file.unit).partSpecs = specs
  tiled : P.Tiled n specs
  stands : Stands P (d.fdList file.unit)
  pos : (d.fdList file.unit).offset = f.pos
  image : ∀ b, b < 2048 * n → (P.tiling specs).view (view d.world).disk b = f.image b
  frame : ∀ a, (∀ b, b < 2048 * n → (P.tiling specs).addr b ≠ a) →
    (view d.world).disk a = disk₀ a

variable {specs : ℕ → PartSpecs} {disk₀ : ℕ → UInt8} {file : IopFile} {d : Driver σ} {f f' : Flat}

/-- Reading and writing. -/
theorem hdlfsIoInternal_presents (laws : ApaLaws io geo view) {fuel : ℕ} (mode : ℕ)
    {buffer : List UInt8} {o : ℤ × List UInt8}
    (h : Presents (geo dev) view dev n specs disk₀ file d f) (hfuel : buffer.length < 512 * fuel)
    (hstep : f.transfer n (mode == 1) buffer = some (o, f')) :
    ∃ d', hdlfsIoInternal io fuel file (some buffer) buffer.length mode d =
        some (o.1, o.2, d') ∧ Presents (geo dev) view dev n specs disk₀ file d' f' := by
  unfold Flat.transfer at hstep
  split at hstep
  · rename_i hin
    obtain ⟨⟨k, hk⟩, hfits⟩ := hin
    obtain ⟨rfl, rfl⟩ := Prod.mk.inj (Option.some.inj hstep)
    have hsize : (buffer.length : ℤ) % 512 = 0 := by omega
    have htiled : (geo dev).Tiled n (d.fdList file.unit).partSpecs := by
      rw [h.partSpecs]; exact h.tiled
    have hn := h.tiled.lt
    have hcount : u32 ((buffer.length : ℤ) / 512) = k := by
      unfold u32
      omega
    have hpos := h.pos
    have hlen : buffer.length = k * 512 := by omega
    obtain ⟨r, g, w, hloop, hr, hdone⟩ := ioLoop_transferred laws mode
      (by omega : k < fuel) (le_refl (0 : ℤ)) htiled h.stands h.on hlen (by rw [hpos]; exact hfits)
    have himage : ∀ b, b < 2048 * n → imageOf (geo dev) view (d.fdList file.unit) d.world b =
        f.image b := by
      rw [imageOf, h.partSpecs]
      exact h.image
    obtain ⟨hbytes, hrest⟩ := access_congr himage (mode == 1) hfits
    refine ⟨{ fdList := Function.update d.fdList file.unit g, world := w }, ?_, ?_⟩
    · unfold hdlfsIoInternal
      simp only [hsize, ne_eq, not_true_eq_false, if_false, hcount, h.privdata, hloop,
        Option.map_some, if_neg (Int.not_lt.mpr hr), hpos, hbytes]
    · have hfd := hdone.mountFD
      have hoffset := hdone.offset
      have hspecs : g.partSpecs = specs := hdone.partSpecs.trans h.partSpecs
      refine ⟨h.unit, h.privdata, ?_, ?_, ?_, ?_, h.tiled, ?_, ?_, fun b hb => ?_,
        fun a ha => ?_⟩ <;> simp only [Function.update_self]
      · rw [hfd]; exact h.mounted
      · rw [hdone.on, hfd]; exact h.on
      · rw [hdone.numPartitions]; exact h.numPartitions
      · exact hspecs
      · exact hdone.stands
      · rw [hoffset, hpos]
      · have hb' := hdone.image b hb
        rw [imageOf, h.partSpecs, hpos, hrest b hb] at hb'
        exact hb'
      · rw [hdone.frame a (by rw [h.partSpecs]; exact ha), h.frame a ha]
  · cases hstep

/-- Seeking. -/
theorem hdlfsLseek_presents {offset : ℤ} {o : ℤ × List UInt8}
    (h : Presents (geo dev) view dev n specs disk₀ file d f)
    (hstep : f.step n (.lseek offset) = some (o, f')) :
    ((hdlfsLseek file offset 0 d).1, []) = o ∧
      Presents (geo dev) view dev n specs disk₀ file (hdlfsLseek file offset 0 d).2 f' := by
  simp only [Flat.step] at hstep
  split at hstep
  · rename_i hin
    obtain ⟨rfl, rfl⟩ := Prod.mk.inj (Option.some.inj hstep)
    obtain ⟨t, rfl⟩ := Int.eq_ofNat_of_zero_le hin.1
    have htn : t < n := by omega
    have htiled : (geo dev).Tiled n (d.fdList file.unit).partSpecs := by
      rw [h.partSpecs]; exact h.tiled
    have hn := h.tiled.lt
    obtain ⟨hpart, hle, hlt⟩ := partOf_spec htiled h.numPartitions htn
    have hoffset := (htiled.part _ hpart).offset
    have hfound : (d.fdList file.unit).partOf t < (d.fdList file.unit).numPartitions := by
      rw [h.numPartitions]
      omega
    have htarget : (d.fdList file.unit).seekTo t 0 = 4 * t := by
      show u32 (t * 4) = 4 * t
      unfold u32
      omega
    have hrel : u32 ((4 * t : ℕ) - ((d.fdList file.unit).partSpecs
        ((d.fdList file.unit).partOf t)).partOffset * 4) =
        4 * t - 4 * ((d.fdList file.unit).partSpecs
          ((d.fdList file.unit).partOf t)).partOffset := by
      unfold u32
      omega
    unfold hdlfsLseek
    simp only [if_pos (And.intro h.unit h.mounted), h.privdata, if_pos hfound, htarget, hrel]
    refine ⟨Prod.ext (by simp only; omega) rfl, ⟨h.unit, h.privdata, ?_, ?_, ?_, ?_, h.tiled, ?_,
      ?_, h.image, h.frame⟩⟩ <;> simp only [Function.update_self]
    · exact h.mounted
    · exact h.on
    · exact h.numPartitions
    · exact h.partSpecs
    · refine ⟨hpart, ?_, ?_⟩
      · simp only
        omega
      · simp only
        omega
    · simp
  · cases hstep

/-- **The driver follows the image**, operation by operation. -/
theorem exec_presents (laws : ApaLaws io geo view) {fuel : ℕ} {op : Op} {o : ℤ × List UInt8}
    (hmode : file.mode &&& 1 ≠ 0 ∧ file.mode &&& 2 ≠ 0) (hfuel : op.size < 512 * fuel)
    (h : Presents (geo dev) view dev n specs disk₀ file d f) (hstep : f.step n op = some (o, f')) :
    ∃ d', op.exec io fuel file d = some (o, d') ∧
      Presents (geo dev) view dev n specs disk₀ file d' f' := by
  cases op with
  | lseek offset =>
    obtain ⟨ho, hd⟩ := hdlfsLseek_presents h hstep
    exact ⟨_, by rw [Op.exec, ho], hd⟩
  | read buffer =>
    obtain ⟨d', hd, hp⟩ := hdlfsIoInternal_presents laws 0 h hfuel hstep
    refine ⟨d', ?_, hp⟩
    rw [Op.exec, hdlfsRead, if_pos hmode.1, hd]
    rfl
  | write buffer =>
    obtain ⟨d', hd, hp⟩ := hdlfsIoInternal_presents laws 1 h hfuel hstep
    refine ⟨d', ?_, hp⟩
    rw [Op.exec, hdlfsWrite, if_pos hmode.2, hd]
    rfl

/-! ## 5. The flat image -/

/-- A unit that is mounted on what a format has written presents the image that is on the
disk. -/
theorem presents_of_mount (laws : ApaLaws io geo view) {args : HdlfsFormatArgs} {w w₁ : σ}
    (hn : args.numSectors < 2 ^ 32) (hformat : hdlfsFormat io args dev w = (0, w₁))
    {fdList : ℕ → HdlfsFileDescriptor} {flags : ℕ} {ret : ℤ}
    (hmount : hdlfsMount io file dev flags { fdList := fdList, world := w₁ } = (ret, d))
    (hret : 0 ≤ ret) :
    Presents (geo dev) view dev args.numSectors (d.fdList file.unit).partSpecs
      (view d.world).disk { file with privdata := file.unit } d
      { image := imageOf (geo dev) view (d.fdList file.unit) d.world, pos := 0 } := by
  obtain ⟨hunit, hloaded, hon⟩ := hdlfsMount_loaded laws.toHeaderLaws hmount hret
  have htiled : (geo dev).Tiled args.numSectors (d.fdList file.unit).partSpecs := by
    refine (hdlfsFormat_tiled laws.toHeaderLaws hn hformat).congr fun i hi => ?_
    have := (geo dev).nsub_le
    exact (hloaded.partSpecs i (by omega)).symm
  refine ⟨hunit, rfl, hloaded.mounted, hon, hloaded.numPartitions, rfl, htiled, ⟨?_, ?_, ?_⟩,
    hloaded.offset, fun _ _ => rfl, fun _ _ => rfl⟩
  · rw [hloaded.currentPartNum]
    exact Nat.zero_le _
  · rw [hloaded.relativeSectorNumber]
    exact Nat.zero_le _
  · rw [hloaded.currentPartNum, hloaded.relativeSectorNumber, hloaded.offset]
    rfl

/-- **HDLFS presents a flat disc image.**  A partition is formatted for an image, mounted and
opened for reading and writing.  Then every sequence of seeks, reads and writes within the
image succeeds, with the results it has on an array of bytes; afterwards the image on the disk
is that array and the position the one in it, and nothing else on the disk has changed, the
reserved areas least of all. -/
theorem flat_image (laws : ApaLaws io geo view) {args : HdlfsFormatArgs} {w w₁ : σ}
    (hn : args.numSectors < 2 ^ 32) (hformat : hdlfsFormat io args dev w = (0, w₁))
    {fdList : ℕ → HdlfsFileDescriptor} {flags : ℕ} {ret : ℤ}
    (hmount : hdlfsMount io file dev flags { fdList := fdList, world := w₁ } = (ret, d))
    (hret : 0 ≤ ret) (hmode : file.mode &&& 1 ≠ 0 ∧ file.mode &&& 2 ≠ 0) {fuel : ℕ}
    {ops : List Op} (hfuel : ∀ op ∈ ops, op.size < 512 * fuel) {os : List (ℤ × List UInt8)}
    (hops : trace (Flat.step args.numSectors) ops
      { image := imageOf (geo dev) view (d.fdList file.unit) d.world, pos := 0 } =
        some (os, f')) :
    ∃ d', trace (Op.exec io fuel (hdlfsOpen file d).2) ops d = some (os, d') ∧
      (d'.fdList file.unit).offset = f'.pos ∧
      (∀ b, b < 2048 * args.numSectors →
        imageOf (geo dev) view (d'.fdList file.unit) d'.world b = f'.image b) ∧
      (∀ a, (∀ b, b < 2048 * args.numSectors →
          ((geo dev).tiling (d.fdList file.unit).partSpecs).addr b ≠ a) →
        (view d'.world).disk a = (view d.world).disk a) ∧
      ∀ a, (geo dev).InReserved a → (view d'.world).disk a = (view d.world).disk a := by
  have hstart := presents_of_mount laws hn hformat hmount hret
  have hopen : (hdlfsOpen file d).2 = { file with privdata := file.unit } := by
    rw [hdlfsOpen, if_pos ⟨hstart.unit, hstart.mounted⟩]
  obtain ⟨file', hfile⟩ : ∃ file', file' = { file with privdata := file.unit } := ⟨_, rfl⟩
  have hmode' : file'.mode &&& 1 ≠ 0 ∧ file'.mode &&& 2 ≠ 0 := by rw [hfile]; exact hmode
  have hunit : file'.unit = file.unit := by rw [hfile]
  rw [← hfile] at hopen hstart
  rw [hopen]
  obtain ⟨d', htrace, hend⟩ := trace_simulates
    (fun op hop s t o t' hst hstep => exec_presents laws hmode' (hfuel op hop) hst hstep)
    hstart hops
  rw [← hunit]
  refine ⟨d', htrace, hend.pos, fun b hb => ?_, ?_, fun a ha => ?_⟩
  · rw [imageOf, hend.partSpecs]
    exact hend.image b hb
  · rw [hunit]
    exact hend.frame
  · refine hend.frame a fun b hb haddr => ?_
    exact hend.tiled.addr_not_reserved hb (haddr ▸ ha)

end Transfers

/-! ## 6. An image in two slices -/

/-- A main slice with room for two sectors of an image, and a sub with room for one. -/
def twoSlices : Partition where
  nsub := 1
  slice i := if i = 0 then ⟨0x100, 0x2008⟩ else ⟨0x10000, 8⟩
  nsub_le := by decide
  room := by decide
  size_lt := by decide
  disjoint i j hi hj hne := by
    split <;> split <;> dsimp only <;> omega

/-- Every partition is one of two such slices. -/
def twoSliceApa : IomanX ApaView := smallApa fun _ => twoSlices

/-- The disk is all zeros, and no header has been written. -/
def blank : ApaView := { disk := fun _ => 0 }

/-- Partition A is formatted for three sectors. -/
def formatted : ApaView := (hdlfsFormat twoSliceApa { numSectors := 3 } (ascii ['A']) blank).2

/-- Then it is mounted as unit 0. -/
def mounted : Driver ApaView :=
  (hdlfsMount twoSliceApa { mode := 3 } (ascii ['A']) 0 { world := formatted }).2

/-- Three sectors from the second one of 2048 bytes are read, and two are written behind them,
one in each slice. -/
def crossing : List Op :=
  [.lseek 1, .read (List.replicate 1536 0), .write (List.replicate 1024 7)]

theorem flat_image_two_slices : ∃ os d',
    trace (Op.exec twoSliceApa 4 (hdlfsOpen { mode := 3 } mounted).2) crossing mounted =
        some (os, d') ∧ (d'.fdList 0).offset = 9 ∧ os.map (·.1) = [1, 1536, 1024] := by
  have laws : ApaLaws twoSliceApa (fun _ => twoSlices) id := by
    refine smallApa_laws fun _ i => ?_
    simp only [twoSlices]
    split <;> decide
  have hformat : hdlfsFormat twoSliceApa { numSectors := 3 } (ascii ['A']) blank =
      (0, formatted) := Prod.ext (by decide) rfl
  have hmount : hdlfsMount twoSliceApa { mode := 3 } (ascii ['A']) 0 { world := formatted } =
      (0, mounted) := Prod.ext (by decide) rfl
  obtain ⟨os, f', hops, hpos, hos⟩ : ∃ os f', trace (Flat.step 3) crossing
      { image := imageOf twoSlices id (mounted.fdList 0) mounted.world, pos := 0 } =
        some (os, f') ∧ f'.pos = 9 ∧ os.map (·.1) = [1, 1536, 1024] := by
    simp [crossing, trace, Flat.step, Flat.transfer, -List.reduceReplicate]
  have hfuel : ∀ op ∈ crossing, op.size < 512 * 4 := by
    simp [crossing, Op.size, -List.reduceReplicate]
  obtain ⟨d', htrace, hoffset, -⟩ := flat_image laws (by decide) hformat hmount
    (by decide) (by decide) hfuel hops
  exact ⟨os, d', htrace, hoffset.trans hpos, hos⟩

end PfsShell.Hdlfs
