/-
# Where the position of a unit can go

The three position fields of a unit are right when the slice is one of the unit's, the sector one
of the slice's part or the one behind it, and the offset that of the sector (`Positioned`).
Seeking keeps that true, and so does every transfer that ends within the game, whether
`HIOCTRANSFER` fails underway or not: the descriptor has moved on to a slice before the transfer
that fails, but to one there is (`exec_onGame`).

A transfer that asks for more than is left of the game moves on from the last slice, and stays
there when `HIOCTRANSFER` then fails (`ioLoop_overruns`).

* `positioned_of_run`: the position is right along every run of seeks and of transfers within the
  game, and the first transfer beyond its end leaves it wrong;
* `position_lost`: a read of one sector too many.
-/
import PfsShell.Hdlfs.FlatImage

namespace PfsShell.Hdlfs

open PfsShell.Lib

/-! ## 1. The position and the unit -/

/-- The position fields agree with each other and with the table. -/
structure HdlfsFileDescriptor.Positioned (f : HdlfsFileDescriptor) : Prop where
  index : f.numPartitions ≤ 65
  part : f.currentPartNum < f.numPartitions
  within : f.relativeSectorNumber ≤ (f.partSpecs f.currentPartNum).partSize / 512
  offset : f.offset = 4 * (f.partSpecs f.currentPartNum).partOffset + f.relativeSectorNumber

/-- Only the position differs. -/
structure HdlfsFileDescriptor.Moved (f f' : HdlfsFileDescriptor) : Prop where
  partSpecs : f'.partSpecs = f.partSpecs
  mountFD : f'.mountFD = f.mountFD
  numPartitions : f'.numPartitions = f.numPartitions

theorem HdlfsFileDescriptor.Moved.refl (f : HdlfsFileDescriptor) : f.Moved f := ⟨rfl, rfl, rfl⟩

theorem HdlfsFileDescriptor.Moved.trans {f g h : HdlfsFileDescriptor} (hfg : f.Moved g)
    (hgh : g.Moved h) : f.Moved h where
  partSpecs := hgh.partSpecs.trans hfg.partSpecs
  mountFD := hgh.mountFD.trans hfg.mountFD
  numPartitions := hgh.numPartitions.trans hfg.numPartitions

theorem HdlfsFileDescriptor.moved_advance (f : HdlfsFileDescriptor) (k : ℕ) :
    f.Moved (f.advance k) := ⟨rfl, rfl, rfl⟩

/-- The unit's table is the layout of a game of `n` sectors. -/
structure OnGame (P : Partition) (n : ℕ) (f : HdlfsFileDescriptor) : Prop where
  mounted : 0 ≤ f.mountFD
  numPartitions : f.numPartitions = P.nsub + 1
  tiled : P.Tiled n f.partSpecs

section Position

variable {P : Partition} {n : ℕ} {f f' : HdlfsFileDescriptor}

theorem OnGame.moved (h : OnGame P n f) (hm : f.Moved f') : OnGame P n f' where
  mounted := by rw [hm.mountFD]; exact h.mounted
  numPartitions := by rw [hm.numPartitions]; exact h.numPartitions
  tiled := by rw [hm.partSpecs]; exact h.tiled

/-- In bytes of the image, that is what `Stands` says. -/
theorem OnGame.stands_iff (h : OnGame P n f) : Stands P f ↔ f.Positioned := by
  have hnum := h.numPartitions
  have hsub := P.nsub_le
  constructor
  · intro hs
    have hoffset := (h.tiled.part _ hs.part).offset
    have hpart := hs.part
    have hwithin := hs.within
    have hstand := hs.offset
    exact ⟨by omega, by omega, by omega, by omega⟩
  · intro hp
    have hpart : f.currentPartNum ≤ P.nsub := by
      have := hp.part
      omega
    have hoffset := (h.tiled.part _ hpart).offset
    have hwhole := (h.tiled.part _ hpart).whole
    have hwithin := hp.within
    have hposition := hp.offset
    exact ⟨hpart, by omega, by omega⟩

/-- The position is in the image, or at its end. -/
theorem Stands.offset_le (hs : Stands P f) (ht : P.Tiled n f.partSpecs) :
    512 * f.offset ≤ 2048 * n := by
  have hend : (P.tiling f.partSpecs).start (f.currentPartNum + 1) ≤ 2048 * n := by
    rw [← ht.total]
    exact Tiling.start_le_total (Nat.succ_le_succ hs.part)
  rw [Tiling.start_succ, Partition.tiling_len] at hend
  have hoffset := hs.offset
  have hwithin := hs.within
  omega

/-- What is left of the part of a slice lies in the slice. -/
theorem Stands.sector (hs : Stands P f) (ht : P.Tiled n f.partSpecs) :
    u32 (reservedSectors f.currentPartNum + f.relativeSectorNumber) =
        reservedSectors f.currentPartNum + f.relativeSectorNumber ∧
      reservedSectors f.currentPartNum + f.relativeSectorNumber + f.sectorsLeft ≤
        (P.slice f.currentPartNum).size := by
  have hleft := hs.sectorsLeft ht
  have hpart := ht.part _ hs.part
  have hroom := hpart.room
  have hsize := P.size_lt _ hs.part
  unfold u32
  omega

/-- **Moving on, wherever the descriptor stands.**  At the end of the last slice it leaves the
partition. -/
theorem Stands.moveOn_cases (hs : Stands P f) (ht : P.Tiled n f.partSpecs) :
    f.Moved f.moveOn ∧ f.moveOn.offset = f.offset ∧
      (Stands P f.moveOn ∧ (0 < f.moveOn.sectorsLeft ∧ f.currentPartNum ≤ f.moveOn.currentPartNum ∨
          f.moveOn.currentPartNum = f.currentPartNum + 1) ∨
        f.moveOn.currentPartNum = P.nsub + 1) := by
  have hleft := hs.sectorsLeft ht
  have hoffset := hs.offset
  have hpart := hs.part
  have hsub := P.nsub_le
  unfold HdlfsFileDescriptor.moveOn
  split
  · have hcount : u16 (f.currentPartNum + 1) = f.currentPartNum + 1 := by
      unfold u16
      omega
    refine ⟨⟨rfl, rfl, rfl⟩, rfl, ?_⟩
    by_cases hlast : f.currentPartNum + 1 ≤ P.nsub
    · refine .inl ⟨⟨?_, ?_, ?_⟩, .inr hcount⟩
      · simp only [hcount]
        exact hlast
      · exact Nat.zero_le _
      · simp only [hcount, Tiling.start_succ, Partition.tiling_len]
        omega
    · refine .inr ?_
      simp only [hcount]
      omega
  · exact ⟨.refl f, rfl, .inl ⟨hs, .inl ⟨by omega, le_rfl⟩⟩⟩

/-- Seeking finds a slice only for a sector of the image. -/
theorem partOf_found (hg : OnGame P n f) {offset : ℤ} (hi : f.partOf offset < f.numPartitions) :
    f.partOf offset ≤ P.nsub ∧ u32 offset < n ∧
      (f.partSpecs (f.partOf offset)).partOffset ≤ u32 offset ∧
      u32 offset < (f.partSpecs (f.partOf offset)).partOffset +
        (f.partSpecs (f.partOf offset)).partSize / 2048 := by
  have hpart : f.partOf offset ≤ P.nsub := by
    have := hg.numPartitions
    omega
  have htest := scan_holds hi
  have hoffset := (hg.tiled.part _ hpart).offset
  have hwhole := (hg.tiled.part _ hpart).whole
  have hn := hg.tiled.lt
  have hend : (P.tiling f.partSpecs).start (f.partOf offset + 1) ≤ 2048 * n := by
    rw [← hg.tiled.total]
    exact Tiling.start_le_total (Nat.succ_le_succ hpart)
  rw [Tiling.start_succ, Partition.tiling_len] at hend
  change (f.partSpecs (f.partOf offset)).partOffset ≤ u32 offset ∧ u32 offset <
    u32 ((f.partSpecs (f.partOf offset)).partOffset +
      ((f.partSpecs (f.partOf offset)).partSize / 2048 : ℕ)) at htest
  have hwrap : u32 ((f.partSpecs (f.partOf offset)).partOffset +
      ((f.partSpecs (f.partOf offset)).partSize / 2048 : ℕ)) =
      (f.partSpecs (f.partOf offset)).partOffset +
        (f.partSpecs (f.partOf offset)).partSize / 2048 := by
    unfold u32
    omega
  rw [hwrap] at htest
  exact ⟨hpart, by omega, htest.1, htest.2⟩

/-- **A seek that succeeds** leaves the descriptor where it says. -/
theorem stands_seek (hg : OnGame P n f) {offset : ℤ}
    (hi : f.partOf offset < f.numPartitions) :
    Stands P { f with
      offset := f.seekTo offset 0
      relativeSectorNumber :=
        u32 (f.seekTo offset 0 - (f.partSpecs (f.partOf offset)).partOffset * 4)
      currentPartNum := f.partOf offset } := by
  obtain ⟨hpart, hlt, hle, hwithin⟩ := partOf_found hg hi
  have hn := hg.tiled.lt
  have hoffset := (hg.tiled.part _ hpart).offset
  have htarget : f.seekTo offset 0 = 4 * u32 offset := by
    change u32 (offset * 4) = 4 * u32 offset
    unfold u32 at hlt ⊢
    omega
  have hrel : u32 ((4 * u32 offset : ℕ) - (f.partSpecs (f.partOf offset)).partOffset * 4) =
      4 * u32 offset - 4 * (f.partSpecs (f.partOf offset)).partOffset := by
    generalize u32 offset = t at hlt hle ⊢
    unfold u32
    omega
  rw [htarget, hrel]
  refine ⟨hpart, ?_, ?_⟩
  · simp only
    omega
  · simp only
    omega

end Position

/-! ## 2. Transfers within the game -/

section Transfers

variable {σ : Type} {io : IomanX σ} {geo : CStr → Partition} {view : σ → ApaView} {dev : CStr}
  {P : Partition} {n : ℕ}

/-- **The loop of `hdlfs_io_internal`, within the game.**  Nothing is assumed of
`HIOCTRANSFER`: before each turn the descriptor stands in front of a sector of the game, and a
turn that fails leaves it there. -/
theorem ioLoop_stands (io : IomanX σ) (mode : ℕ) :
    ∀ (fuel k : ℕ) (result : ℤ) (f : HdlfsFileDescriptor) (buffer : List UInt8) (w : σ),
      k < fuel → OnGame P n f → Stands P f → 512 * (f.offset + k) ≤ 2048 * n →
      ∃ r f' b w', ioLoop io mode fuel k result f buffer w = some (r, f', b, w') ∧
        Stands P f' ∧ f.Moved f' := by
  intro fuel
  induction fuel with
  | zero => exact fun _ _ _ _ _ hfuel => absurd hfuel (Nat.not_lt_zero _)
  | succ fuel ih =>
    intro k result f buffer w hfuel hg hs hfits
    by_cases hk : 0 < k
    · obtain ⟨hs₁, hleft, hoff, hspecs, hfd, hnum⟩ := hs.moveOn hg.tiled (by omega)
      have hmoved : f.Moved f.moveOn := ⟨hspecs, hfd, hnum⟩
      obtain ⟨g, hgo⟩ : ∃ g, f.moveOn = g := ⟨_, rfl⟩
      rw [hgo] at hs₁ hleft hoff hmoved
      have hg₁ := hg.moved hmoved
      obtain ⟨hmleft, hmk, hmpos⟩ := g.turnSize_le k
      obtain ⟨m, hm⟩ : ∃ m, g.turnSize k = m := ⟨_, rfl⟩
      rw [hm] at hmleft hmk hmpos
      have hpos := hmpos hleft hk
      obtain ⟨hs₂, hoff₂⟩ := hs₁.forward hg₁.tiled hmleft
      obtain ⟨r, hr⟩ : ∃ r, io (.hioctransfer g.mountFD
        (g.asked mode m (buffer.take (m * 512)))) w = r := ⟨_, rfl⟩
      rw [ioLoop_turn hk hgo hm hr]
      split
      · exact ⟨_, g, _, _, rfl, hs₁, hmoved⟩
      · have hmoved₂ := g.moved_advance m
        obtain ⟨ret, f', b, w', hloop, hs', hmoved'⟩ :=
          ih (k - m) r.1.ret (g.advance m) (buffer.drop (m * 512)) r.2 (by omega)
            (hg₁.moved hmoved₂) hs₂ (by omega)
        exact ⟨ret, f', r.1.buffer ++ b, w', by rw [hloop]; rfl, hs',
          (hmoved.trans hmoved₂).trans hmoved'⟩
    · rw [ioLoop_done hk]
      exact ⟨result, f, buffer, w, rfl, hs, .refl f⟩

/-! ## 3. Transfers beyond its end -/

/-- `HIOCTRANSFER` fails when `sub` exceeds the partition's sub count or the range leaves the
slice, and otherwise does not. -/
structure TransferLaws {σ : Type} (io : IomanX σ) (geo : CStr → Partition)
    (view : σ → ApaView) : Prop where
  on : ∀ fd arg w, (view (io (.hioctransfer fd arg) w).2).on = (view w).on
  ret : ∀ fd dev arg w, (view w).on fd = some dev →
    (0 ≤ (io (.hioctransfer fd arg) w).1.ret ↔
      arg.sub ≤ (geo dev).nsub ∧ arg.sector + arg.size ≤ ((geo dev).slice arg.sub).size)

/-- **The loop of `hdlfs_io_internal`, beyond the end of the game.**  When the last slice is used
up, the descriptor moves on from it, the transfer fails, and there it stays. -/
theorem ioLoop_overruns (laws : TransferLaws io geo view) (mode : ℕ) :
    ∀ (fuel k : ℕ) (result : ℤ) (f : HdlfsFileDescriptor) (buffer : List UInt8) (w : σ),
      k + ((geo dev).nsub + 1 - f.currentPartNum) < fuel → OnGame (geo dev) n f →
      Stands (geo dev) f → (view w).on f.mountFD = some dev → 2048 * n < 512 * (f.offset + k) →
      ∃ r f' b w', ioLoop io mode fuel k result f buffer w = some (r, f', b, w') ∧
        f'.currentPartNum = (geo dev).nsub + 1 ∧ f.Moved f' := by
  intro fuel
  induction fuel with
  | zero => exact fun _ _ _ _ _ hfuel => absurd hfuel (Nat.not_lt_zero _)
  | succ fuel ih =>
    intro k result f buffer w hfuel hg hs hon hover
    have hk : 0 < k := by
      have := hs.offset_le hg.tiled
      omega
    obtain ⟨hmoved, hoff, hcases⟩ := hs.moveOn_cases hg.tiled
    have hpart := hs.part
    obtain ⟨g, hgo⟩ : ∃ g, f.moveOn = g := ⟨_, rfl⟩
    rw [hgo] at hmoved hoff hcases
    have hg₁ := hg.moved hmoved
    rw [← hmoved.mountFD] at hon
    obtain ⟨hmleft, hmk, hmpos⟩ := g.turnSize_le k
    obtain ⟨m, hm⟩ : ∃ m, g.turnSize k = m := ⟨_, rfl⟩
    rw [hm] at hmleft hmk hmpos
    have hret := laws.ret g.mountFD dev (g.asked mode m (buffer.take (m * 512))) w hon
    have hon₂ := laws.on g.mountFD (g.asked mode m (buffer.take (m * 512))) w
    obtain ⟨r, hr⟩ : ∃ r, io (.hioctransfer g.mountFD
      (g.asked mode m (buffer.take (m * 512)))) w = r := ⟨_, rfl⟩
    rw [hr] at hret hon₂
    rw [ioLoop_turn hk hgo hm hr]
    simp only [HdlfsFileDescriptor.asked] at hret
    rcases hcases with ⟨hs₁, hmove⟩ | hlast
    · -- a slice of the partition: the transfer is in it, and may be of no sector at all
      obtain ⟨hsector, hroom⟩ := hs₁.sector hg₁.tiled
      obtain ⟨hs₂, hoff₂⟩ := hs₁.forward hg₁.tiled hmleft
      rw [if_neg (Int.not_lt.mpr (hret.mpr ⟨hs₁.part, by rw [hsector]; omega⟩))]
      have hmoved₂ := g.moved_advance m
      have hcur : (g.advance m).currentPartNum = g.currentPartNum := rfl
      obtain ⟨ret, f', b, w', hloop, hend, hmoved'⟩ :=
        ih (k - m) r.1.ret (g.advance m) (buffer.drop (m * 512)) r.2 (by omega)
          (hg₁.moved hmoved₂) hs₂ (by rw [hmoved₂.mountFD, hon₂]; exact hon) (by omega)
      exact ⟨ret, f', r.1.buffer ++ b, w', by rw [hloop]; rfl, hend,
        (hmoved.trans hmoved₂).trans hmoved'⟩
    · have hneg : r.1.ret < 0 := by
        by_contra h
        have hsub := (hret.mp (Int.not_lt.mp h)).1
        omega
      rw [if_pos hneg]
      exact ⟨_, g, _, _, rfl, hlast, hmoved⟩

/-- Transfers open and close nothing. -/
theorem on_ioLoop (laws : TransferLaws io geo view) (mode : ℕ) {fuel k : ℕ} {result r : ℤ}
    {f f' : HdlfsFileDescriptor} {buffer b : List UInt8} {w w' : σ}
    (h : ioLoop io mode fuel k result f buffer w = some (r, f', b, w')) :
    (view w').on = (view w).on := by
  have hturn : ∀ (f : HdlfsFileDescriptor) v arg, (view v).on = (view w).on →
      (view (io (.hioctransfer f.mountFD arg) v).2).on = (view w).on :=
    fun f v arg hv => (laws.on f.mountFD arg v).trans hv
  exact ioLoop_keeps (fun _ _ hv => hv) hturn (fun _ _ _ hv => hv) rfl h

/-! ## 4. Runs -/

/-- The operation as a step of the driver, whatever it returns. -/
def Op.next (io : IomanX σ) (fuel : ℕ) (file : IopFile) (op : Op) (d : Driver σ) :
    Option (Driver σ) :=
  (op.exec io fuel file d).map Prod.snd

/-- The operation does not reach past the end of a game of `n` sectors that is mounted as
`unit`. -/
def Op.InGame (n unit : ℕ) (op : Op) (d : Driver σ) : Prop :=
  match op with
  | .lseek _ => True
  | .read buffer | .write buffer =>
    512 * (d.fdList unit).offset + buffer.length ≤ 2048 * n

/-- A transfer of an `int` that is a positive multiple of 512 bytes. -/
def Op.Sized (op : Op) : Prop := 0 < op.size ∧ 512 ∣ op.size ∧ op.size < 2 ^ 31

/-- A file that is open on its unit, and the unit stands in a game of `n` sectors. -/
structure InUnit (P : Partition) (n : ℕ) (file : IopFile) (fd : ℤ) (d : Driver σ) : Prop where
  unit : file.unit < 2
  privdata : file.privdata = file.unit
  mountFD : (d.fdList file.unit).mountFD = fd
  game : OnGame P n (d.fdList file.unit)
  stands : Stands P (d.fdList file.unit)

variable {file : IopFile} {fd : ℤ} {d d' : Driver σ} {fuel : ℕ}

theorem InUnit.moved (h : InUnit P n file fd d)
    (hm : (d.fdList file.unit).Moved (d'.fdList file.unit))
    (hs : Stands P (d'.fdList file.unit)) : InUnit P n file fd d' :=
  ⟨h.unit, h.privdata, hm.mountFD.trans h.mountFD, h.game.moved hm, hs⟩

/-- A transfer of whole sectors is the loop's. -/
theorem hdlfsIoInternal_eq (io : IomanX σ) (fuel : ℕ) (file : IopFile) (mode : ℕ) (d : Driver σ)
    {buffer : List UInt8} {k : ℕ} (hbuffer : buffer.length = k * 512) (hk : k < 2 ^ 32) :
    hdlfsIoInternal io fuel file (some buffer) buffer.length mode d =
      (ioLoop io mode fuel k 0 (d.fdList file.privdata) buffer d.world).map
        fun (result, f, b, w) => (if result < 0 then result else (buffer.length : ℤ), b,
          { fdList := Function.update d.fdList file.privdata f, world := w }) := by
  have hsectors : u32 ((buffer.length : ℤ) / 512) = k := by
    unfold u32
    omega
  simp only [hdlfsIoInternal, hsectors]
  rw [if_neg (by omega)]

/-- Reading or writing within the game. -/
theorem hdlfsIoInternal_inUnit (io : IomanX σ) (mode : ℕ) {buffer : List UInt8}
    (h : InUnit P n file fd d) (hfuel : buffer.length / 512 < fuel)
    (hin : 512 * (d.fdList file.unit).offset + buffer.length ≤ 2048 * n) :
    ∃ r b d', hdlfsIoInternal io fuel file (some buffer) buffer.length mode d =
      some (r, b, d') ∧ InUnit P n file fd d' := by
  by_cases hwhole : 512 ∣ buffer.length
  · obtain ⟨k, hk⟩ := hwhole
    have hn := h.game.tiled.lt
    rw [hdlfsIoInternal_eq io fuel file mode d (k := k) (by omega) (by omega), h.privdata]
    obtain ⟨r, f', b, w', hloop, hs, hmoved⟩ := ioLoop_stands io mode fuel k 0 _ buffer d.world
      (by omega) h.game h.stands (by omega)
    rw [hloop]
    refine ⟨_, _, _, rfl, h.moved ?_ ?_⟩ <;> simp only [Function.update_self]
    · exact hmoved
    · exact hs
  · refine ⟨-22, buffer, d, ?_, h⟩
    rw [hdlfsIoInternal]
    exact if_pos (by omega)

/-- **One operation within the game.** -/
theorem next_inUnit (io : IomanX σ) {op : Op} (h : InUnit P n file fd d)
    (hfuel : op.size / 512 < fuel) (hin : op.InGame n file.unit d) :
    ∃ d', op.next io fuel file d = some d' ∧ InUnit P n file fd d' := by
  cases op with
  | lseek offset =>
    refine ⟨_, rfl, ?_⟩
    unfold hdlfsLseek
    rw [if_pos ⟨h.unit, h.game.mounted⟩, h.privdata]
    simp only
    split
    · rename_i hi
      have hs := stands_seek h.game hi
      refine h.moved ?_ ?_ <;> simp only [Function.update_self]
      · exact ⟨rfl, rfl, rfl⟩
      · exact hs
    · exact h
  | read buffer =>
    obtain ⟨r, b, d', heq, hd'⟩ := hdlfsIoInternal_inUnit io 0 h hfuel hin
    simp only [Op.next, Op.exec, hdlfsRead]
    split
    · exact ⟨d', by rw [heq]; rfl, hd'⟩
    · exact ⟨d, rfl, h⟩
  | write buffer =>
    obtain ⟨r, b, d', heq, hd'⟩ := hdlfsIoInternal_inUnit io 1 h hfuel hin
    simp only [Op.next, Op.exec, hdlfsWrite]
    split
    · exact ⟨d', by rw [heq]; rfl, hd'⟩
    · exact ⟨d, rfl, h⟩

/-- No operation opens or closes anything. -/
theorem on_hdlfsIoInternal (laws : TransferLaws io geo view) {mode : ℕ} {buffer b : List UInt8}
    {size r : ℤ} (h : hdlfsIoInternal io fuel file (some buffer) size mode d = some (r, b, d')) :
    (view d'.world).on = (view d.world).on := by
  unfold hdlfsIoInternal at h
  simp only at h
  split at h
  · obtain ⟨-, h⟩ := Prod.mk.inj (Option.some.inj h)
    obtain ⟨-, rfl⟩ := Prod.mk.inj h
    rfl
  · obtain ⟨⟨ret, f, rest, w⟩, hloop, h⟩ := Option.map_eq_some_iff.mp h
    obtain ⟨-, h⟩ := Prod.mk.inj h
    obtain ⟨-, rfl⟩ := Prod.mk.inj h
    exact on_ioLoop laws mode hloop

theorem on_next (laws : TransferLaws io geo view) {op : Op}
    (h : op.next io fuel file d = some d') : (view d'.world).on = (view d.world).on := by
  cases op with
  | lseek offset =>
    obtain rfl := Option.some.inj h
    simp only [hdlfsLseek]
    split
    · split <;> rfl
    · rfl
  | read buffer =>
    simp only [Op.next, Op.exec, hdlfsRead] at h
    split at h
    · obtain ⟨_, hmap, rfl⟩ := Option.map_eq_some_iff.mp h
      obtain ⟨⟨r, b, e⟩, hread, rfl⟩ := Option.map_eq_some_iff.mp hmap
      exact on_hdlfsIoInternal laws hread
    · obtain rfl := Option.some.inj h
      rfl
  | write buffer =>
    simp only [Op.next, Op.exec, hdlfsWrite] at h
    split at h
    · obtain ⟨_, hmap, rfl⟩ := Option.map_eq_some_iff.mp h
      obtain ⟨⟨r, b, e⟩, hwrite, rfl⟩ := Option.map_eq_some_iff.mp hmap
      exact on_hdlfsIoInternal laws hwrite
    · obtain rfl := Option.some.inj h
      rfl

/-- **Runs within the game.** -/
theorem run_inUnit (io : IomanX σ) : ∀ {ops : List Op} {d : Driver σ},
    (∀ op ∈ ops, op.size / 512 < fuel) → InUnit P n file fd d →
    Along (Op.next io fuel file) (Op.InGame n file.unit) ops d →
    ∃ d', run (Op.next io fuel file) ops d = some d' ∧ InUnit P n file fd d'
  | [], d, _, h, _ => ⟨d, rfl, h⟩
  | op :: ops, d, hfuel, h, hC => by
    obtain ⟨t, ht, hnext⟩ := next_inUnit io h (hfuel op List.mem_cons_self) hC.1
    obtain ⟨d', hd', hend⟩ := run_inUnit io
      (fun op hop => hfuel op (List.mem_cons_of_mem _ hop)) hnext (hC.2 t ht)
    exact ⟨d', run_cons.mpr ⟨t, ht, hd'⟩, hend⟩

/-- Reading or writing beyond the end. -/
theorem hdlfsIoInternal_overruns (laws : TransferLaws io geo view) (mode : ℕ)
    {buffer : List UInt8} (h : InUnit (geo dev) n file fd d)
    (hon : (view d.world).on fd = some dev) (hwhole : 512 ∣ buffer.length)
    (hint : buffer.length < 2 ^ 31) (hfuel : buffer.length / 512 + 66 < fuel)
    (hout : 2048 * n < 512 * (d.fdList file.unit).offset + buffer.length) :
    ∃ r b d', hdlfsIoInternal io fuel file (some buffer) buffer.length mode d =
      some (r, b, d') ∧ ¬ (d'.fdList file.unit).Positioned := by
  obtain ⟨k, hk⟩ := hwhole
  have hsub := (geo dev).nsub_le
  rw [hdlfsIoInternal_eq io fuel file mode d (k := k) (by omega) (by omega), h.privdata]
  obtain ⟨r, f', b, w', hloop, hend, hmoved⟩ := ioLoop_overruns laws mode fuel k 0 _ buffer d.world
    (by omega) h.game h.stands (by rw [h.mountFD]; exact hon) (by omega)
  rw [hloop]
  refine ⟨_, _, _, rfl, fun hp => ?_⟩
  have hpart := hp.part
  simp only [Function.update_self] at hpart
  rw [hmoved.numPartitions, h.game.numPartitions] at hpart
  omega

/-- **A transfer that asks for more than is left of the game** leaves the position wrong. -/
theorem next_overruns (laws : TransferLaws io geo view)
    (hmode : file.mode &&& 1 ≠ 0 ∧ file.mode &&& 2 ≠ 0) {op : Op}
    (h : InUnit (geo dev) n file fd d) (hon : (view d.world).on fd = some dev)
    (hsized : op.Sized) (hfuel : op.size / 512 + 66 < fuel)
    (hout : ¬ op.InGame n file.unit d) :
    ∃ d', op.next io fuel file d = some d' ∧ ¬ (d'.fdList file.unit).Positioned := by
  cases op with
  | lseek offset => exact absurd trivial hout
  | read buffer =>
    obtain ⟨r, b, d', heq, hd'⟩ := hdlfsIoInternal_overruns laws 0 h hon hsized.2.1 hsized.2.2
      hfuel (Nat.not_le.mp hout)
    refine ⟨d', ?_, hd'⟩
    simp only [Op.next, Op.exec, hdlfsRead]
    rw [if_pos hmode.1, heq]
    rfl
  | write buffer =>
    obtain ⟨r, b, d', heq, hd'⟩ := hdlfsIoInternal_overruns laws 1 h hon hsized.2.1 hsized.2.2
      hfuel (Nat.not_le.mp hout)
    refine ⟨d', ?_, hd'⟩
    simp only [Op.next, Op.exec, hdlfsWrite]
    rw [if_pos hmode.2, heq]
    rfl

/-! ## 5. The position -/

/-- **The position is right as long as no transfer reaches past the end of the game.**  A
partition is formatted, mounted and opened.  Then every run of seeks and of transfers within the
game leaves the position right, whatever `HIOCTRANSFER` does; and on a disk that fails only what
is out of range, the next operation keeps it right just when it is within the game itself. -/
theorem positioned_of_run (laws : HeaderLaws io geo view) {args : HdlfsFormatArgs} {w w₁ : σ}
    (hn : args.numSectors < 2 ^ 32) (hformat : hdlfsFormat io args dev w = (0, w₁))
    {fdList : ℕ → HdlfsFileDescriptor} {flags : ℕ} {ret : ℤ}
    (hmount : hdlfsMount io file dev flags { fdList := fdList, world := w₁ } = (ret, d))
    (hret : 0 ≤ ret) (hmode : file.mode &&& 1 ≠ 0 ∧ file.mode &&& 2 ≠ 0) {ops : List Op}
    (hfuel : ∀ op ∈ ops, op.size / 512 < fuel)
    (hin : Along (Op.next io fuel (hdlfsOpen file d).2)
      (Op.InGame args.numSectors file.unit) ops d) :
    ∃ d', run (Op.next io fuel (hdlfsOpen file d).2) ops d = some d' ∧
      (d'.fdList file.unit).Positioned ∧
      ∀ op : Op, TransferLaws io geo view → op.Sized → op.size / 512 + 66 < fuel →
        ∃ d'', op.next io fuel (hdlfsOpen file d).2 d' = some d'' ∧
          ((d''.fdList file.unit).Positioned ↔ op.InGame args.numSectors file.unit d') := by
  obtain ⟨hunit, hloaded, hon⟩ := hdlfsMount_loaded laws hmount hret
  have htiled : (geo dev).Tiled args.numSectors (d.fdList file.unit).partSpecs := by
    refine (hdlfsFormat_tiled laws hn hformat).congr fun i hi => ?_
    have := (geo dev).nsub_le
    exact (hloaded.partSpecs i (by omega)).symm
  have hstands : Stands (geo dev) (d.fdList file.unit) := by
    refine ⟨?_, ?_, ?_⟩
    · rw [hloaded.currentPartNum]
      exact Nat.zero_le _
    · rw [hloaded.relativeSectorNumber]
      exact Nat.zero_le _
    · rw [hloaded.currentPartNum, hloaded.relativeSectorNumber, hloaded.offset]
      rfl
  have hopen : (hdlfsOpen file d).2 = { file with privdata := file.unit } := by
    rw [hdlfsOpen, if_pos ⟨hunit, hloaded.mounted⟩]
  obtain ⟨file', hfile⟩ : ∃ file', file' = { file with privdata := file.unit } := ⟨_, rfl⟩
  have hmode' : file'.mode &&& 1 ≠ 0 ∧ file'.mode &&& 2 ≠ 0 := by rw [hfile]; exact hmode
  have hunit' : file'.unit = file.unit := by rw [hfile]
  rw [hopen, ← hfile] at hin ⊢
  rw [← hunit'] at hin hunit hloaded hon htiled hstands ⊢
  have hstart : InUnit (geo dev) args.numSectors file' (d.fdList file'.unit).mountFD d :=
    ⟨hunit, by rw [hfile], rfl, ⟨hloaded.mounted, hloaded.numPartitions, htiled⟩, hstands⟩
  obtain ⟨d', hrun, hend⟩ := run_inUnit io hfuel hstart hin
  refine ⟨d', hrun, hend.game.stands_iff.mp hend.stands, fun op hlaws hsized hop => ?_⟩
  have hon' : (view d'.world).on (d.fdList file'.unit).mountFD = some dev := by
    have hkept := run_preserves (I := fun e => (view e.world).on = (view d.world).on)
      (fun op s t hs ht => (on_next hlaws ht).trans hs) rfl hrun
    rw [hkept]
    exact hon
  by_cases hgame : op.InGame args.numSectors file'.unit d'
  · have hshort : op.size / 512 < fuel := by omega
    obtain ⟨d'', hnext, hd''⟩ := next_inUnit io hend hshort hgame
    exact ⟨d'', hnext, iff_of_true (hd''.game.stands_iff.mp hd''.stands) hgame⟩
  · obtain ⟨d'', hnext, hd''⟩ := next_overruns hlaws hmode' hend hon' hsized hop hgame
    exact ⟨d'', hnext, iff_of_false hd'' hgame⟩

end Transfers

/-! ## 6. Beyond the end of a small game -/

/-- `smallApa`, with a `HIOCTRANSFER` that fails out of range. -/
def strictApa (geo : CStr → Partition) : IomanX ApaView
  | .hioctransfer fd arg, v =>
    match v.on fd with
    | some dev =>
      if arg.sub ≤ (geo dev).nsub ∧ arg.sector + arg.size ≤ ((geo dev).slice arg.sub).size then
        smallApa geo (.hioctransfer fd arg) v
      else ({ ret := -22 }, v)
    | none => ({ ret := -9 }, v)
  | c, v => smallApa geo c v

theorem strictApa_laws {geo : CStr → Partition}
    (hstart : ∀ dev i, ((geo dev).slice i).start < 4294967296) :
    HeaderLaws (strictApa geo) geo id ∧ TransferLaws (strictApa geo) geo id := by
  obtain ⟨devctl, getstat, opened, closed, lseek, read, write, hiocnsub, hiocgetpartstart,
    hiocgetsize⟩ := (smallApa_laws hstart).toHeaderLaws
  refine ⟨⟨devctl, getstat, opened, closed, lseek, read, write, hiocnsub, hiocgetpartstart,
    hiocgetsize⟩, ⟨fun fd arg w => ?_, fun fd dev arg w hon => ?_⟩⟩
  · simp only [strictApa, id_eq]
    split
    · rename_i dev hon
      split
      · simp only [smallApa, hon]
      · rfl
    · rfl
  · have hon' : w.on fd = some dev := hon
    simp only [strictApa, hon']
    split
    · rename_i hin
      simp [smallApa, hon', hin]
    · rename_i hout
      exact iff_of_false (fun h => absurd h (by decide : ¬ (0 : ℤ) ≤ -22)) hout

/-- Every partition has the two slices. -/
def twoSliceStrict : IomanX ApaView := strictApa fun _ => twoSlices

/-- Partition A is mounted as unit 0. -/
def strictlyMounted : Driver ApaView :=
  (hdlfsMount twoSliceStrict { mode := 3 } (ascii ['A']) 0 { world := formatted }).2

/-- The last of the three sectors is read in two halves. -/
def toTheEnd : List Op :=
  [.lseek 2, .read (List.replicate 1024 0), .read (List.replicate 1024 0)]

/-- One sector of 512 bytes more. -/
def oneMore : Op := .read (List.replicate 512 0)

theorem twoSliceStrict_laws :
    HeaderLaws twoSliceStrict (fun _ => twoSlices) id ∧
      TransferLaws twoSliceStrict (fun _ => twoSlices) id := by
  refine strictApa_laws fun _ i => ?_
  simp only [twoSlices]
  split <;> decide

set_option maxRecDepth 8000 in
theorem positioned_of_run_to_end : ∃ d' d'',
    run (Op.next twoSliceStrict 70 (hdlfsOpen { mode := 3 } strictlyMounted).2) toTheEnd
        strictlyMounted = some d' ∧ (d'.fdList 0).Positioned ∧
      oneMore.next twoSliceStrict 70 (hdlfsOpen { mode := 3 } strictlyMounted).2 d' = some d'' ∧
      ¬ (d''.fdList 0).Positioned := by
  obtain ⟨hheader, htransfer⟩ := twoSliceStrict_laws
  have hformat : hdlfsFormat twoSliceStrict { numSectors := 3 } (ascii ['A']) blank =
      (0, formatted) := Prod.ext (by decide) rfl
  have hmount : hdlfsMount twoSliceStrict { mode := 3 } (ascii ['A']) 0 { world := formatted } =
      (0, strictlyMounted) := Prod.ext (by decide) rfl
  have hfuel : ∀ op ∈ toTheEnd, op.size / 512 < 70 := by
    simp [toTheEnd, Op.size, -List.reduceReplicate]
  have hin : Along (Op.next twoSliceStrict 70 (hdlfsOpen { mode := 3 } strictlyMounted).2)
      (Op.InGame 3 0) toTheEnd strictlyMounted := by
    refine ⟨trivial, fun t ht => ⟨?_, fun u hu => ⟨?_, fun _ _ => trivial⟩⟩⟩
    · obtain rfl := Option.some.inj ht
      simp only [Op.InGame, List.length_replicate]
      decide
    · obtain rfl := Option.some.inj ht
      obtain rfl := Option.some.inj hu
      simp only [Op.InGame, List.length_replicate]
      decide
  obtain ⟨d', hrun, hpos, hnext⟩ := positioned_of_run hheader (by decide) hformat hmount
    (by decide) (by decide) hfuel hin
  obtain ⟨d'', hstep, hiff⟩ := hnext oneMore htransfer
    (by simp [Op.Sized, oneMore, Op.size, -List.reduceReplicate])
    (by simp [oneMore, Op.size, -List.reduceReplicate])
  refine ⟨d', d'', hrun, hpos, hstep, fun hp => ?_⟩
  have hend := hiff.mp hp
  obtain rfl := Option.some.inj hrun
  simp only [Op.InGame, oneMore, List.length_replicate] at hend
  exact absurd hend (by decide)

set_option maxRecDepth 8000 in
/-- **The position is lost at the end of the game.**  After the last sector one more is read,
and `CurrentPartNum` is the number of the partitions. -/
theorem position_lost :
    hdlfsFormat twoSliceStrict { numSectors := 3 } (ascii ['A']) blank = (0, formatted) ∧
    hdlfsMount twoSliceStrict { mode := 3 } (ascii ['A']) 0 { world := formatted } =
      (0, strictlyMounted) ∧
    TransferLaws twoSliceStrict (fun _ => twoSlices) id ∧
    ∃ d', run (Op.next twoSliceStrict 70 (hdlfsOpen { mode := 3 } strictlyMounted).2)
        (toTheEnd ++ [oneMore]) strictlyMounted = some d' ∧
      (d'.fdList 0).currentPartNum = 2 ∧ (d'.fdList 0).numPartitions = 2 ∧
      ¬ (d'.fdList 0).Positioned :=
  ⟨Prod.ext (by decide) rfl, Prod.ext (by decide) rfl, twoSliceStrict_laws.2, _, rfl, rfl, rfl,
    fun h => absurd h.part (by decide)⟩

end PfsShell.Hdlfs
