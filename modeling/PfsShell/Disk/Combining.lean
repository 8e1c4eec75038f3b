/-
# Write combining

`DiskAccess` of `src/pfslib_compat.c`, as it is when `WIP_WIP_FIXME` is defined.  A write that ends
on an even sector holds its last sector back; the next access merges it into a write of the sector
behind, or flushes it first.

A device is an array of bytes, and no system call fails, so that every function returns 0 and the
results here are buffers and devices.  There is no result when a buffer is left, or a value of
type `int`.

* `Combiner.contents`: what the devices hold once the pending sector is written;
* `diskAccess_follows`: an access acts on the contents as it would on the devices;
* `combining_transparent`: the same for runs;
* `diskAccess_strays`, `held_flushed`: a sector that is held back is taken from behind those that
  are written, and so from behind a buffer that ends with them;
* `diskAccess_wraps`: a place from 2^23 sectors on is taken modulo 2^23.
-/
import PfsShell.Lib.Run
import PfsShell.Lib.Bytes
import PfsShell.Lib.Tiling

namespace PfsShell.Disk

open PfsShell.Lib

/-! ## 1. The functions -/

/-- What the devices hold. -/
abbrev Disks := ℕ → ℕ → UInt8

/-- `rawDiskAccess`: what is in the buffer afterwards, and the devices.  `lba << 9` has the 32 bits
of `lba`. -/
def rawDiskAccess (device : ℕ) (buf : List UInt8) (lba nsectors : ℕ) (dir : ℤ) (disks : Disks) :
    Option (List UInt8 × Disks) :=
  let size := 512 * nsectors
  if 2 ^ 31 ≤ size ∨ buf.length < size then none
  else
    let r := access (dir != 0) (disks device) (u32 (512 * lba : ℕ)) (buf.take size)
    some (r.1 ++ buf.drop size, Function.update disks device r.2)

/-- The variables `Buf1024`, `Buf1024dev`, `Buf1024lba` and `fDirty1024`, and the devices. -/
structure Combiner where
  buf1024 : List UInt8 := List.replicate 512 0
  buf1024dev : ℕ := 0
  buf1024lba : ℤ := 0
  fDirty1024 : Bool := false
  disks : Disks

/-- `Flush1024Buffer`. -/
def flush1024Buffer (s : Combiner) : Option Combiner :=
  if s.fDirty1024 then
    (rawDiskAccess s.buf1024dev s.buf1024 (u32 s.buf1024lba) 1 1 s.disks).map fun r =>
      { s with fDirty1024 := false, disks := r.2 }
  else some s

/-- `DiskAccess` after `if (fDirty1024 == 1)`. -/
def accessRest (device : ℕ) (bufTmp : List UInt8) (lbaTmp : ℤ) (nsectorsTmp : ℕ) (dir : ℤ)
    (s : Combiner) : Option (List UInt8 × Combiner) :=
  if dir = 1 ∧ 2 ^ 31 ≤ lbaTmp + nsectorsTmp then none
  else if dir ≠ 1 ∨ (lbaTmp + nsectorsTmp - 1) % 2 = 1 then
    (rawDiskAccess device bufTmp (u32 lbaTmp) nsectorsTmp dir s.disks).map fun r =>
      (r.1, { s with disks := r.2 })
  else if 2 ^ 31 ≤ 512 * nsectorsTmp ∨ bufTmp.length < 512 * nsectorsTmp + 512 then none
  else
    -- the sector that is copied is the one behind those that are written
    let s :=
      { s with
        buf1024lba := lbaTmp + nsectorsTmp - 1
        buf1024dev := device
        buf1024 := (bufTmp.drop (512 * nsectorsTmp)).take 512
        fDirty1024 := true }
    if nsectorsTmp - 1 = 0 then some (bufTmp, s)
    else
      (rawDiskAccess device bufTmp (u32 lbaTmp) (nsectorsTmp - 1) dir s.disks).map fun r =>
        (r.1, { s with disks := r.2 })

/-- The access begins behind the pending sector. -/
def Combiner.Merges (s : Combiner) (device lba : ℕ) (dir : ℤ) : Prop :=
  s.fDirty1024 = true ∧ dir ≠ 0 ∧ device = s.buf1024dev ∧ u32 (s.buf1024lba + 1) = lba

instance (s : Combiner) (device lba : ℕ) (dir : ℤ) : Decidable (s.Merges device lba dir) :=
  inferInstanceAs (Decidable (_ ∧ _ ∧ _ ∧ _))

/-- `DiskAccess`.  What is in the caller's buffer afterwards, and the state. -/
def diskAccess (device : ℕ) (buf : List UInt8) (lba nsectors : ℕ) (dir : ℤ) (s : Combiner) :
    Option (List UInt8 × Combiner) :=
  if s.Merges device lba dir then
    if buf.length < 512 ∨ 2 ^ 31 ≤ s.buf1024lba + 2 then none
    else
      (rawDiskAccess device (s.buf1024 ++ buf.take 512) (u32 s.buf1024lba) 2 1 s.disks).bind
        fun r =>
          let s := { s with fDirty1024 := false, disks := r.2 }
          if nsectors - 1 = 0 then some (buf, s)
          else
            (accessRest device (buf.drop 512) (s.buf1024lba + 2) (nsectors - 1) dir s).map
              fun r => (buf.take 512 ++ r.1, r.2)
  else (flush1024Buffer s).bind (accessRest device buf ((lba : ℤ).bmod (2 ^ 32)) nsectors dir)

/-- `DiskSync`. -/
def diskSync (_device : ℕ) (s : Combiner) : Option Combiner := flush1024Buffer s

/-! ## 2. Direct accesses -/

/-- The devices after sectors from `lba` on are written. -/
def written (device lba : ℕ) (data : List UInt8) (disks : Disks) : Disks :=
  Function.update disks device (overlay (disks device) (512 * lba) data)

/-- An access at byte `512 * lba` of the device. -/
def directAccess (device : ℕ) (buf : List UInt8) (lba nsectors : ℕ) (dir : ℤ) (disks : Disks) :
    List UInt8 × Disks :=
  let r := access (dir != 0) (disks device) (512 * lba) (buf.take (512 * nsectors))
  (r.1 ++ buf.drop (512 * nsectors), Function.update disks device r.2)

section Direct

variable {device lba n : ℕ} {buf : List UInt8} {dir : ℤ} {disks : Disks}

theorem directAccess_write (h : dir ≠ 0) : directAccess device buf lba n dir disks =
    (buf, written device lba (buf.take (512 * n)) disks) := by
  have hwrite : (dir != 0) = true := by simpa using h
  unfold directAccess written access
  simp only [hwrite, if_true, List.take_append_drop]

/-- The first byte that is written. -/
theorem written_first {data : List UInt8} (h : 0 < data.length) :
    written device 0 data disks device 0 = data[0] := by
  unfold written
  rw [Function.update_self]
  exact overlay_of_mem (Nat.le_refl 0) h

/-- Writing two runs of sectors, one behind the other. -/
theorem written_append {xs : List UInt8} {m : ℕ} (h : xs.length = 512 * m) (ys : List UInt8) :
    written device lba (xs ++ ys) disks =
      written device (lba + m) ys (written device lba xs disks) := by
  unfold written
  rw [overlay_append, Function.update_self, Function.update_idem, h, Nat.mul_add]

/-- `rawDiskAccess` of less than 2^22 sectors is a direct access, of sector `lba` modulo 2^23. -/
theorem rawDiskAccess_mod (hn : n < 2 ^ 22) (hbuf : 512 * n ≤ buf.length) :
    rawDiskAccess device buf lba n dir disks =
      some (directAccess device buf (lba % 2 ^ 23) n dir disks) := by
  have hplace : u32 (512 * lba : ℕ) = 512 * (lba % 2 ^ 23) := by
    unfold u32
    omega
  unfold rawDiskAccess directAccess
  simp only [hplace]
  rw [if_neg (by omega)]

theorem rawDiskAccess_eq (hlba : lba < 2 ^ 23) (hn : n < 2 ^ 22) (hbuf : 512 * n ≤ buf.length) :
    rawDiskAccess device buf lba n dir disks =
      some (directAccess device buf lba n dir disks) := by
  rw [rawDiskAccess_mod hn hbuf, Nat.mod_eq_of_lt hlba]

end Direct

/-! ## 3. What the devices hold once the pending sector is written -/

/-- The devices, with the pending sector written. -/
def Combiner.contents (s : Combiner) : Disks :=
  if s.fDirty1024 then written s.buf1024dev s.buf1024lba.toNat s.buf1024 s.disks else s.disks

/-- What is pending is one sector, and its byte on the device has a number of 32 bits. -/
structure Combiner.Ok (s : Combiner) : Prop where
  sector : s.fDirty1024 = true → s.buf1024.length = 512
  place : s.fDirty1024 = true → 0 ≤ s.buf1024lba ∧ s.buf1024lba < 2 ^ 23

/-- `s` has acted like the direct access with the result `r`: the buffer is that one, and so are
the contents. -/
def Follows (r : List UInt8 × Disks) (t : List UInt8 × Combiner) : Prop :=
  t.1 = r.1 ∧ t.2.Ok ∧ t.2.contents = r.2

/-- The caller's buffer goes on for another sector, which is the last of the `n` once more. -/
def RepeatsLast (buf : List UInt8) (n : ℕ) : Prop :=
  512 * n + 512 ≤ buf.length ∧
    (buf.drop (512 * n)).take 512 = (buf.drop (512 * (n - 1))).take 512

instance (buf : List UInt8) (n : ℕ) : Decidable (RepeatsLast buf n) :=
  inferInstanceAs (Decidable (_ ∧ _))

section Steps

variable {s : Combiner} {device lba n : ℕ} {buf : List UInt8} {dir : ℤ}

theorem Combiner.contents_clean (h : s.fDirty1024 = false) : s.contents = s.disks := by
  rw [Combiner.contents, if_neg (by rw [h]; exact Bool.false_ne_true)]

theorem Combiner.ok_clean (h : s.fDirty1024 = false) : s.Ok where
  sector hdirty := absurd (h.symm.trans hdirty) Bool.false_ne_true
  place hdirty := absurd (h.symm.trans hdirty) Bool.false_ne_true

/-- **A flush** writes the pending sector to its place. -/
theorem flush1024Buffer_spec (hok : s.Ok) :
    ∃ s', flush1024Buffer s = some s' ∧ s'.fDirty1024 = false ∧ s'.disks = s.contents := by
  unfold flush1024Buffer Combiner.contents
  split
  · rename_i hdirty
    have hsector := hok.sector hdirty
    obtain ⟨hlow, hhigh⟩ := hok.place hdirty
    have hlba : u32 s.buf1024lba = s.buf1024lba.toNat := by
      unfold u32
      omega
    rw [hlba, rawDiskAccess_eq (by omega) (by decide) (by omega), directAccess_write (by decide),
      List.take_of_length_le (by omega)]
    exact ⟨_, rfl, rfl, rfl⟩
  · rename_i hclean
    exact ⟨s, rfl, by simpa using hclean, rfl⟩

/-- Two of the sectors are the first ones and then the last one. -/
theorem written_last (hn : 1 ≤ n) (hbuf : 512 * n ≤ buf.length) (disks : Disks) :
    written device lba (buf.take (512 * n)) disks =
      written device (lba + n - 1) ((buf.drop (512 * (n - 1))).take 512)
        (written device lba (buf.take (512 * (n - 1))) disks) := by
  have hsplit : buf.take (512 * n) =
      buf.take (512 * (n - 1)) ++ (buf.drop (512 * (n - 1))).take 512 := by
    rw [← List.take_add]
    congr 1
    omega
  rw [hsplit, written_append (m := n - 1) (by rw [List.length_take]; omega)]
  congr 1
  omega

/-- **Behind the pending sector**: an access of a state that has none. -/
theorem accessRest_spec (hclean : s.fDirty1024 = false) (hn : 1 ≤ n) (hlba : lba < 2 ^ 23)
    (hsize : n < 2 ^ 22) (hbuf : 512 * n ≤ buf.length)
    (hheld : dir = 1 → (lba + n) % 2 = 1 → lba + n ≤ 2 ^ 23 ∧ RepeatsLast buf n) :
    ∃ t, accessRest device buf lba n dir s = some t ∧
      Follows (directAccess device buf lba n dir s.disks) t := by
  unfold accessRest
  rw [if_neg (by omega), show u32 (lba : ℤ) = lba by unfold u32; omega]
  split
  · rw [rawDiskAccess_eq hlba hsize hbuf]
    exact ⟨_, rfl, rfl, Combiner.ok_clean hclean, Combiner.contents_clean hclean⟩
  · rename_i hodd
    obtain ⟨hdir, heven⟩ := not_or.mp hodd
    obtain rfl := not_not.mp hdir
    obtain ⟨hend, hlong, hrepeat⟩ := hheld rfl (by omega)
    have hlast : ((lba : ℤ) + n - 1).toNat = lba + n - 1 := by omega
    have hsector : ((buf.drop (512 * n)).take 512).length = 512 := by
      rw [List.length_take, List.length_drop]
      omega
    have hplace : 0 ≤ (lba : ℤ) + n - 1 ∧ (lba : ℤ) + n - 1 < 2 ^ 23 := by omega
    rw [if_neg (by omega), directAccess_write (by decide), written_last hn hbuf]
    split
    · rename_i hone
      refine ⟨_, rfl, rfl, ⟨fun _ => hsector, fun _ => hplace⟩, ?_⟩
      show written device ((lba : ℤ) + n - 1).toNat ((buf.drop (512 * n)).take 512) s.disks = _
      have hnone : written device lba [] s.disks = s.disks := by
        unfold written
        rw [overlay_nil, Function.update_eq_self]
      rw [hlast, hrepeat, hone, Nat.mul_zero, List.take_zero, hnone]
    · have hraw : rawDiskAccess device buf lba (n - 1) 1 s.disks =
          some (buf, written device lba (buf.take (512 * (n - 1))) s.disks) := by
        rw [rawDiskAccess_eq hlba (by omega) (by omega), directAccess_write (by decide)]
      simp only [hraw, Option.map_some]
      refine ⟨_, rfl, rfl, ⟨fun _ => hsector, fun _ => hplace⟩, ?_⟩
      show written device ((lba : ℤ) + n - 1).toNat ((buf.drop (512 * n)).take 512) _ = _
      rw [hlast, hrepeat]

/-- The condition of one access.  It lies in front of sector 2^23 and has less than 2^22 sectors,
not counted the one that is merged; and a sector that is held back stands twice in the buffer. -/
structure Combiner.Fits (s : Combiner) (device : ℕ) (buf : List UInt8) (lba n : ℕ) (dir : ℤ) :
    Prop where
  place : lba < 2 ^ 23
  size : ¬ s.Merges device lba dir → n < 2 ^ 22
  merged : s.Merges device lba dir → n ≤ 2 ^ 22 ∧ (1 < n → lba + 1 < 2 ^ 23)
  held : dir = 1 → (lba + n) % 2 = 1 → lba + n ≤ 2 ^ 23 ∧ RepeatsLast buf n

/-- What is pending and the first new sector are written as two sectors. -/
theorem merge_eq (hok : s.Ok) (hm : s.Merges device lba dir) (hbuf : 512 ≤ buf.length) :
    (lba : ℤ) = s.buf1024lba + 1 ∧
      ∃ xs, rawDiskAccess device (s.buf1024 ++ buf.take 512) (u32 s.buf1024lba) 2 1 s.disks =
        some (xs, written device lba (buf.take 512) s.contents) := by
  obtain ⟨hdirty, -, hdev, hlba⟩ := hm
  have hsector := hok.sector hdirty
  obtain ⟨hlow, hhigh⟩ := hok.place hdirty
  have hbehind : (lba : ℤ) = s.buf1024lba + 1 := by
    rw [← hlba]
    unfold u32
    omega
  have hplace : u32 s.buf1024lba = s.buf1024lba.toNat := by
    unfold u32
    omega
  have hnext : s.buf1024lba.toNat + 1 = lba := by omega
  have hlen : (s.buf1024 ++ buf.take 512).length = 1024 := by
    rw [List.length_append, List.length_take]
    omega
  have hall : (s.buf1024 ++ buf.take 512).take (512 * 2) = s.buf1024 ++ buf.take 512 :=
    List.take_of_length_le (by omega)
  refine ⟨hbehind, s.buf1024 ++ buf.take 512, ?_⟩
  rw [hplace, rawDiskAccess_eq (by omega) (by decide) (by omega), directAccess_write (by decide),
    hall, written_append (m := 1) hsector, hnext, Combiner.contents, if_pos hdirty, hdev]

/-- **An access follows the direct one.** -/
theorem diskAccess_follows (hok : s.Ok) (hn : 1 ≤ n) (hbuf : 512 * n ≤ buf.length)
    (hfits : s.Fits device buf lba n dir) :
    ∃ t, diskAccess device buf lba n dir s = some t ∧
      Follows (directAccess device buf lba n dir s.contents) t := by
  have hplace := hfits.place
  unfold diskAccess
  by_cases hm : s.Merges device lba dir
  · obtain ⟨hbehind, xs, hmerge⟩ := merge_eq hok hm (show 512 ≤ buf.length by omega)
    obtain ⟨hsize, hmore⟩ := hfits.merged hm
    have hdir := hm.2.1
    rw [if_pos hm, if_neg (by omega), hmerge, directAccess_write hdir]
    simp only [Option.bind_some]
    split
    · rename_i hone
      have hn1 : n = 1 := by omega
      refine ⟨_, rfl, rfl, Combiner.ok_clean rfl, ?_⟩
      rw [Combiner.contents_clean rfl, hn1]
    · rename_i hmany
      -- the rest begins one sector further on
      have hrest : s.buf1024lba + 2 = ((lba + 1 : ℕ) : ℤ) := by omega
      have hheld : dir = 1 → (lba + 1 + (n - 1)) % 2 = 1 →
          lba + 1 + (n - 1) ≤ 2 ^ 23 ∧ RepeatsLast (buf.drop 512) (n - 1) := by
        intro hone heven
        obtain ⟨hend, hlong, hrepeat⟩ := hfits.held hone (by omega)
        refine ⟨by omega, by rw [List.length_drop]; omega, ?_⟩
        rw [List.drop_drop, List.drop_drop, show 512 + 512 * (n - 1) = 512 * n by omega,
          show 512 + 512 * (n - 1 - 1) = 512 * (n - 1) by omega]
        exact hrepeat
      obtain ⟨t, ht, hout, hok', hcontents⟩ : ∃ t, accessRest device (buf.drop 512)
          ((lba + 1 : ℕ) : ℤ) (n - 1) dir
          { s with fDirty1024 := false, disks := written device lba (buf.take 512) s.contents } =
            some t ∧
          Follows (directAccess device (buf.drop 512) (lba + 1) (n - 1) dir
            (written device lba (buf.take 512) s.contents)) t :=
        accessRest_spec rfl (by omega) (hmore (by omega)) (by omega)
          (by rw [List.length_drop]; omega) hheld
      rw [directAccess_write hdir] at hout hcontents
      have hsplit : buf.take (512 * n) = buf.take 512 ++ (buf.drop 512).take (512 * (n - 1)) := by
        rw [← List.take_add]
        congr 1
        omega
      rw [hrest, ht]
      refine ⟨_, rfl, ?_, hok', ?_⟩
      · simp only [hout, List.take_append_drop]
      · show t.2.contents = _
        rw [hcontents, hsplit, written_append (m := 1) (by rw [List.length_take]; omega)]
  · have hsize := hfits.size hm
    obtain ⟨s', hflush, hclean, hdisks⟩ := flush1024Buffer_spec hok
    have hint : (lba : ℤ).bmod (2 ^ 32) = lba := by
      rw [Int.bmod_eq_of_le (by omega) (by omega)]
    rw [if_neg hm, hflush, hint, ← hdisks]
    exact accessRest_spec hclean hn hplace hsize hbuf hfits.held

end Steps

/-! ## 4. Runs -/

/-- A call. -/
inductive DiskOp
  | access (device : ℕ) (buf : List UInt8) (lba nsectors : ℕ) (dir : ℤ)
  | sync (device : ℕ)

/-- The call, with what is in the caller's buffer afterwards. -/
def DiskOp.exec : DiskOp → Combiner → Option (List UInt8 × Combiner)
  | .access device buf lba nsectors dir, s => diskAccess device buf lba nsectors dir s
  | .sync device, s => (diskSync device s).map fun s => ([], s)

/-- The call, made directly. -/
def DiskOp.direct : DiskOp → Disks → Option (List UInt8 × Disks)
  | .access device buf lba nsectors dir, d => some (directAccess device buf lba nsectors dir d)
  | .sync _, d => some ([], d)

/-- There is a sector, and the caller's buffer has room for all of them. -/
def DiskOp.Typed : DiskOp → Prop
  | .access _ buf lba nsectors _ =>
    lba < 2 ^ 32 ∧ 1 ≤ nsectors ∧ nsectors < 2 ^ 31 ∧ 512 * nsectors ≤ buf.length
  | .sync _ => True

/-- The condition of one call. -/
def DiskOp.Fits : DiskOp → Combiner → Prop
  | .access device buf lba nsectors dir, s => s.Fits device buf lba nsectors dir
  | .sync _, _ => True

/-- The devices of the direct calls are the contents. -/
def Combiner.StandsFor (s : Combiner) (d : Disks) : Prop := s.Ok ∧ s.contents = d

/-- **One call.** -/
theorem exec_follows {op : DiskOp} (htyped : op.Typed) {s : Combiner} {d d' : Disks}
    {out : List UInt8} (hs : s.StandsFor d) (hfits : op.Fits s) (h : op.direct d = some (out, d')) :
    ∃ s', op.exec s = some (out, s') ∧ s'.StandsFor d' := by
  obtain ⟨hok, rfl⟩ := hs
  cases op with
  | access device buf lba nsectors dir =>
    obtain ⟨-, hn, -, hbuf⟩ := htyped
    obtain ⟨t, ht, hout, hok', hcontents⟩ := diskAccess_follows hok hn hbuf hfits
    have hdirect := Option.some.inj h
    rw [hdirect] at hout hcontents
    exact ⟨t.2, ht.trans (congrArg some (Prod.ext hout rfl)), hok', hcontents⟩
  | sync device =>
    obtain ⟨rfl, rfl⟩ := Prod.mk.inj (Option.some.inj h)
    obtain ⟨s', hflush, hclean, hdisks⟩ := flush1024Buffer_spec hok
    refine ⟨s', ?_, Combiner.ok_clean hclean, (Combiner.contents_clean hclean).trans hdisks⟩
    rw [DiskOp.exec, diskSync, hflush]
    rfl

/-- The direct calls always have a result. -/
theorem direct_trace (ops : List DiskOp) (d : Disks) :
    ∃ outs d', trace DiskOp.direct ops d = some (outs, d') := by
  induction ops generalizing d with
  | nil => exact ⟨[], d, rfl⟩
  | cons op ops ih =>
    obtain ⟨out, t, hop⟩ : ∃ out t, op.direct d = some (out, t) := by
      cases op with
      | access device buf lba nsectors dir => exact ⟨_, _, rfl⟩
      | sync device => exact ⟨[], d, rfl⟩
    obtain ⟨outs, d', hrest⟩ := ih t
    exact ⟨out :: outs, d', trace_cons.mpr ⟨out, t, outs, hop, hrest, rfl⟩⟩

/-- **Write combining is transparent** in a run whose calls all meet the condition: every buffer is
as after the direct calls, no buffer is left, and a flush at the end makes the devices theirs. -/
theorem combining_transparent {ops : List DiskOp} {disks : Disks} (htyped : ∀ op ∈ ops, op.Typed)
    (hfits : Along (fun op s => (DiskOp.exec op s).map Prod.snd) DiskOp.Fits ops
      { disks := disks }) :
    ∃ outs s s', trace DiskOp.exec ops { disks := disks } = some (outs, s) ∧
      flush1024Buffer s = some s' ∧ trace DiskOp.direct ops disks = some (outs, s'.disks) := by
  obtain ⟨outs, d', hdirect⟩ := direct_trace ops disks
  have hstart : Combiner.StandsFor { disks := disks } disks :=
    ⟨Combiner.ok_clean rfl, Combiner.contents_clean rfl⟩
  obtain ⟨s, hs, hok, hcontents⟩ := trace_simulates_along
    (fun op hop _ _ _ _ hR hC h => exec_follows (htyped op hop) hR hC h) hstart hfits hdirect
  obtain ⟨s', hflush, -, hdisks⟩ := flush1024Buffer_spec hok
  refine ⟨outs, s, s', hs, hflush, ?_⟩
  rw [hdirect, hdisks, hcontents]

/-! ## 5. A sector that is held back -/

section Held

variable {s : Combiner} {device lba n : ℕ} {buf : List UInt8}

/-- Two values that the conversion to `int` maps to each other are both even or both odd. -/
theorem odd_bmod (h : (lba + n) % 2 = 1) : ((lba : ℤ).bmod (2 ^ 32) + n) % 2 = 1 := by
  obtain ⟨k, hk⟩ : ((2 ^ 32 : ℕ) : ℤ) ∣ (lba : ℤ).bmod (2 ^ 32) - lba := Int.dvd_bmod_sub_self
  have hpow : ((2 ^ 32 : ℕ) : ℤ) = 4294967296 := by decide
  rw [hpow] at hk
  omega

/-- With nothing pending, an access is only what is behind the pending sector. -/
theorem diskAccess_clean {dir : ℤ} (hclean : s.fDirty1024 = false) (hlba : lba < 2 ^ 31) :
    diskAccess device buf lba n dir s = accessRest device buf lba n dir s := by
  have hm : ¬ s.Merges device lba dir := fun hm => Bool.false_ne_true (hclean.symm.trans hm.1)
  have hint : (lba : ℤ).bmod (2 ^ 32) = lba := Int.bmod_eq_of_le (by omega) (by omega)
  unfold diskAccess flush1024Buffer
  rw [if_neg hm, if_neg (by rw [hclean]; exact Bool.false_ne_true), hint, Option.bind_some]

/-- One sector that is held back, with another one behind it in the buffer. -/
theorem diskAccess_held (hclean : s.fDirty1024 = false) (hlba : lba < 2 ^ 31 - 1)
    (heven : lba % 2 = 0) (hbuf : 1024 ≤ buf.length) :
    diskAccess device buf lba 1 1 s = some (buf,
      { s with
        buf1024lba := lba
        buf1024dev := device
        buf1024 := (buf.drop 512).take 512
        fDirty1024 := true }) := by
  rw [diskAccess_clean hclean (by omega), accessRest, if_neg (by omega), if_neg (by omega),
    if_neg (by omega)]
  have hlast : (lba : ℤ) + (1 : ℕ) - 1 = lba := by omega
  rw [hlast]
  rfl

/-- **What lies behind the sector is written in its place.** -/
theorem held_flushed (hclean : s.fDirty1024 = false) (hlba : lba < 2 ^ 23) (heven : lba % 2 = 0)
    (hbuf : 1024 ≤ buf.length) :
    ∃ t s', diskAccess device buf lba 1 1 s = some (buf, t) ∧ flush1024Buffer t = some s' ∧
      s'.disks = written device lba ((buf.drop 512).take 512) s.disks := by
  have hok : Combiner.Ok
      { s with
        buf1024lba := lba
        buf1024dev := device
        buf1024 := (buf.drop 512).take 512
        fDirty1024 := true } := by
    refine ⟨fun _ => ?_, fun _ => ⟨Int.natCast_nonneg lba, by simp only; omega⟩⟩
    rw [List.length_take, List.length_drop]
    omega
  obtain ⟨s', hflush, -, hdisks⟩ := flush1024Buffer_spec hok
  exact ⟨_, s', diskAccess_held hclean (by omega) heven hbuf, hflush, hdisks⟩

/-- **A place from 2^23 sectors on** is taken modulo 2^23. -/
theorem diskAccess_wraps (hclean : s.fDirty1024 = false) (hlba : lba + n < 2 ^ 31)
    (hodd : (lba + n) % 2 = 0) (hn : n < 2 ^ 22) (hbuf : 512 * n ≤ buf.length) :
    diskAccess device buf lba n 1 s = some (buf,
      { s with disks := written device (lba % 2 ^ 23) (buf.take (512 * n)) s.disks }) := by
  have hplace : u32 (lba : ℤ) = lba := by
    unfold u32
    omega
  rw [diskAccess_clean hclean (by omega), accessRest, if_neg (by omega), if_pos (by omega), hplace,
    rawDiskAccess_mod hn hbuf, directAccess_write (by decide)]
  rfl

/-- With no room behind the sectors, the copy of the one held back leaves the buffer. -/
theorem accessRest_strays {lbaTmp : ℤ} (hbuf : buf.length = 512 * n)
    (heven : (lbaTmp + n) % 2 = 1) : accessRest device buf lbaTmp n 1 s = none := by
  unfold accessRest
  split
  · rfl
  · rw [if_neg (by omega), if_pos (by omega)]

/-- **Every write that ends on an even sector** reads behind the caller's buffer, when the buffer
has the sectors that are written and no more, unless it is one sector that is merged. -/
theorem diskAccess_strays (hbuf : buf.length = 512 * n) (heven : (lba + n) % 2 = 1)
    (hmany : s.Merges device lba 1 → n ≠ 1) (hn : 1 ≤ n) :
    diskAccess device buf lba n 1 s = none := by
  unfold diskAccess
  split
  · rename_i hm
    have hlba := hm.2.2.2
    have hparity : (s.buf1024lba + 2 + (n - 1 : ℕ)) % 2 = 1 := by
      unfold u32 at hlba
      omega
    split
    · rfl
    · cases rawDiskAccess device (s.buf1024 ++ buf.take 512) (u32 s.buf1024lba) 2 1 s.disks with
      | none => rfl
      | some r =>
        have hrest : (buf.drop 512).length = 512 * (n - 1) := by
          rw [List.length_drop]
          omega
        have hne := hmany hm
        simp only [Option.bind_some]
        rw [if_neg (by omega), accessRest_strays hrest hparity]
        rfl
  · cases flush1024Buffer s with
    | none => rfl
    | some t =>
      rw [Option.bind_some]
      exact accessRest_strays hbuf (odd_bmod heven)

end Held

/-- A sector is held back, the next one is merged with it, and both are read. -/
def heldAndMerged : List DiskOp :=
  [.access 0 (List.replicate 1024 5) 0 1 1, .access 0 (List.replicate 512 7) 1 1 1,
    .access 0 (List.replicate 1024 0) 0 2 0]

theorem repeatsLast_replicate (b : UInt8) : RepeatsLast (List.replicate 1024 b) 1 := by
  refine ⟨by rw [List.length_replicate], ?_⟩
  simp only [List.drop_replicate, List.take_replicate, Nat.mul_one, Nat.sub_self, Nat.mul_zero,
    Nat.sub_zero]
  rfl

theorem combining_transparent_merged : ∃ outs s s',
    trace DiskOp.exec heldAndMerged { disks := fun _ _ => 0 } = some (outs, s) ∧
      flush1024Buffer s = some s' ∧
      trace DiskOp.direct heldAndMerged (fun _ _ => 0) = some (outs, s'.disks) := by
  refine combining_transparent ?_ ?_
  · simp only [heldAndMerged, List.forall_mem_cons, DiskOp.Typed, List.length_replicate,
      List.not_mem_nil, false_implies, implies_true]
    decide
  · refine ⟨⟨by decide, fun _ => by decide, fun hm => absurd hm.1 Bool.false_ne_true, fun _ _ =>
      ⟨by decide, repeatsLast_replicate 5⟩⟩, fun t ht => ?_⟩
    have hheld : diskAccess 0 (List.replicate 1024 5) 0 1 1 { disks := fun _ _ => 0 } = some _ :=
      diskAccess_held rfl (by decide) (by decide) (List.length_replicate).ge
    obtain rfl := Option.some.inj ((congrArg (Option.map Prod.snd) hheld).symm.trans ht)
    refine ⟨⟨by decide, fun hm => absurd ⟨rfl, by decide, rfl, by decide⟩ hm, fun _ =>
      by decide, fun _ hodd => absurd hodd (by decide)⟩, fun t _ => ?_⟩
    exact ⟨⟨by decide, fun _ => by decide, fun hm => absurd rfl hm.2.1, fun hdir =>
      absurd hdir (by decide)⟩, fun _ _ => trivial⟩

/-- **Three ways to fail.**  A write of sector 0 reads behind the caller's buffer; when the buffer
is longer, what lies behind the sector is written in its place; and a write of sector 2^23 lands on
sector 0. -/
theorem combining_fails :
    DiskOp.Typed (.access 0 (List.replicate 512 1) 0 1 1) ∧
    DiskOp.exec (.access 0 (List.replicate 512 1) 0 1 1) { disks := fun _ _ => 0 } = none ∧
    (∃ out s s', DiskOp.exec (.access 0 (List.replicate 512 1 ++ List.replicate 512 2) 0 1 1)
        { disks := fun _ _ => 0 } = some (out, s) ∧ flush1024Buffer s = some s' ∧
      s'.disks 0 0 = 2) ∧
    ∃ out s s', DiskOp.exec (.access 0 (List.replicate 1024 1) 8388608 2 1)
        { disks := fun _ _ => 0 } = some (out, s) ∧ flush1024Buffer s = some s' ∧
      s'.disks 0 0 = 1 ∧ s'.disks 0 4294967296 = 0 := by
  refine ⟨⟨by decide, by decide, by decide, by rw [List.length_replicate]⟩, ?_, ?_, ?_⟩
  · exact diskAccess_strays List.length_replicate (by decide)
      (fun hm => absurd hm.1 Bool.false_ne_true) (by decide)
  · obtain ⟨t, s', haccess, hflush, hdisks⟩ : ∃ t s', diskAccess 0
        (List.replicate 512 1 ++ List.replicate 512 2) 0 1 1 { disks := fun _ _ => 0 } =
          some (List.replicate 512 1 ++ List.replicate 512 2, t) ∧
        flush1024Buffer t = some s' ∧ s'.disks = written 0 0 _ (fun _ _ => 0) :=
      held_flushed rfl (by decide) (by decide)
        (by rw [List.length_append, List.length_replicate, List.length_replicate])
    refine ⟨_, t, s', haccess, hflush, ?_⟩
    have hbyte : written 0 0 (List.replicate 512 2) (fun _ _ => 0) 0 0 = 2 := by
      rw [written_first (by rw [List.length_replicate]; decide), List.getElem_replicate]
    rw [hdisks, List.drop_left' List.length_replicate, List.take_replicate]
    exact hbyte
  · have hsector : 8388608 % 2 ^ 23 = 0 := rfl
    have hwraps : diskAccess 0 (List.replicate 1024 1) 8388608 2 1 { disks := fun _ _ => 0 } =
        some (List.replicate 1024 1,
          { disks := written 0 0 (List.replicate 1024 1) fun _ _ => 0 }) := by
      have hlen : (List.replicate 1024 (1 : UInt8)).length = 512 * 2 := List.length_replicate
      rw [diskAccess_wraps rfl (by decide) (by decide) (by decide) hlen.ge,
        List.take_of_length_le hlen.le, hsector]
    have hbyte : written 0 0 (List.replicate 1024 1) (fun _ _ => 0) 0 0 = 1 := by
      rw [written_first (by rw [List.length_replicate]; decide), List.getElem_replicate]
    have hplace : written 0 0 (List.replicate 1024 1) (fun _ _ => 0) 0 4294967296 = 0 := by
      unfold written
      rw [Function.update_self, overlay_of_notMem (by rw [List.length_replicate]; decide)]
    refine ⟨_, _, { disks := written 0 0 (List.replicate 1024 1) fun _ _ => 0 }, hwraps, rfl, ?_,
      ?_⟩
    · exact hbyte
    · dsimp only
      exact hplace

end PfsShell.Disk
