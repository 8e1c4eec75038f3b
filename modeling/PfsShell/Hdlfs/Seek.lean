/-
# Seeking

`hdlfs_lseek` looks for the slice of the number it is given, whatever `whence` is; from there it
computes the position.  With SEEK_SET the two are the same.  With SEEK_CUR the slice is that of
the distance, and with SEEK_END the position is counted back from the end of the last slice, not
of the game.

* `hdlfsLseek_agrees_iff`: when a seek leaves the descriptor where it says;
* `lseek_agrees_iff`: the same after any run of seeks and transfers on a unit that has been
  formatted, mounted and opened.
-/
import PfsShell.Hdlfs.Position

namespace PfsShell.Hdlfs

open PfsShell.Lib

/-! ## 1. What a seek is for -/

/-- Sector `t` of the image lies in slice `i`. -/
def HdlfsFileDescriptor.Contains (f : HdlfsFileDescriptor) (i : ℕ) (t : ℤ) : Prop :=
  (f.partSpecs i).partOffset ≤ t ∧
    t < (f.partSpecs i).partOffset + ((f.partSpecs i).partSize / 2048 : ℕ)

/-- The sector that is sought, in a game of `n` sectors.  SEEK_END counts back from its end. -/
def HdlfsFileDescriptor.target (n : ℕ) (f : HdlfsFileDescriptor) (offset : ℤ) : ℕ → ℤ
  | 0 => offset
  | 1 => (f.offset / 4 : ℕ) + offset
  | _ => n - offset

/-- The descriptor stands at sector `t`, in the slice that contains it. -/
structure HdlfsFileDescriptor.At (f : HdlfsFileDescriptor) (t : ℤ) : Prop where
  offset : f.offset = 4 * t
  part : f.currentPartNum < f.numPartitions
  contains : f.Contains f.currentPartNum t
  relative : (f.relativeSectorNumber : ℤ) =
    f.offset - 4 * (f.partSpecs f.currentPartNum).partOffset
  within : f.relativeSectorNumber < (f.partSpecs f.currentPartNum).partSize / 512

section Seek

variable {σ : Type}

/-- **A seek that does what it says.**  A target in the image is returned, and the descriptor
stands there; any other is refused, and nothing changes. -/
def SeekAgrees (n : ℕ) (file : IopFile) (offset : ℤ) (whence : ℕ) (d : Driver σ) : Prop :=
  let t := (d.fdList file.privdata).target n offset whence
  if 0 ≤ t ∧ t < n then
    (hdlfsLseek file offset whence d).1 = t ∧
      ∃ f : HdlfsFileDescriptor, (d.fdList file.privdata).Moved f ∧
        f.size = (d.fdList file.privdata).size ∧ f.At t ∧
        (hdlfsLseek file offset whence d).2 =
          { d with fdList := Function.update d.fdList file.privdata f }
  else hdlfsLseek file offset whence d = (-22, d)

/-- The base the seek counts from is where it should be: a whole sector of the image, and the end
of the game. -/
def HdlfsFileDescriptor.BaseOk (n : ℕ) (f : HdlfsFileDescriptor) : ℕ → Prop
  | 0 => True
  | 1 => 4 ∣ f.offset
  | _ => u32 f.size = 4 * n

/-- **When a seek does.**  The number it is given and the target are both in the image or both
outside, and inside they are in one slice and the base is right. -/
def SeekOk (n : ℕ) (f : HdlfsFileDescriptor) (offset : ℤ) (whence : ℕ) : Prop :=
  (0 ≤ offset ∧ offset < n ↔ 0 ≤ f.target n offset whence ∧ f.target n offset whence < n) ∧
  (0 ≤ offset ∧ offset < n → f.BaseOk n whence ∧
    ∃ i < f.numPartitions, f.Contains i offset ∧ f.Contains i (f.target n offset whence))

/-! ## 2. Slices -/

variable {P : Partition} {n : ℕ} {f : HdlfsFileDescriptor}

/-- Only one slice contains a sector. -/
theorem contains_unique (hg : OnGame P n f) {i j : ℕ} {t : ℤ} (hi : i < f.numPartitions)
    (hj : j < f.numPartitions) (hit : f.Contains i t) (hjt : f.Contains j t) : i = j := by
  have hnum := hg.numPartitions
  have hbefore : ∀ a b, a < b → b < f.numPartitions → f.Contains a t → f.Contains b t → False := by
    intro a b hab hb hat hbt
    have hoffset := (hg.tiled.part a (by omega)).offset
    have hoffset' := (hg.tiled.part b (by omega)).offset
    have hwhole := (hg.tiled.part a (by omega)).whole
    have hmono := Tiling.start_mono (P.tiling f.partSpecs) (Nat.succ_le_of_lt hab)
    rw [Tiling.start_succ, Partition.tiling_len] at hmono
    have hlt := hat.2
    have hle := hbt.1
    omega
  by_contra hne
  rcases Nat.lt_or_gt_of_ne hne with hlt | hlt
  · exact hbefore i j hlt hj hit hjt
  · exact hbefore j i hlt hi hjt hit

/-- The search finds the slice of a sector of the image. -/
theorem contains_partOf (hg : OnGame P n f) {offset : ℤ} (hin : 0 ≤ offset ∧ offset < n) :
    f.partOf offset < f.numPartitions ∧ f.Contains (f.partOf offset) offset := by
  obtain ⟨t, rfl⟩ := Int.eq_ofNat_of_zero_le hin.1
  have htn : t < n := by omega
  obtain ⟨hpart, hle, hlt⟩ := partOf_spec hg.tiled hg.numPartitions htn
  have hwhole := (hg.tiled.part _ hpart).whole
  have hnum := hg.numPartitions
  exact ⟨by omega, by omega, by omega⟩

/-- It finds none for any other number. -/
theorem partOf_found_iff (hg : OnGame P n f) {offset : ℤ}
    (hint : -2 ^ 31 ≤ offset ∧ offset < 2 ^ 31) :
    f.partOf offset < f.numPartitions ↔ 0 ≤ offset ∧ offset < n := by
  constructor
  · intro hfound
    obtain ⟨-, hlt, -, -⟩ := partOf_found hg hfound
    have hn := hg.tiled.lt
    unfold u32 at hlt
    omega
  · intro hin
    exact (contains_partOf hg hin).1

/-! ## 3. One seek -/

/-- The position that is computed is the target exactly when the base is right. -/
theorem seekTo_eq_iff (hg : OnGame P n f) {offset : ℤ} {whence : ℕ} (hw : whence ≤ 2)
    (ht : 0 ≤ f.target n offset whence ∧ f.target n offset whence < n) :
    (f.seekTo offset whence : ℤ) = 4 * f.target n offset whence ↔ f.BaseOk n whence := by
  have hn := hg.tiled.lt
  match whence, hw with
  | 0, _ =>
    refine iff_of_true ?_ trivial
    have ht' : 0 ≤ offset ∧ offset < n := ht
    show (u32 (offset * 4) : ℤ) = 4 * offset
    unfold u32
    omega
  | 1, _ =>
    have ht' : 0 ≤ (f.offset / 4 : ℕ) + offset ∧ (f.offset / 4 : ℕ) + offset < n := ht
    show (u32 (f.offset + offset * 4) : ℤ) = 4 * ((f.offset / 4 : ℕ) + offset) ↔ 4 ∣ f.offset
    unfold u32
    omega
  | 2, _ =>
    have ht' : 0 ≤ (n : ℤ) - offset ∧ (n : ℤ) - offset < n := ht
    show (u32 (f.size - offset * 4) : ℤ) = 4 * (n - offset) ↔ u32 f.size = 4 * n
    unfold u32
    omega

/-- **What a seek that finds a slice does.** -/
theorem hdlfsLseek_found {file : IopFile} {d : Driver σ} {offset : ℤ} (whence : ℕ)
    (hopen : file.unit < 2 ∧ 0 ≤ (d.fdList file.unit).mountFD)
    (hfound : (d.fdList file.privdata).partOf offset < (d.fdList file.privdata).numPartitions) :
    hdlfsLseek file offset whence d =
      ((((d.fdList file.privdata).seekTo offset whence / 4 : ℕ) : ℤ),
        { d with
          fdList := Function.update d.fdList file.privdata
            { d.fdList file.privdata with
              offset := (d.fdList file.privdata).seekTo offset whence
              relativeSectorNumber := u32 ((d.fdList file.privdata).seekTo offset whence -
                ((d.fdList file.privdata).partSpecs
                  ((d.fdList file.privdata).partOf offset)).partOffset * 4)
              currentPartNum := (d.fdList file.privdata).partOf offset } }) := by
  rw [hdlfsLseek, if_pos hopen]
  dsimp only
  rw [if_pos hfound]

theorem hdlfsLseek_refused {file : IopFile} {d : Driver σ} {offset : ℤ} (whence : ℕ)
    (hopen : file.unit < 2 ∧ 0 ≤ (d.fdList file.unit).mountFD)
    (hfound : ¬ (d.fdList file.privdata).partOf offset <
      (d.fdList file.privdata).numPartitions) :
    hdlfsLseek file offset whence d = (-22, d) := by
  rw [hdlfsLseek, if_pos hopen]
  dsimp only
  rw [if_neg hfound]

/-- The descriptor that a seek leaves, when its slice contains the target. -/
theorem at_of_contains (hg : OnGame P n f) {i s : ℕ} {t : ℤ} (hi : i < f.numPartitions)
    (hs : (s : ℤ) = 4 * t) (ht : t < n) (hcontains : f.Contains i t) :
    ({ f with
        offset := s
        relativeSectorNumber := u32 (s - (f.partSpecs i).partOffset * 4)
        currentPartNum := i } : HdlfsFileDescriptor).At t := by
  have hn := hg.tiled.lt
  have hle := hcontains.1
  have hlt := hcontains.2
  have hrel : u32 (s - (f.partSpecs i).partOffset * 4) = s - 4 * (f.partSpecs i).partOffset := by
    unfold u32
    omega
  refine ⟨hs, hi, hcontains, ?_, ?_⟩
  · show ((u32 _ : ℕ) : ℤ) = s - 4 * (f.partSpecs i).partOffset
    rw [hrel]
    omega
  · show u32 _ < (f.partSpecs i).partSize / 512
    rw [hrel]
    omega

/-- A seek that finds a slice, with a target in the image. -/
theorem hdlfsLseek_lands_iff {file : IopFile} {d : Driver σ} {offset t : ℤ} {whence : ℕ}
    (hg : OnGame P n (d.fdList file.privdata))
    (hopen : file.unit < 2 ∧ 0 ≤ (d.fdList file.unit).mountFD) (hw : whence ≤ 2)
    (hin : 0 ≤ offset ∧ offset < n)
    (htarget : (d.fdList file.privdata).target n offset whence = t) (ht : 0 ≤ t ∧ t < n) :
    ((hdlfsLseek file offset whence d).1 = t ∧
        ∃ f : HdlfsFileDescriptor, (d.fdList file.privdata).Moved f ∧
          f.size = (d.fdList file.privdata).size ∧ f.At t ∧
          (hdlfsLseek file offset whence d).2 =
            { d with fdList := Function.update d.fdList file.privdata f }) ↔
      (d.fdList file.privdata).BaseOk n whence ∧
        ∃ i < (d.fdList file.privdata).numPartitions, (d.fdList file.privdata).Contains i offset ∧
          (d.fdList file.privdata).Contains i t := by
  obtain ⟨hpart, hcontains⟩ := contains_partOf hg hin
  have hbase := seekTo_eq_iff hg hw (htarget.symm ▸ ht)
  rw [htarget] at hbase
  rw [hdlfsLseek_found whence hopen hpart]
  constructor
  · rintro ⟨-, f', -, -, hat, hd⟩
    have hf' := congrFun (congrArg Driver.fdList hd) file.privdata
    simp only [Function.update_self] at hf'
    have hoffset := hat.offset
    have hslice := hat.contains
    rw [← hf'] at hoffset hslice
    exact ⟨hbase.mp hoffset, _, hpart, hcontains, hslice⟩
  · rintro ⟨hbaseOk, i, hi, hoff, hslice⟩
    obtain rfl : i = (d.fdList file.privdata).partOf offset :=
      contains_unique hg hi hpart hoff hcontains
    have hseek := hbase.mpr hbaseOk
    refine ⟨?_, _, ?_, ?_, at_of_contains hg hpart hseek ht.2 hslice, rfl⟩
    · show (((d.fdList file.privdata).seekTo offset whence / 4 : ℕ) : ℤ) = t
      omega
    · exact ⟨rfl, rfl, rfl⟩
    · rfl

/-- A position is not an error. -/
theorem hdlfsLseek_nonneg {file : IopFile} {d : Driver σ} {offset : ℤ} (whence : ℕ)
    (hopen : file.unit < 2 ∧ 0 ≤ (d.fdList file.unit).mountFD)
    (hfound : (d.fdList file.privdata).partOf offset < (d.fdList file.privdata).numPartitions) :
    0 ≤ (hdlfsLseek file offset whence d).1 := by
  rw [hdlfsLseek_found whence hopen hfound]
  exact Int.natCast_nonneg _

/-- **A seek does what it says exactly when** the number and the target go together. -/
theorem hdlfsLseek_agrees_iff {file : IopFile} {d : Driver σ} {offset : ℤ} {whence : ℕ}
    (hg : OnGame P n (d.fdList file.privdata))
    (hopen : file.unit < 2 ∧ 0 ≤ (d.fdList file.unit).mountFD)
    (hint : -2 ^ 31 ≤ offset ∧ offset < 2 ^ 31) (hw : whence ≤ 2) :
    SeekAgrees n file offset whence d ↔ SeekOk n (d.fdList file.privdata) offset whence := by
  rw [SeekAgrees, SeekOk]
  have hiff := partOf_found_iff hg hint
  by_cases hin : 0 ≤ offset ∧ offset < n
  · by_cases ht : 0 ≤ (d.fdList file.privdata).target n offset whence ∧
        (d.fdList file.privdata).target n offset whence < n
    · rw [if_pos ht, hdlfsLseek_lands_iff hg hopen hw hin rfl ht]
      exact ⟨fun h => ⟨iff_of_true hin ht, fun _ => h⟩, fun h => h.2 hin⟩
    · rw [if_neg ht]
      refine iff_of_false ?_ fun hok => ht (hok.1.mp hin)
      intro hbad
      have hnonneg := hdlfsLseek_nonneg whence hopen (hiff.mpr hin)
      rw [hbad] at hnonneg
      exact absurd hnonneg (by decide : ¬(0 : ℤ) ≤ -22)
  · have hfound : ¬ (d.fdList file.privdata).partOf offset <
        (d.fdList file.privdata).numPartitions := fun h => hin (hiff.mp h)
    rw [hdlfsLseek_refused whence hopen hfound]
    by_cases ht : 0 ≤ (d.fdList file.privdata).target n offset whence ∧
        (d.fdList file.privdata).target n offset whence < n
    · rw [if_pos ht]
      refine iff_of_false ?_ fun hok => hin (hok.1.mpr ht)
      rintro ⟨hret, -⟩
      have hneg : (-22 : ℤ) = (d.fdList file.privdata).target n offset whence := hret
      omega
    · rw [if_neg ht]
      exact iff_of_true rfl ⟨iff_of_false hin ht, fun h => absurd h hin⟩

/-! ## 4. Runs -/

/-- What is done with an open unit. -/
inductive FileOp
  | lseek (offset : ℤ) (whence : ℕ)
  | read (buffer : List UInt8)
  | write (buffer : List UInt8)

/-- The operation as a step of the driver, whatever it returns. -/
def FileOp.next (io : IomanX σ) (fuel : ℕ) (file : IopFile) :
    FileOp → Driver σ → Option (Driver σ)
  | .lseek offset whence, d => some (hdlfsLseek file offset whence d).2
  | .read buffer, d => (Op.read buffer).next io fuel file d
  | .write buffer, d => (Op.write buffer).next io fuel file d

/-- Transfers move the position and nothing else of the descriptor. -/
theorem ioLoop_moved (io : IomanX σ) (mode fuel : ℕ) {k : ℕ} {result r : ℤ}
    {f f' : HdlfsFileDescriptor} {buffer b : List UInt8} {w w' : σ}
    (h : ioLoop io mode fuel k result f buffer w = some (r, f', b, w')) : f.Moved f' := by
  have hmove : ∀ (g : HdlfsFileDescriptor) (_ : σ), f.Moved g → f.Moved g.moveOn := by
    intro g _ hmoved
    refine hmoved.trans ?_
    unfold HdlfsFileDescriptor.moveOn
    split <;> exact ⟨rfl, rfl, rfl⟩
  exact ioLoop_keeps hmove (fun _ _ _ hg => hg) (fun g _ m hg => hg.trans (g.moved_advance m))
    (.refl f) h

theorem hdlfsIoInternal_moved {io : IomanX σ} {fuel mode : ℕ} {file : IopFile}
    {buffer : Option (List UInt8)} {size r : ℤ} {b : List UInt8} {d d' : Driver σ}
    (h : hdlfsIoInternal io fuel file buffer size mode d = some (r, b, d')) (u : ℕ) :
    (d.fdList u).Moved (d'.fdList u) := by
  unfold hdlfsIoInternal at h
  split at h
  · obtain ⟨-, h⟩ := Prod.mk.inj (Option.some.inj h)
    obtain ⟨-, rfl⟩ := Prod.mk.inj h
    exact .refl _
  · split at h
    · obtain ⟨-, h⟩ := Prod.mk.inj (Option.some.inj h)
      obtain ⟨-, rfl⟩ := Prod.mk.inj h
      exact .refl _
    · obtain ⟨⟨ret, f, rest, w⟩, hloop, h⟩ := Option.map_eq_some_iff.mp h
      obtain ⟨-, h⟩ := Prod.mk.inj h
      obtain ⟨-, rfl⟩ := Prod.mk.inj h
      have hmoved := ioLoop_moved io mode fuel hloop
      by_cases hu : u = file.privdata
      · subst hu
        show (d.fdList file.privdata).Moved (Function.update d.fdList file.privdata f file.privdata)
        rw [Function.update_self]
        exact hmoved
      · show (d.fdList u).Moved (Function.update d.fdList file.privdata f u)
        rw [Function.update_of_ne hu]
        exact .refl _

/-- **No operation changes the table of a unit**, or unmounts it. -/
theorem FileOp.next_moved {io : IomanX σ} {fuel : ℕ} {file : IopFile} {op : FileOp}
    {d d' : Driver σ} (h : op.next io fuel file d = some d') (u : ℕ) :
    (d.fdList u).Moved (d'.fdList u) := by
  cases op with
  | lseek offset whence =>
    obtain rfl := Option.some.inj h
    rw [hdlfsLseek]
    split
    · dsimp only
      split
      · by_cases hu : u = file.privdata
        · subst hu
          dsimp only
          rw [Function.update_self]
          exact ⟨rfl, rfl, rfl⟩
        · dsimp only
          rw [Function.update_of_ne hu]
          exact .refl _
      · exact .refl _
    · exact .refl _
  | read buffer =>
    simp only [FileOp.next, Op.next, Op.exec, hdlfsRead] at h
    split at h
    · obtain ⟨_, hmap, rfl⟩ := Option.map_eq_some_iff.mp h
      obtain ⟨⟨r, b, e⟩, hread, rfl⟩ := Option.map_eq_some_iff.mp hmap
      exact hdlfsIoInternal_moved hread u
    · obtain rfl := Option.some.inj h
      exact .refl _
  | write buffer =>
    simp only [FileOp.next, Op.next, Op.exec, hdlfsWrite] at h
    split at h
    · obtain ⟨_, hmap, rfl⟩ := Option.map_eq_some_iff.mp h
      obtain ⟨⟨r, b, e⟩, hwrite, rfl⟩ := Option.map_eq_some_iff.mp hmap
      exact hdlfsIoInternal_moved hwrite u
    · obtain rfl := Option.some.inj h
      exact .refl _

variable {io : IomanX σ} {geo : CStr → Partition} {view : σ → ApaView} {dev : CStr}

/-- **After any run on a unit that has been formatted, mounted and opened**, a seek does what it
says exactly when the number it is given and the target go together. -/
theorem lseek_agrees_iff (laws : HeaderLaws io geo view) {args : HdlfsFormatArgs} {w w₁ : σ}
    (hn : args.numSectors < 2 ^ 32) (hformat : hdlfsFormat io args dev w = (0, w₁))
    {fdList : ℕ → HdlfsFileDescriptor} {flags : ℕ} {ret : ℤ} {file : IopFile} {d d' : Driver σ}
    (hmount : hdlfsMount io file dev flags { fdList := fdList, world := w₁ } = (ret, d))
    (hret : 0 ≤ ret) {fuel : ℕ} {ops : List FileOp}
    (hrun : run (FileOp.next io fuel (hdlfsOpen file d).2) ops d = some d') {offset : ℤ}
    (hint : -2 ^ 31 ≤ offset ∧ offset < 2 ^ 31) {whence : ℕ} (hw : whence ≤ 2) :
    SeekAgrees args.numSectors (hdlfsOpen file d).2 offset whence d' ↔
      SeekOk args.numSectors (d'.fdList file.unit) offset whence := by
  obtain ⟨hunit, hloaded, -⟩ := hdlfsMount_loaded laws hmount hret
  have htiled : (geo dev).Tiled args.numSectors (d.fdList file.unit).partSpecs := by
    refine (hdlfsFormat_tiled laws hn hformat).congr fun i hi => ?_
    have := (geo dev).nsub_le
    exact (hloaded.partSpecs i (by omega)).symm
  have hstart : OnGame (geo dev) args.numSectors (d.fdList file.unit) :=
    ⟨hloaded.mounted, hloaded.numPartitions, htiled⟩
  have hopen : (hdlfsOpen file d).2 = { file with privdata := file.unit } := by
    rw [hdlfsOpen, if_pos ⟨hunit, hloaded.mounted⟩]
  rw [hopen] at hrun ⊢
  have hend : OnGame (geo dev) args.numSectors (d'.fdList file.unit) :=
    run_preserves (I := fun e => OnGame (geo dev) args.numSectors (e.fdList file.unit))
      (fun _ _ _ hs ht => hs.moved (FileOp.next_moved ht file.unit)) hstart hrun
  exact hdlfsLseek_agrees_iff hend ⟨hunit, hend.mounted⟩ hint hw

end Seek

/-! ## 5. Seeks in a small game -/

/-- Partition A is open on unit 0. -/
def openedFile : IopFile := (hdlfsOpen { mode := 3 } strictlyMounted).2

/-- From the second sector, a seek by none: the number 0 and the target 1 are in one slice. -/
theorem lseek_agrees_iff_stay : ∃ d',
    run (FileOp.next twoSliceStrict 70 openedFile) [.lseek 1 0] strictlyMounted = some d' ∧
      SeekAgrees 3 openedFile 0 1 d' := by
  have hformat : hdlfsFormat twoSliceStrict { numSectors := 3 } (ascii ['A']) blank =
      (0, formatted) := Prod.ext (by decide) rfl
  have hmount : hdlfsMount twoSliceStrict { mode := 3 } (ascii ['A']) 0 { world := formatted } =
      (0, strictlyMounted) := Prod.ext (by decide) rfl
  obtain ⟨d', hrun⟩ : ∃ d', run (FileOp.next twoSliceStrict 70
      (hdlfsOpen { mode := 3 } strictlyMounted).2) [.lseek 1 0] strictlyMounted = some d' :=
    ⟨_, rfl⟩
  refine ⟨d', hrun, (lseek_agrees_iff twoSliceStrict_laws.1 (by decide) hformat hmount (by decide)
    hrun (by decide) (by decide)).mpr ?_⟩
  obtain rfl := Option.some.inj hrun
  refine ⟨by decide, fun _ => ⟨?_, 0, by decide, ?_, ?_⟩⟩
  · show 4 ∣ _
    decide
  · exact ⟨by decide, by decide⟩
  · exact ⟨by decide, by decide⟩

/-- **A step back is refused.**  From the third sector, SEEK_CUR with -1 should go to the second;
and SEEK_END with 1, which should go to the third, ends behind the game. -/
theorem lseek_disagrees :
    hdlfsFormat twoSliceStrict { numSectors := 3 } (ascii ['A']) blank = (0, formatted) ∧
    hdlfsMount twoSliceStrict { mode := 3 } (ascii ['A']) 0 { world := formatted } =
      (0, strictlyMounted) ∧
    ∃ d', run (FileOp.next twoSliceStrict 70 openedFile) [.lseek 2 0] strictlyMounted = some d' ∧
      (hdlfsLseek openedFile (-1) 1 d').1 = -22 ∧ ¬ SeekAgrees 3 openedFile (-1) 1 d' ∧
      (hdlfsLseek openedFile 1 2 d').1 = 2051 ∧ ¬ SeekAgrees 3 openedFile 1 2 d' := by
  refine ⟨Prod.ext (by decide) rfl, Prod.ext (by decide) rfl, _, rfl, by decide, ?_, by decide,
    ?_⟩
  · intro h
    rw [SeekAgrees, if_pos (by decide)] at h
    exact absurd h.1 (by decide)
  · intro h
    rw [SeekAgrees, if_pos (by decide)] at h
    exact absurd h.1 (by decide)

end PfsShell.Hdlfs
