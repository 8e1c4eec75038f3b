/-
# A format lays out a tiling

`hdlfs_format`, for any slices: nothing is assumed of them but that each is four sectors larger
than its reserved area, and nothing of iomanX but what it answers about them (`SliceLaws`).  What
the driver calls is recorded (`recording`), so that the header it writes is there to be read.

A slice gets as much of the game as it has room for, or as is left (`Slices.part`); what is in
front of it is what the slices before it have got (`Slices.before`).

* `layParts_slices`: the loop writes just that down, or fails;
* `hdlfsFormat_tiles`: a format that returns 0 has written one header, and its parts tile the
  game; when the slices do not hold the game it fails and writes none.
-/
import Mathlib.Algebra.BigOperators.Fin
import PfsShell.Hdlfs.Getstat

namespace PfsShell.Hdlfs

open PfsShell.Lib

/-! ## 1. Slices -/

/-- Slices of a partition: where each starts and how large it is, in sectors of the disk. -/
structure Slices where
  nsub : ℕ
  start : ℕ → ℕ
  size : ℕ → ℕ
  nsub_le : nsub ≤ 64
  room : ∀ i, i ≤ nsub → reservedSectors i + 4 ≤ size i
  size_lt : ∀ i, i ≤ nsub → size i < 2 ^ 32

/-- What iomanX answers about the slices of a device, where `on` says what each descriptor is
open on.  A start is returned as an `int`. -/
structure SliceLaws {σ : Type} (io : IomanX σ) (slices : CStr → Slices)
    (on : σ → ℤ → Option CStr) : Prop where
  opened : ∀ dev flags w, 0 ≤ (io (.open dev flags) w).1.ret →
    on (io (.open dev flags) w).2 (io (.open dev flags) w).1.ret = some dev
  lseek : ∀ fd offset w, on (io (.lseek fd offset) w).2 = on w
  hiocnsub : ∀ fd dev w, on w fd = some dev →
    (io (.hiocnsub fd) w).1.ret = (slices dev).nsub ∧ on (io (.hiocnsub fd) w).2 = on w
  hiocgetpartstart : ∀ fd dev i w, on w fd = some dev → i ≤ (slices dev).nsub →
    u32 (io (.hiocgetpartstart fd i) w).1.ret = (slices dev).start i ∧
      (io (.hiocgetpartstart fd i) w).1.ret < 2 ^ 31 ∧
      on (io (.hiocgetpartstart fd i) w).2 = on w
  hiocgetsize : ∀ fd dev i w, on w fd = some dev → i ≤ (slices dev).nsub →
    u32 (io (.hiocgetsize fd i) w).1.ret = (slices dev).size i ∧
      on (io (.hiocgetsize fd i) w).2 = on w

namespace Slices

variable (S : Slices) (n : ℕ)

/-- How many sectors of a game a slice has room for. -/
def capacity (i : ℕ) : ℕ := (S.size i - reservedSectors i) / 4

/-- How many sectors of the game lie in front of a slice. -/
def before : ℕ → ℕ
  | 0 => 0
  | i + 1 => before i + min (S.capacity i) (n - before i)

/-- How many sectors of the game a slice gets. -/
def part (i : ℕ) : ℕ := min (S.capacity i) (n - S.before n i)

/-- The slices hold a game of `n` sectors. -/
def Fits : Prop := n ≤ ∑ i ∈ Finset.range (S.nsub + 1), S.capacity i

theorem before_succ (i : ℕ) : S.before n (i + 1) = S.before n i + S.part n i := rfl

theorem before_le (i : ℕ) : S.before n i ≤ n := by
  induction i with
  | zero => exact Nat.zero_le n
  | succ i ih =>
    rw [before_succ, part]
    omega

/-- What lies in front of a slice is what the slices before it have got. -/
theorem before_eq_sum (i : ℕ) : S.before n i = ∑ j ∈ Finset.range i, S.part n j := by
  induction i with
  | zero => rfl
  | succ i ih => rw [before_succ, Finset.sum_range_succ, ih]

/-- They have room for it. -/
theorem before_le_capacity (i : ℕ) : S.before n i ≤ ∑ j ∈ Finset.range i, S.capacity j := by
  rw [before_eq_sum]
  refine Finset.sum_le_sum ?_
  intro j _
  exact Nat.min_le_left _ _

variable {S n}

theorem capacity_pos {i : ℕ} (hi : i ≤ S.nsub) : 0 < S.capacity i := by
  have hroom := S.room i hi
  unfold capacity
  omega

/-- **A slice gets nothing only when nothing is left.** -/
theorem before_eq_of_part_eq_zero {i : ℕ} (hi : i ≤ S.nsub) (h : S.part n i = 0) :
    S.before n i = n := by
  have hpos := capacity_pos hi
  have hle := S.before_le n i
  rw [part] at h
  omega

/-- Then nothing is left for the slices behind it either. -/
theorem part_eq_zero_of_le {i j : ℕ} (hi : i ≤ S.nsub) (hij : i ≤ j) (h : S.part n i = 0) :
    S.part n j = 0 := by
  have hall : S.before n j = n := by
    induction j, hij using Nat.le_induction with
    | base => exact before_eq_of_part_eq_zero hi h
    | succ j hj ih =>
      rw [before_succ, part, ih]
      omega
  rw [part, hall]
  omega

/-- The sum of the driver's loop. -/
theorem sectorsInPart_eq_part {i : ℕ} {size : ℤ} (hi : i ≤ S.nsub) (hsize : u32 size = S.size i) :
    sectorsInPart i size (n - S.before n i) = S.part n i := by
  have hroom := S.room i hi
  have hlt := S.size_lt i hi
  unfold sectorsInPart part capacity
  unfold u32 at hsize ⊢
  dsimp only
  split <;> omega

/-- What is written down about a slice. -/
structure Laid (S : Slices) (n i : ℕ) (spec : PartSpecs) : Prop where
  partOffset : spec.partOffset = S.before n i
  dataStart : spec.dataStart = S.start i + reservedSectors i
  partSize : spec.partSize = S.part n i * 2048
  small : S.part n i < 0x200000

/-- The sums of the loop stay in a word. -/
theorem u32_before_succ (hn : n < 2 ^ 32) (i : ℕ) :
    u32 (S.before n i + S.part n i) = S.before n (i + 1) := by
  have hle := S.before_le n (i + 1)
  rw [before_succ] at hle ⊢
  unfold u32
  omega

theorem u32_sub_before (hn : n < 2 ^ 32) (i : ℕ) :
    u32 (n - S.before n i) = n - S.before n i := by
  have hle := S.before_le n i
  unfold u32
  omega

/-- What a round of the loop writes down, when it is not too much. -/
theorem laid_of_start {i : ℕ} {start : ℤ} (hstart : u32 start = S.start i) (hpos : 0 ≤ start)
    (hint : start < 2 ^ 31) (hsmall : S.part n i < 0x200000) :
    S.Laid n i
      { partOffset := S.before n i
        dataStart := u32 (start + reservedSectors i)
        partSize := u32 (S.part n i * 2048) } := by
  refine ⟨rfl, ?_, ?_, hsmall⟩
  · have hreserved : reservedSectors i ≤ 0x2000 := by
      unfold reservedSectors
      split <;> omega
    show u32 (start + reservedSectors i) = _
    rw [← hstart]
    unfold u32
    omega
  · show u32 (S.part n i * 2048) = _
    unfold u32
    omega

end Slices

/-! ## 2. Recorded calls -/

/-- iomanX with a record of the calls and of what they returned, the earliest first. -/
def recording {σ : Type} (io : IomanX σ) : IomanX (σ × List (Call × ℤ)) := fun c w =>
  ((io c w.1).1, (io c w.1).2, w.2 ++ [(c, (io c w.1).1.ret)])

theorem recording_calls {σ : Type} (io : IomanX σ) (c : Call) (w : σ × List (Call × ℤ)) :
    (recording io c w).2.2 = w.2 ++ [(c, (recording io c w).1.ret)] := rfl

/-- A call that does not write the header. -/
def NoWrite (c : Call × ℤ) : Prop := ∀ fd info size, c.1 ≠ .write fd info size

/-- Only calls that do not write were made in between. -/
def Quiet (before after : List (Call × ℤ)) : Prop :=
  ∃ news, after = before ++ news ∧ ∀ c ∈ news, NoWrite c

theorem Quiet.refl (calls : List (Call × ℤ)) : Quiet calls calls :=
  ⟨[], (List.append_nil _).symm, fun _ hc => absurd hc List.not_mem_nil⟩

theorem Quiet.trans {a b c : List (Call × ℤ)} (hab : Quiet a b) (hbc : Quiet b c) : Quiet a c := by
  obtain ⟨news, rfl, hnews⟩ := hab
  obtain ⟨more, rfl, hmore⟩ := hbc
  refine ⟨news ++ more, List.append_assoc _ _ _, ?_⟩
  intro x hx
  rcases List.mem_append.mp hx with hx | hx
  · exact hnews x hx
  · exact hmore x hx

theorem quiet_one {calls : List (Call × ℤ)} {c : Call × ℤ} (h : NoWrite c) :
    Quiet calls (calls ++ [c]) := by
  refine ⟨[c], rfl, ?_⟩
  intro x hx
  rw [List.mem_singleton.mp hx]
  exact h

section Format

variable {σ : Type} {io : IomanX σ} {slices : CStr → Slices} {on : σ → ℤ → Option CStr}

/-- Recording changes no answer. -/
theorem SliceLaws.recording (laws : SliceLaws io slices on) :
    SliceLaws (recording io) slices fun w => on w.1 where
  opened dev flags w := laws.opened dev flags w.1
  lseek fd offset w := laws.lseek fd offset w.1
  hiocnsub fd dev w := laws.hiocnsub fd dev w.1
  hiocgetpartstart fd dev i w := laws.hiocgetpartstart fd dev i w.1
  hiocgetsize fd dev i w := laws.hiocgetsize fd dev i w.1

/-! ## 3. The loop -/

/-- After slices `0 .. i - 1`. -/
structure Slices.LaidBefore (S : Slices) (n i : ℕ) (l : Laying (σ × List (Call × ℤ))) : Prop where
  sectorNumber : l.sectorNumber = S.before n i
  partSpecs : ∀ j, j < i → S.Laid n j (l.partSpecs j)

/-- One slice more. -/
theorem Slices.LaidBefore.step {S : Slices} {n i : ℕ} {l : Laying (σ × List (Call × ℤ))}
    (h : S.LaidBefore n i l) {spec : PartSpecs} (hspec : S.Laid n i spec) (result : ℤ)
    (world : σ × List (Call × ℤ)) :
    S.LaidBefore n (i + 1)
      { result := result
        sectorNumber := S.before n (i + 1)
        partSpecs := Function.update l.partSpecs i spec
        world := world } where
  sectorNumber := rfl
  partSpecs := by
    intro j hj
    rcases Nat.lt_succ_iff_lt_or_eq.mp hj with hj | rfl
    · show S.Laid n j (Function.update l.partSpecs i spec j)
      rw [Function.update_of_ne (Nat.ne_of_lt hj)]
      exact h.partSpecs j hj
    · show S.Laid n j (Function.update l.partSpecs j spec j)
      rw [Function.update_self]
      exact hspec

/-- **The loop of `hdlfs_format`** lays out all slices, or fails; it writes nothing.  The
induction is on the slices that are left. -/
theorem layParts_slices (laws : SliceLaws io slices on) {fd : ℤ} {dev : CStr} {n : ℕ}
    (hn : n < 2 ^ 32) (k : ℕ) : ∀ (i : ℕ) (l : Laying (σ × List (Call × ℤ))),
      i + k = (slices dev).nsub + 1 → on l.world.1 fd = some dev →
      (slices dev).LaidBefore n i l →
      Quiet l.world.2 (layParts (recording io) fd n k i l).world.2 ∧
      (0 ≤ (layParts (recording io) fd n k i l).result →
        (slices dev).LaidBefore n ((slices dev).nsub + 1)
          (layParts (recording io) fd n k i l)) := by
  induction k with
  | zero =>
    intro i l hik _ hl
    obtain rfl : i = (slices dev).nsub + 1 := hik
    exact ⟨.refl _, fun _ => hl⟩
  | succ k ih =>
    intro i l hik hon hl
    have hi : i ≤ (slices dev).nsub := by omega
    obtain ⟨hstart, hint, hon₁⟩ := laws.hiocgetpartstart fd dev i l.world.1 hon hi
    obtain ⟨hsize, hon₂⟩ := laws.hiocgetsize fd dev i
      (io (.hiocgetpartstart fd i) l.world.1).2 (by rw [hon₁]; exact hon) hi
    have hquiet₁ : Quiet l.world.2 (recording io (.hiocgetpartstart fd i) l.world).2.2 :=
      quiet_one fun fd info size h => by cases h
    have hquiet₂ : Quiet l.world.2 (recording io (.hiocgetsize fd i)
        (recording io (.hiocgetpartstart fd i) l.world).2).2.2 :=
      hquiet₁.trans (quiet_one fun fd info size h => by cases h)
    have hanswer : (recording io (.hiocgetpartstart fd i) l.world).1 =
        (io (.hiocgetpartstart fd i) l.world.1).1 := rfl
    have hpart : sectorsInPart i (recording io (.hiocgetsize fd i)
        (recording io (.hiocgetpartstart fd i) l.world).2).1.ret
        (u32 (n - l.sectorNumber)) = (slices dev).part n i := by
      rw [hl.sectorNumber, Slices.u32_sub_before hn]
      exact Slices.sectorsInPart_eq_part hi hsize
    rw [layParts]
    simp only [hpart]
    split
    · rename_i hpos
      rw [hanswer] at hpos
      split
      · exact ⟨hquiet₂, fun h => absurd h (by decide : ¬ (0 : ℤ) ≤ -22)⟩
      · rename_i hsmall
        have hlaid := Slices.laid_of_start hstart hpos hint (Nat.not_le.mp hsmall)
        rw [hl.sectorNumber, Slices.u32_before_succ hn]
        obtain ⟨hquiet, hend⟩ := ih (i + 1) _ (by omega)
          (by show on (io (.hiocgetsize fd i) (io (.hiocgetpartstart fd i) l.world.1).2).2 fd = _
              rw [hon₂, hon₁]; exact hon)
          (hl.step hlaid (recording io (.hiocgetpartstart fd i) l.world).1.ret
            (recording io (.hiocgetsize fd i)
              (recording io (.hiocgetpartstart fd i) l.world).2).2)
        exact ⟨hquiet₂.trans hquiet, hend⟩
    · rename_i hneg
      exact ⟨hquiet₁, fun h => absurd h hneg⟩

/-! ## 4. The header -/

/-- Whoever mounts a partition with this header is told that the game has `n` sectors. -/
def HdlGameInfo.Reports (info : HdlGameInfo) (n : ℕ) : Prop :=
  ∀ (τ : Type) (io : IomanX τ) (file : IopFile) (d : Driver τ),
    file.unit < 2 ∧ 0 ≤ (d.fdList file.unit).mountFD →
    (io (.read (d.fdList file.unit).mountFD 1024)
      (io (.lseek (d.fdList file.unit).mountFD hdlGameDataOffset) d.world).2).1 =
        { ret := 1024, info := info } →
    ∃ r stat, hdlfsGetstat io file d = some r ∧ r.result = 0 ∧ r.stat = some stat ∧ stat.size = n

/-- **A header whose parts tile a game** of `n` sectors. -/
structure Slices.Tiles (S : Slices) (n : ℕ) (info : HdlGameInfo) : Prop where
  numPartitions : info.numPartitions = S.nsub + 1
  first : (info.partSpecs 0).partOffset = 0
  next : ∀ i, i < S.nsub → (info.partSpecs (i + 1)).partOffset =
    (info.partSpecs i).partOffset + (info.partSpecs i).partSize / 2048
  total : ∑ i ∈ Finset.range (S.nsub + 1), (info.partSpecs i).partSize / 2048 = n
  reports : info.Reports n
  whole : ∀ i, i ≤ S.nsub → 2048 ∣ (info.partSpecs i).partSize ∧
    (info.partSpecs i).partSize < 2 ^ 32
  inside : ∀ i, i ≤ S.nsub →
    (info.partSpecs i).dataStart = S.start i + reservedSectors i ∧
    (info.partSpecs i).dataStart + (info.partSpecs i).partSize / 512 ≤ S.start i + S.size i
  suffix : ∀ i j, i ≤ j → j ≤ S.nsub → (info.partSpecs i).partSize = 0 →
    (info.partSpecs j).partSize = 0

section Header

variable {S : Slices} {n : ℕ} {info : HdlGameInfo}

theorem Slices.Laid.sectors {i : ℕ} {spec : PartSpecs} (h : S.Laid n i spec) :
    spec.partSize / 2048 = S.part n i := by
  rw [h.partSize]
  omega

/-- The loop of `hdlfs_getstat_filler` adds up what the slices have got. -/
theorem addParts_before (hn : n < 2 ^ 32) {m : ℕ}
    (h : ∀ i, i < m → S.Laid n i (info.partSpecs i)) (k : ℕ) : ∀ i, i + k = m →
      addParts info.partSpecs k i (S.before n i) = S.before n m := by
  induction k with
  | zero =>
    rintro i rfl
    rfl
  | succ k ih =>
    intro i hik
    have hle := S.before_le n (i + 1)
    have hsucc := S.before_succ n i
    have hadd : u32 ((S.before n i : ℕ) + ((info.partSpecs i).partSize / 2048 : ℕ)) =
        S.before n (i + 1) := by
      rw [(h i (by omega)).sectors, hsucc]
      unfold u32
      omega
    rw [addParts, hadd]
    exact ih (i + 1) (by omega)

/-- When all of the game is laid out, the header tiles it. -/
theorem Slices.tiles_of_laid (hn : n < 2 ^ 32) (hnum : info.numPartitions = S.nsub + 1)
    (h : ∀ i, i < S.nsub + 1 → S.Laid n i (info.partSpecs i))
    (hall : S.before n (S.nsub + 1) = n) : S.Tiles n info where
  numPartitions := hnum
  first := (h 0 (Nat.succ_pos _)).partOffset
  next := by
    intro i hi
    have hoffset := (h i (by omega)).partOffset
    have hnext := (h (i + 1) (by omega)).partOffset
    rw [hoffset, hnext, (h i (by omega)).sectors, S.before_succ]
  total := by
    calc ∑ i ∈ Finset.range (S.nsub + 1), (info.partSpecs i).partSize / 2048
        = ∑ i ∈ Finset.range (S.nsub + 1), S.part n i :=
          Finset.sum_congr rfl fun i hi => (h i (Finset.mem_range.mp hi)).sectors
      _ = S.before n (S.nsub + 1) := (S.before_eq_sum n _).symm
      _ = n := hall
  reports := by
    intro τ io file d hmounted hread
    have hsub := S.nsub_le
    have hcount : u32 info.numPartitions = S.nsub + 1 := by
      rw [hnum]
      unfold u32
      omega
    have hsize : info.gameSize = n := by
      have hsum := addParts_before hn h (S.nsub + 1) 0 (Nat.zero_add _)
      rw [hall] at hsum
      rw [HdlGameInfo.gameSize, hcount]
      exact hsum
    rw [hdlfsGetstat, hdlfsGetstatFiller, if_pos hmounted]
    simp only [hread]
    rw [if_pos trivial, if_neg fun hlong => absurd hlong.2 (by omega)]
    exact ⟨_, _, rfl, rfl, rfl, hsize⟩
  whole := by
    intro i hi
    have hlaid := h i (by omega)
    have hsmall := hlaid.small
    rw [hlaid.partSize]
    exact ⟨Dvd.intro_left _ rfl, by omega⟩
  inside := by
    intro i hi
    have hlaid := h i (by omega)
    have hroom := S.room i hi
    have hcapacity : S.part n i ≤ (S.size i - reservedSectors i) / 4 := Nat.min_le_left _ _
    refine ⟨hlaid.dataStart, ?_⟩
    rw [hlaid.dataStart, hlaid.partSize]
    omega
  suffix := by
    intro i j hij hj hzero
    rw [(h i (by omega)).partSize] at hzero
    rw [(h j (by omega)).partSize, Slices.part_eq_zero_of_le (Nat.le_trans hij hj) hij (by omega)]

end Header

/-! ## 5. The call -/

/-- The header that a record of calls has: it is the only one written, and all of it. -/
def Wrote (calls : List (Call × ℤ)) (info : HdlGameInfo) : Prop :=
  ∃ front back fd, calls = front ++ (.write fd info 1024, 1024) :: back ∧
    (∀ c ∈ front, NoWrite c) ∧ ∀ c ∈ back, NoWrite c

/-- What follows the loop: a game that is not all laid out is refused, and nothing written. -/
theorem writeInfo_recorded {fd num : ℤ} {args : HdlfsFormatArgs}
    {l : Laying (σ × List (Call × ℤ))} {r : ℤ × σ × List (Call × ℤ)}
    (h : writeInfo (recording io) fd args num l = r) :
    (r.1 = 0 → 0 ≤ l.result ∧ args.numSectors ≤ l.sectorNumber ∧
      r.2.2 = l.world.2 ++ [(.write fd (args.info num l.partSpecs) 1024, 1024)]) ∧
    ((0 ≤ l.result → l.sectorNumber < args.numSectors) → r.1 < 0 ∧ r.2 = l.world) := by
  subst h
  rw [writeInfo]
  split
  · rename_i hresult
    split
    · rename_i hsmall
      exact ⟨fun h => absurd h (by decide : ¬ (-12 : ℤ) = 0),
        fun _ => ⟨(by decide : (-12 : ℤ) < 0), rfl⟩⟩
    · rename_i hfits
      refine ⟨?_, fun hsmall => absurd (hsmall hresult) hfits⟩
      intro hret
      dsimp only at hret
      split at hret
      · rename_i hfull
        refine ⟨hresult, Nat.not_lt.mp hfits, ?_⟩
        show l.world.2 ++ [(_, (recording io _ l.world).1.ret)] = _
        rw [hfull]
      · exact absurd hret (by decide)
  · rename_i hresult
    exact ⟨fun h => absurd (Int.le_of_eq h.symm) hresult,
      fun _ => ⟨Int.not_le.mp hresult, rfl⟩⟩

theorem Quiet.noWrite {calls : List (Call × ℤ)} (h : Quiet [] calls) : ∀ c ∈ calls, NoWrite c := by
  obtain ⟨news, rfl, hnews⟩ := h
  exact hnews

/-- What a format does: the open fails, or the slices are laid out, the header is written and the
descriptor closed. -/
theorem hdlfsFormat_runs (laws : SliceLaws io slices on) {args : HdlfsFormatArgs} {dev : CStr}
    {w w' : σ} {ret : ℤ} {calls : List (Call × ℤ)} (hn : args.numSectors < 2 ^ 32)
    (h : hdlfsFormat (recording io) args dev (w, []) = (ret, (w', calls))) :
    (ret < 0 ∧ Quiet [] calls) ∨
      ∃ fd l closed, Quiet [] l.world.2 ∧
        (0 ≤ l.result → (slices dev).LaidBefore args.numSectors ((slices dev).nsub + 1) l) ∧
        (writeInfo (recording io) fd args ((slices dev).nsub + 1 : ℕ) l).1 = ret ∧
        calls = (writeInfo (recording io) fd args ((slices dev).nsub + 1 : ℕ) l).2.2 ++
          [(.close fd, closed)] := by
  unfold hdlfsFormat at h
  dsimp only at h
  have hq₀ : Quiet [] (recording io (.devctlMaxsector dev) (w, [])).2.2 :=
    quiet_one fun fd info size h => by cases h
  generalize (recording io (.devctlMaxsector dev) (w, [])).2 = w₀ at h hq₀
  have hq₁ : Quiet [] (recording io (.open dev 2) w₀).2.2 :=
    hq₀.trans (quiet_one fun fd info size h => by cases h)
  have hopened := laws.recording.opened dev 2 w₀
  generalize recording io (.open dev 2) w₀ = o at h hq₁ hopened
  split at h
  · rename_i hopen
    have hon := hopened hopen
    generalize o.1.ret = fd at h hon
    have hseek := laws.recording.lseek fd hdlGameDataOffset o.2
    have hq₂ : Quiet [] (recording io (.lseek fd hdlGameDataOffset) o.2).2.2 :=
      hq₁.trans (quiet_one fun fd info size h => by cases h)
    generalize (recording io (.lseek fd hdlGameDataOffset) o.2).2 = w₁ at h hseek hq₂
    obtain ⟨hnsub, hon₂⟩ := laws.recording.hiocnsub fd dev w₁ (by rw [hseek]; exact hon)
    have hq₃ : Quiet [] (recording io (.hiocnsub fd) w₁).2.2 :=
      hq₂.trans (quiet_one fun fd info size h => by cases h)
    generalize recording io (.hiocnsub fd) w₁ = c at h hnsub hon₂ hq₃
    have hsub := (slices dev).nsub_le
    have hcount : u32 (c.1.ret + 1) = (slices dev).nsub + 1 := by
      rw [hnsub]
      unfold u32
      omega
    rw [hcount] at h
    obtain ⟨hquiet, hlaid⟩ := layParts_slices laws hn ((slices dev).nsub + 1) 0
      { world := c.2 } (Nat.zero_add _) (by rw [hon₂, hseek]; exact hon)
      ⟨rfl, fun j hj => absurd hj (Nat.not_lt_zero j)⟩
    generalize layParts (recording io) fd args.numSectors ((slices dev).nsub + 1) 0
      { world := c.2 } = l at h hquiet hlaid
    rw [show c.1.ret + 1 = ((slices dev).nsub + 1 : ℕ) by rw [hnsub]; rfl] at h
    obtain ⟨hret, hend⟩ := Prod.mk.inj h
    exact .inr ⟨fd, l, _, hq₃.trans hquiet, hlaid, hret, (congrArg Prod.snd hend).symm⟩
  · rename_i hopen
    obtain ⟨rfl, hend⟩ := Prod.mk.inj h
    obtain rfl : o.2.2 = calls := congrArg Prod.snd hend
    exact .inl ⟨Int.not_le.mp hopen, hq₁⟩

/-- A loop that did not fail has laid out all of the game, or the slices do not hold it. -/
theorem Slices.LaidBefore.all_iff {S : Slices} {n : ℕ} {l : Laying (σ × List (Call × ℤ))}
    (h : S.LaidBefore n (S.nsub + 1) l) : n ≤ l.sectorNumber ↔ S.before n (S.nsub + 1) = n := by
  have hle := S.before_le n (S.nsub + 1)
  rw [h.sectorNumber]
  omega

/-- **A format lays out a tiling.**  When it returns 0 it has written one header, whose parts tile
the game; when the slices do not hold the game it returns an error and writes none. -/
theorem hdlfsFormat_tiles (laws : SliceLaws io slices on) {args : HdlfsFormatArgs} {dev : CStr}
    {w w' : σ} {ret : ℤ} {calls : List (Call × ℤ)} (hn : args.numSectors < 2 ^ 32)
    (h : hdlfsFormat (recording io) args dev (w, []) = (ret, (w', calls))) :
    (ret = 0 → ∃ info, Wrote calls info ∧ (slices dev).Tiles args.numSectors info) ∧
    (¬ (slices dev).Fits args.numSectors → ret < 0 ∧ ∀ c ∈ calls, NoWrite c) := by
  rcases hdlfsFormat_runs laws hn h with ⟨hneg, hquiet⟩ | ⟨fd, l, closed, hquiet, hlaid, hret, rfl⟩
  · exact ⟨fun hzero => absurd hzero hneg.ne, fun _ => ⟨hneg, hquiet.noWrite⟩⟩
  have hclose : NoWrite (Call.close fd, closed) := fun fd info size h => by cases h
  obtain ⟨hwrite, hrefuse⟩ := writeInfo_recorded
    (rfl : writeInfo (recording io) fd args ((slices dev).nsub + 1 : ℕ) l = _)
  rw [hret] at hwrite hrefuse
  constructor
  · intro hzero
    obtain ⟨hresult, hfits, hrecord⟩ := hwrite hzero
    have hall := hlaid hresult
    refine ⟨args.info ((slices dev).nsub + 1 : ℕ) l.partSpecs, ?_, ?_⟩
    · rw [hrecord, List.append_assoc]
      refine ⟨l.world.2, _, fd, rfl, hquiet.noWrite, ?_⟩
      exact List.forall_mem_singleton.mpr hclose
    · exact Slices.tiles_of_laid hn rfl hall.partSpecs (hall.all_iff.mp hfits)
  · intro hsmall
    -- the slices have got less than the game
    have hless : 0 ≤ l.result → l.sectorNumber < args.numSectors := by
      intro hresult
      refine Nat.not_le.mp fun hfits => hsmall ?_
      have hcap := (slices dev).before_le_capacity args.numSectors ((slices dev).nsub + 1)
      rw [(hlaid hresult).all_iff.mp hfits] at hcap
      exact hcap
    obtain ⟨hneg, hsame⟩ := hrefuse hless
    rw [hsame]
    exact ⟨hneg, (hquiet.trans (quiet_one hclose)).noWrite⟩

end Format

/-! ## 6. The partitions of APA -/

/-- The slices of a partition. -/
def Partition.slices (P : Partition) : Slices where
  nsub := P.nsub
  start i := (P.slice i).start
  size i := (P.slice i).size
  nsub_le := P.nsub_le
  room := P.room
  size_lt := P.size_lt

/-- What HDLFS relies on in APA is more than what a format needs. -/
theorem HeaderLaws.sliceLaws {σ : Type} {io : IomanX σ} {geo : CStr → Partition}
    {view : σ → ApaView} (laws : HeaderLaws io geo view)
    (hint : ∀ fd i w, (io (.hiocgetpartstart fd i) w).1.ret < 2 ^ 31) :
    SliceLaws io (fun dev => (geo dev).slices) fun w => (view w).on where
  opened dev flags w h := by
    rw [laws.opened dev flags w h]
    exact Function.update_self ..
  lseek fd offset w := by rw [laws.lseek]
  hiocnsub fd dev w hon := by
    obtain ⟨hret, hview⟩ := laws.hiocnsub fd dev w hon
    exact ⟨hret, by rw [hview]⟩
  hiocgetpartstart fd dev i w hon hi := by
    obtain ⟨hret, hview⟩ := laws.hiocgetpartstart fd dev i w hon hi
    exact ⟨hret, hint fd i w, by rw [hview]⟩
  hiocgetsize fd dev i w hon hi := by
    obtain ⟨hret, hview⟩ := laws.hiocgetsize fd dev i w hon hi
    exact ⟨hret, by rw [hview]⟩

theorem twoSliceApa_sliceLaws :
    SliceLaws twoSliceApa (fun _ => twoSlices.slices) fun w : ApaView => w.on := by
  refine twoSliceApa_mountLaws.toHeaderLaws.sliceLaws ?_
  intro fd i w
  simp only [twoSliceApa, smallApa]
  split
  · simp only [twoSlices]
    split <;> decide
  · show (-9 : ℤ) < 2 ^ 31
    decide

theorem hdlfsFormat_tiles_three : ∃ w' calls info,
    hdlfsFormat (recording twoSliceApa) { numSectors := 3 } (ascii ['A']) (blank, []) =
      (0, (w', calls)) ∧ Wrote calls info ∧ twoSlices.slices.Tiles 3 info := by
  obtain ⟨w', calls, hformat⟩ : ∃ w' calls, hdlfsFormat (recording twoSliceApa)
      { numSectors := 3 } (ascii ['A']) (blank, []) = (0, (w', calls)) :=
    ⟨_, _, Prod.ext (by decide) rfl⟩
  obtain ⟨info, hwrote, htiles⟩ :=
    (hdlfsFormat_tiles twoSliceApa_sliceLaws (by decide) hformat).1 rfl
  exact ⟨w', calls, info, hformat, hwrote, htiles⟩

end PfsShell.Hdlfs
