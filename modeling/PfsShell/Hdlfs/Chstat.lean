/-
# `hdlfs_chstat` and `hdlfs_getstat`

`hdlfs_getstat` packs four bytes of the header into `attr`, and the type of the disc and the number
of partitions into `private_0`; `hdlfs_chstat` takes them apart again.  It writes the whole header
back, with the fields that the mask asks for changed.

* `stat_setStat`: what `hdlfs_getstat` makes of a header that was changed;
* `setStat_kept`: what does not change in it;
* `getstat_chstat`: the two calls on a mounted unit;
* `chstat_unread_or_uncounted`: a header that cannot be read, and one with a count below zero.
-/
import PfsShell.Hdlfs.Getstat

namespace PfsShell.Hdlfs

open PfsShell.Lib

/-! ## 1. Packing -/

/-- Four bytes, one above the other. -/
theorem pack_bytes {b₃ b₂ b₁ b₀ : ℕ} (h₂ : b₂ < 256) (h₁ : b₁ < 256) (h₀ : b₀ < 256) :
    b₃ <<< (24 : ℕ) ||| b₂ <<< (16 : ℕ) ||| b₁ <<< (8 : ℕ) ||| b₀ =
      b₃ * 2 ^ 24 + b₂ * 2 ^ 16 + b₁ * 2 ^ 8 + b₀ := by
  rw [Nat.or_assoc, Nat.or_assoc, ← Nat.shiftLeft_add_eq_or_of_lt (by omega : b₀ < 2 ^ 8),
    ← Nat.shiftLeft_add_eq_or_of_lt (by rw [Nat.shiftLeft_eq]; omega : b₁ <<< 8 + b₀ < 2 ^ 16),
    ← Nat.shiftLeft_add_eq_or_of_lt
      (by rw [Nat.shiftLeft_eq, Nat.shiftLeft_eq]; omega : b₂ <<< 16 + (b₁ <<< 8 + b₀) < 2 ^ 24)]
  simp only [Nat.shiftLeft_eq]
  omega

/-- The upper and the lower half of `private_0`. -/
theorem private0_halves (discType : ℕ) {n : ℕ} (hn : n < 65536) :
    (u32 (discType * 65536) ||| n) / 2 ^ 16 = discType % 65536 ∧
      (u32 (discType * 65536) ||| n) % 2 ^ 16 = n := by
  have hhigh : u32 (discType * 65536) = discType % 65536 * 2 ^ 16 := by
    unfold u32
    omega
  rw [Nat.or_div_two_pow, Nat.or_mod_two_pow, hhigh, Nat.mul_div_cancel _ (by decide),
    Nat.mul_mod_left, Nat.div_eq_of_lt hn, Nat.mod_eq_of_lt hn, Nat.or_zero, Nat.zero_or]
  exact ⟨rfl, rfl⟩

/-! ## 2. A header that is changed -/

/-- `stat` holds numbers of 32 bits. -/
structure IoxStat.Typed (stat : IoxStat) : Prop where
  attr_lt : stat.attr < 2 ^ 32
  private0_lt : stat.private0 < 2 ^ 32
  private1_lt : stat.private1 < 2 ^ 32

/-- What `hdlfs_getstat` gives after `hdlfs_chstat` with `stat` and `flags`, where it gave `old`
before. -/
structure ChangedStat (stat : IoxStat) (flags : ℕ) (old new : GameStat) : Prop where
  attr : new.attr = if flags &&& fioCstAttr ≠ 0 then stat.attr else old.attr
  private1 : new.private1 = if flags &&& fioCstPrvt ≠ 0 then stat.private1 else old.private1
  discType : new.private0 / 2 ^ 16 =
    if flags &&& fioCstPrvt ≠ 0 then stat.private0 / 2 ^ 16 else old.private0 / 2 ^ 16
  numPartitions : new.private0 % 2 ^ 16 = old.private0 % 2 ^ 16
  size : new.size = old.size
  private5 : new.private5 = old.private5

/-- Two headers have the same texts and the same partition table. -/
structure HdlGameInfo.SameGame (old new : HdlGameInfo) : Prop where
  magic : new.magic = old.magic
  reserved : new.reserved = old.reserved
  version : new.version = old.version
  gamename : new.gamename = old.gamename
  startup : new.startup = old.startup
  numPartitions : new.numPartitions = old.numPartitions
  partSpecs : new.partSpecs = old.partSpecs

section Header

variable {info : HdlGameInfo} {stat : IoxStat} {flags : ℕ}

/-- **What stays** in a header that is changed. -/
theorem setStat_kept (stat : IoxStat) (flags : ℕ) (info : HdlGameInfo) :
    info.SameGame (info.setStat stat flags) := by
  unfold HdlGameInfo.setStat
  simp only
  split <;> split <;> exact ⟨rfl, rfl, rfl, rfl, rfl, rfl, rfl⟩

theorem dma_setStat (stat : IoxStat) (flags : ℕ) (info : HdlGameInfo) :
    (info.setStat stat flags).stat.attr = if flags &&& fioCstAttr ≠ 0 then
      (stat.attr / 2 ^ 24) <<< (24 : ℕ) ||| (stat.attr / 2 ^ 16 % 256) <<< (16 : ℕ) |||
        (stat.attr / 2 ^ 8 % 256) <<< (8 : ℕ) ||| stat.attr % 256
    else info.stat.attr := by
  unfold HdlGameInfo.setStat
  simp only
  split <;> split <;> rfl

theorem discType_setStat (stat : IoxStat) (flags : ℕ) (info : HdlGameInfo) :
    (info.setStat stat flags).discType =
      if flags &&& fioCstPrvt ≠ 0 then stat.private0 / 2 ^ 16 else info.discType := by
  unfold HdlGameInfo.setStat
  simp only
  split <;> split <;> rfl

theorem layer1Start_setStat (stat : IoxStat) (flags : ℕ) (info : HdlGameInfo) :
    (info.setStat stat flags).layer1Start =
      if flags &&& fioCstPrvt ≠ 0 then stat.private1 else info.layer1Start := by
  unfold HdlGameInfo.setStat
  simp only
  split <;> split <;> rfl

/-- **What `hdlfs_getstat` gives** of a header that is changed. -/
theorem stat_setStat (hstat : stat.Typed) (hparts : u32 info.numPartitions ≤ 65) :
    ChangedStat stat flags info.stat (info.setStat stat flags).stat := by
  have hkept := setStat_kept stat flags info
  obtain ⟨hnew, hnewCount⟩ := private0_halves (info.setStat stat flags).discType
    (show u32 (info.setStat stat flags).numPartitions < 65536 by
      rw [hkept.numPartitions]
      omega)
  obtain ⟨hold, holdCount⟩ := private0_halves info.discType
    (show u32 info.numPartitions < 65536 by omega)
  constructor
  · have hattr := hstat.attr_lt
    rw [dma_setStat, pack_bytes (by omega) (by omega) (by omega)]
    split
    · omega
    · rfl
  · exact layer1Start_setStat stat flags info
  · refine hnew.trans ?_
    rw [discType_setStat]
    split
    · have hprivate := hstat.private0_lt
      exact Nat.mod_eq_of_lt (by omega)
    · exact hold.symm
  · refine hnewCount.trans (Eq.trans ?_ holdCount.symm)
    rw [hkept.numPartitions]
  · show (info.setStat stat flags).gameSize = info.gameSize
    rw [HdlGameInfo.gameSize, hkept.partSpecs, hkept.numPartitions]
    rfl
  · rfl

end Header

/-! ## 3. The calls -/

section Calls

variable {σ : Type} {io : IomanX σ} {geo : CStr → Partition} {view : σ → ApaView} {dev : CStr}
  {file : IopFile} {d d' : Driver σ} {stat : IoxStat} {flags : ℕ} {ret : ℤ}

/-- The header of the unit can be read. -/
def ReadsHeader (io : IomanX σ) (file : IopFile) (d : Driver σ) : Prop :=
  (io (.read (d.fdList file.unit).mountFD 1024)
    (io (.lseek (d.fdList file.unit).mountFD hdlGameDataOffset) d.world).2).1.ret = 1024

/-- **A mask that is refused**: nothing is written. -/
theorem hdlfsChstat_refused (laws : HeaderLaws io geo view)
    (hmounted : file.unit < 2 ∧ 0 ≤ (d.fdList file.unit).mountFD)
    (hon : (view d.world).on (d.fdList file.unit).mountFD = some dev)
    (hfixed : flags &&& fioCstFixed ≠ 0) (h : hdlfsChstat io file stat flags d = (ret, d')) :
    (ReadsHeader io file d → ret = -22) ∧ (¬ ReadsHeader io file d → ret = -5) ∧
      (view d'.world).info = (view d.world).info ∧ (view d'.world).disk = (view d.world).disk := by
  obtain ⟨r, hr, -, -, hinfo, hdisk⟩ := readHeader_view laws hon
  unfold hdlfsChstat at h
  unfold ReadsHeader
  simp only [hr] at h ⊢
  by_cases hread : r.1.ret = 1024
  · rw [if_pos hmounted, if_pos hread, if_neg hfixed] at h
    obtain ⟨rfl, rfl⟩ := Prod.mk.inj h
    exact ⟨fun _ => rfl, fun hno => absurd hread hno, hinfo, hdisk⟩
  · rw [if_pos hmounted, if_neg hread] at h
    obtain ⟨rfl, rfl⟩ := Prod.mk.inj h
    exact ⟨fun hdone => absurd hdone hread, fun _ => rfl, hinfo, hdisk⟩

/-- `hdlfs_getstat` gives what the stored header says, or fails; it writes nothing. -/
theorem hdlfsGetstat_stored (laws : HeaderLaws io geo view)
    (hon : (view d.world).on (d.fdList file.unit).mountFD = some dev)
    (hparts : u32 ((view d.world).info dev).numPartitions ≤ 65) :
    ∃ r, hdlfsGetstat io file d = some r ∧
      (r.result = 0 → r.stat = some ((view d.world).info dev).stat) ∧
      (view r.driver.world).info = (view d.world).info := by
  obtain ⟨r, hr, hinfo, -, hinfo₁, -⟩ := readHeader_view laws hon
  rw [hdlfsGetstat, hdlfsGetstatFiller]
  simp only [hr]
  split
  · by_cases hread : r.1.ret = 1024
    · rw [if_pos hread, hinfo hread, if_neg fun hlong => absurd hlong.2 (by omega)]
      exact ⟨_, rfl, fun _ => rfl, hinfo₁⟩
    · rw [if_neg hread]
      exact ⟨_, rfl, fun h => absurd (show (-5 : ℤ) = 0 from h) (by decide), hinfo₁⟩
  · exact ⟨_, rfl, fun h => absurd (show (-19 : ℤ) = 0 from h) (by decide), rfl⟩

/-- **`hdlfs_chstat` and `hdlfs_getstat`.**  A mask with `MODE`, `SIZE` or a time is refused once
the header is read.  Any other sets the fields it asks for, for the next `hdlfs_getstat`, and
touches neither another field nor another header nor the image. -/
theorem getstat_chstat (laws : HeaderLaws io geo view)
    (hmounted : file.unit < 2 ∧ 0 ≤ (d.fdList file.unit).mountFD)
    (hon : (view d.world).on (d.fdList file.unit).mountFD = some dev)
    (hparts : 0 ≤ ((view d.world).info dev).numPartitions ∧
      ((view d.world).info dev).numPartitions ≤ 65)
    (hstat : stat.Typed) (h : hdlfsChstat io file stat flags d = (ret, d')) :
    (flags &&& fioCstFixed ≠ 0 →
      (ReadsHeader io file d → ret = -22) ∧ (¬ ReadsHeader io file d → ret = -5) ∧
        (view d'.world).info = (view d.world).info) ∧
    (flags &&& fioCstFixed = 0 → 0 ≤ ret →
      (∃ r₀ r, hdlfsGetstat io file d = some r₀ ∧ hdlfsGetstat io file d' = some r ∧
        (r₀.result = 0 → r₀.stat = some ((view d.world).info dev).stat) ∧
        (r.result = 0 → ∃ new, r.stat = some new ∧
          ChangedStat stat flags ((view d.world).info dev).stat new)) ∧
      ((view d.world).info dev).SameGame ((view d'.world).info dev) ∧
      (∀ j, j ≠ dev → (view d'.world).info j = (view d.world).info j) ∧
      ∀ a, ¬ (geo dev).InReserved a → (view d'.world).disk a = (view d.world).disk a) := by
  have hcount : u32 ((view d.world).info dev).numPartitions ≤ 65 := by
    unfold u32
    omega
  refine ⟨fun hfixed => ?_, fun _ hret => ?_⟩
  · obtain ⟨hread, hfailed, hinfo, -⟩ := hdlfsChstat_refused laws hmounted hon hfixed h
    exact ⟨hread, hfailed, hinfo⟩
  · obtain ⟨⟨hunits, hon', hinfo'⟩, hdata⟩ := hdlfsChstat_success laws hon h hret
    have hnew : (view d'.world).info dev = ((view d.world).info dev).setStat stat flags := by
      rw [hinfo', Function.update_self]
    have hkept := setStat_kept stat flags ((view d.world).info dev)
    obtain ⟨r₀, hr₀, hold, -⟩ := hdlfsGetstat_stored laws hon hcount
    have hstill : (view d'.world).on (d'.fdList file.unit).mountFD = some dev := by
      rw [hunits, hon']
      exact hon
    obtain ⟨r, hr, hstored, -⟩ := hdlfsGetstat_stored laws hstill
      (by rw [hnew, hkept.numPartitions]; exact hcount)
    refine ⟨⟨r₀, r, hr₀, hr, hold, fun hdone => ⟨_, hstored hdone, ?_⟩⟩, ?_, fun j hj => ?_,
      hdata⟩
    · rw [hnew]
      exact stat_setStat hstat hcount
    · rw [hnew]
      exact hkept
    · rw [hinfo', Function.update_of_ne hj]

end Calls

/-! ## 4. A mounted game -/

/-- The attributes and the private fields are set. -/
def attrAndPrivate : IoxStat := { attr := 0x05040302, private0 := 0x00140000, private1 := 7 }

set_option maxRecDepth 4000 in
theorem getstat_chstat_full : ∃ d' r new,
    hdlfsChstat twoSliceApa {} attrAndPrivate 0x42 mountedFull = (1024, d') ∧
      hdlfsGetstat twoSliceApa {} d' = some r ∧ r.result = 0 ∧ r.stat = some new ∧
      new.attr = 0x05040302 ∧ new.private1 = 7 ∧ new.private0 / 2 ^ 16 = 0x14 ∧
      new.size = (mountedFull.world.info (ascii ['A'])).stat.size := by
  obtain ⟨d', hd'⟩ : ∃ d', hdlfsChstat twoSliceApa {} attrAndPrivate 0x42 mountedFull =
      (1024, d') := ⟨_, rfl⟩
  have hon : (id mountedFull.world).on (mountedFull.fdList 0).mountFD = some (ascii ['A']) := by
    decide
  have hall := getstat_chstat twoSliceApa_mountLaws.toHeaderLaws (by decide) hon (by decide)
    ⟨by decide, by decide, by decide⟩ hd'
  obtain ⟨⟨-, r, -, hr, -, hnew⟩, -⟩ := hall.2 (by decide) (by decide)
  have hdone : r.result = 0 := by
    obtain rfl := (Prod.mk.inj hd').2
    obtain rfl := Option.some.inj hr
    decide
  obtain ⟨new, hstat, hchanged⟩ := hnew hdone
  exact ⟨d', r, new, hd', hr, hdone, hstat, hchanged.attr, hchanged.private1, hchanged.discType,
    hchanged.size⟩

/-- The device of `twoSliceApa`, when nothing can be read from it. -/
def unreadableApa : IomanX ApaView
  | .read _ _, v => ({ ret := -5 }, v)
  | c, v => twoSliceApa c v

theorem unreadableApa_laws : HeaderLaws unreadableApa (fun _ => twoSlices) id where
  devctl := twoSliceApa_mountLaws.devctl
  getstat := twoSliceApa_mountLaws.getstat
  opened := twoSliceApa_mountLaws.opened
  closed := twoSliceApa_mountLaws.closed
  lseek := twoSliceApa_mountLaws.lseek
  read fd _ w _ _ := by
    refine ⟨.inr (show (-5 : ℤ) < 0 by decide), w.pos fd, ?_⟩
    have hpos : Function.update w.pos fd (w.pos fd) = w.pos := Function.update_eq_self fd w.pos
    show w = { w with pos := Function.update w.pos fd (w.pos fd) }
    rw [hpos]
  write := twoSliceApa_mountLaws.write
  hiocnsub := twoSliceApa_mountLaws.hiocnsub
  hiocgetpartstart := twoSliceApa_mountLaws.hiocgetpartstart
  hiocgetsize := twoSliceApa_mountLaws.hiocgetsize

/-- Partition A is mounted, and its header counts -1 parts. -/
def minusOnePart : Driver ApaView :=
  { mountedFull with
    world :=
      { mountedFull.world with
        info := Function.update mountedFull.world.info (ascii ['A']) { numPartitions := -1 } } }

set_option maxRecDepth 4000 in
/-- **Two exceptions.**  A mask with `MODE` is answered with `-EIO` when the header cannot be read;
and a count below zero is a large one for the loop of `hdlfs_getstat`, which leaves the table. -/
theorem chstat_unread_or_uncounted :
    (HeaderLaws unreadableApa (fun _ => twoSlices) id ∧
      (hdlfsChstat unreadableApa {} {} 1 mountedFull).1 = -5) ∧
    (minusOnePart.world.info (ascii ['A'])).numPartitions ≤ 65 ∧
    (hdlfsChstat twoSliceApa {} {} fioCstAttr minusOnePart).1 = 1024 ∧
    hdlfsGetstat twoSliceApa {} (hdlfsChstat twoSliceApa {} {} fioCstAttr minusOnePart).2 = none :=
  ⟨⟨unreadableApa_laws, by decide⟩, by decide, by decide, rfl⟩

end PfsShell.Hdlfs
