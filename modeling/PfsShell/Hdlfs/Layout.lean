/-
# The layout hdlfs_format writes

The parts of an image of `n` sectors tile it: slice `i` holds `part_size` bytes, which lie right
behind its reserved sectors, and the parts follow one another without a gap (`Tiled`).  Which parts
they are is settled by the slices and by `n` (`Partition.layout`), and the loop of `hdlfs_format`
writes just these down (`layParts_follows`).  A format that returns 0 has stored a header with such
a layout (`hdlfsFormat_tiled`), and a mount loads it (`hdlfsMount_loaded`).
-/
import PfsShell.Hdlfs.Apa

namespace PfsShell.Hdlfs

open PfsShell.Lib

/-! ## 1. Layouts -/

/-- The tiles of a layout, in bytes of the image and of the disk. -/
def Partition.tiling (P : Partition) (specs : ℕ → PartSpecs) : Tiling where
  count := P.nsub + 1
  base i := 512 * ((P.slice i).start + reservedSectors i)
  len i := (specs i).partSize

@[simp] theorem Partition.tiling_count (P : Partition) (specs : ℕ → PartSpecs) :
    (P.tiling specs).count = P.nsub + 1 := rfl

@[simp] theorem Partition.tiling_base (P : Partition) (specs : ℕ → PartSpecs) (i : ℕ) :
    (P.tiling specs).base i = 512 * ((P.slice i).start + reservedSectors i) := rfl

@[simp] theorem Partition.tiling_len (P : Partition) (specs : ℕ → PartSpecs) (i : ℕ) :
    (P.tiling specs).len i = (specs i).partSize := rfl

/-- What the layout of an image of `n` sectors says about slice `i`. -/
structure Partition.PartOk (P : Partition) (n : ℕ) (specs : ℕ → PartSpecs) (i : ℕ) : Prop where
  offset : 2048 * (specs i).partOffset = (P.tiling specs).start i
  whole : 2048 ∣ (specs i).partSize
  size_lt : (specs i).partSize < 2 ^ 32
  room : 512 * reservedSectors i + (specs i).partSize ≤ 512 * (P.slice i).size
  full : (specs i).partSize = 0 → (P.tiling specs).start i = 2048 * n

/-- The parts tile the image. -/
structure Partition.Tiled (P : Partition) (n : ℕ) (specs : ℕ → PartSpecs) : Prop where
  part : ∀ i, i ≤ P.nsub → P.PartOk n specs i
  total : (P.tiling specs).total = 2048 * n

section Layouts

variable {P : Partition} {n i : ℕ} {specs specs' : ℕ → PartSpecs}

theorem start_congr (h : ∀ j, j < i → specs j = specs' j) :
    (P.tiling specs).start i = (P.tiling specs').start i := by
  refine Finset.sum_congr rfl fun j hj => ?_
  simp only [Partition.tiling_len, h j (Finset.mem_range.mp hj)]

theorem Partition.PartOk.congr (h : P.PartOk n specs i) (he : ∀ j, j ≤ i → specs j = specs' j) :
    P.PartOk n specs' i := by
  have hi := he i le_rfl
  have hstart : (P.tiling specs).start i = (P.tiling specs').start i :=
    start_congr fun j hj => he j (Nat.le_of_lt hj)
  refine ⟨?_, ?_, ?_, ?_, ?_⟩
  · rw [← hi, ← hstart]; exact h.offset
  · rw [← hi]; exact h.whole
  · rw [← hi]; exact h.size_lt
  · rw [← hi]; exact h.room
  · rw [← hi, ← hstart]; exact h.full

theorem Partition.Tiled.congr (h : P.Tiled n specs)
    (he : ∀ j, j ≤ P.nsub → specs j = specs' j) : P.Tiled n specs' := by
  refine ⟨fun i hi => (h.part i hi).congr fun j hj => he j (Nat.le_trans hj hi), ?_⟩
  rw [← h.total]
  exact (start_congr fun j hj => he j (Nat.le_of_lt_succ hj)).symm

/-- The part of a slice lies in the slice, so the parts do not overlap on the disk. -/
theorem Partition.Tiled.disjoint (h : P.Tiled n specs) : (P.tiling specs).Disjoint := by
  intro i j hi hj hne
  have hi' : i ≤ P.nsub := Nat.le_of_lt_succ hi
  have hj' : j ≤ P.nsub := Nat.le_of_lt_succ hj
  have hroomi := (h.part i hi').room
  have hroomj := (h.part j hj').room
  simp only [Partition.tiling_base, Partition.tiling_len]
  rcases P.disjoint i j hi' hj' hne with hd | hd
  · left; omega
  · right; omega

/-- **No part of the image lies in a reserved area.** -/
theorem Partition.Tiled.addr_not_reserved (h : P.Tiled n specs) {b : ℕ} (hb : b < 2048 * n) :
    ¬ P.InReserved ((P.tiling specs).addr b) := by
  rintro ⟨j, hj, hle, hlt⟩
  have hb' : b < (P.tiling specs).total := by rw [h.total]; exact hb
  have hmem := Tiling.addr_mem hb'
  have hi : (P.tiling specs).tileOf b ≤ P.nsub := Nat.le_of_lt_succ (Tiling.tileOf_spec hb').1
  generalize (P.tiling specs).tileOf b = i at hmem hi
  have hroom := (h.part i hi).room
  have hfour := P.room j hj
  simp only [Partition.tiling_base, Partition.tiling_len] at hmem
  by_cases hij : i = j
  · subst hij
    omega
  · rcases P.disjoint i j hi hj hij with hd | hd
    · omega
    · omega

/-- An image has fewer than `2 ^ 28` sectors. -/
theorem Partition.Tiled.lt (h : P.Tiled n specs) : n < 2 ^ 28 := by
  have hlen : ∀ i ∈ Finset.range (P.nsub + 1), (P.tiling specs).len i ≤ 4294967296 := by
    intro i hi
    exact Nat.le_of_lt (h.part i (Nat.le_of_lt_succ (Finset.mem_range.mp hi))).size_lt
  have hsum := Finset.sum_le_card_nsmul _ _ _ hlen
  have htotal := h.total
  rw [Tiling.total, Tiling.start, Partition.tiling_count] at htotal
  rw [htotal, Finset.card_range, nsmul_eq_mul, Nat.cast_id] at hsum
  have := P.nsub_le
  omega

end Layouts

/-! ## 2. The layout of a game -/

/-- How many sectors of an image a slice can hold. -/
def Partition.capacity (P : Partition) (i : ℕ) : ℕ := ((P.slice i).size - reservedSectors i) / 4

/-- How many of the `n` sectors of a game lie in front of slice `i`. -/
def Partition.before (P : Partition) (n : ℕ) : ℕ → ℕ
  | 0 => 0
  | i + 1 => P.before n i + min (P.capacity i) (n - P.before n i)

/-- The layout of a game of `n` sectors. -/
def Partition.layout (P : Partition) (n i : ℕ) : PartSpecs :=
  if i ≤ P.nsub then
    { partOffset := P.before n i
      dataStart := u32 ((P.slice i).start + reservedSectors i : ℕ)
      partSize := min (P.capacity i) (n - P.before n i) * 2048 }
  else {}

theorem Partition.before_le (P : Partition) (n : ℕ) : ∀ i, P.before n i ≤ n
  | 0 => Nat.zero_le n
  | i + 1 => by
    have := P.before_le n i
    rw [Partition.before]
    omega

/-- How much of the game a slice gets: nothing only when nothing is left. -/
theorem Partition.part_spec {P : Partition} {i : ℕ} (hi : i ≤ P.nsub) (remaining : ℕ) :
    4 * min (P.capacity i) remaining + reservedSectors i ≤ (P.slice i).size ∧
      (min (P.capacity i) remaining = 0 → remaining = 0) := by
  have hroom := P.room i hi
  unfold Partition.capacity
  omega

/-- After slices `0 .. i - 1`: their parts are laid out, up to sector `sectorNumber`. -/
structure Partition.LaidTo (P : Partition) (n i sectorNumber : ℕ) (specs : ℕ → PartSpecs) :
    Prop where
  part : ∀ j, j < i → P.PartOk n specs j
  start : (P.tiling specs).start i = 2048 * sectorNumber
  le : sectorNumber ≤ n

theorem Partition.laidTo_zero (P : Partition) (n : ℕ) (specs : ℕ → PartSpecs) :
    P.LaidTo n 0 0 specs where
  part := fun j hj => absurd hj (Nat.not_lt_zero j)
  start := rfl
  le := Nat.zero_le n

/-- One slice more. -/
theorem Partition.LaidTo.step {P : Partition} {n i sn sectors : ℕ} {specs : ℕ → PartSpecs}
    (h : P.LaidTo n i sn specs) (dataStart : ℕ)
    (hle : sectors ≤ n - sn) (hroom : 4 * sectors + reservedSectors i ≤ (P.slice i).size)
    (hzero : sectors = 0 → n - sn = 0) (hlt : sectors < 0x200000) :
    P.LaidTo n (i + 1) (sn + sectors)
      (Function.update specs i
        { partOffset := sn, dataStart := dataStart, partSize := sectors * 2048 }) := by
  have hsame : ∀ j, j < i → specs j = Function.update specs i
      { partOffset := sn, dataStart := dataStart, partSize := sectors * 2048 } j :=
    fun j hj => (Function.update_of_ne (Nat.ne_of_lt hj) _ _).symm
  have hstart := start_congr (P := P) hsame
  have hle' := h.le
  refine ⟨fun j hj => ?_, ?_, by omega⟩
  · rcases Nat.lt_succ_iff_lt_or_eq.mp hj with hj | rfl
    · exact (h.part j hj).congr fun k hk => hsame k (Nat.lt_of_le_of_lt hk hj)
    · rw [h.start] at hstart
      refine ⟨?_, ?_, ?_, ?_, ?_⟩ <;> simp only [Function.update_self, ← hstart]
      · exact Dvd.intro_left sectors rfl
      · omega
      · omega
      · intro h0
        omega
  · rw [Tiling.start_succ, ← hstart, h.start]
    simp only [Partition.tiling_len, Function.update_self]
    omega

/-- **The layout of a game** lays it out, as far as no slice has too much of it. -/
theorem Partition.laidTo_layout {P : Partition} {n i : ℕ} (hi : i ≤ P.nsub + 1)
    (hsmall : ∀ j, j < i → min (P.capacity j) (n - P.before n j) < 0x200000) :
    P.LaidTo n i (P.before n i) (P.layout n) := by
  induction i with
  | zero => exact P.laidTo_zero n _
  | succ i ih =>
    have hi' : i ≤ P.nsub := Nat.le_of_succ_le_succ hi
    obtain ⟨hroom, hzero⟩ := P.part_spec hi' (n - P.before n i)
    have hlaid := (ih (Nat.le_succ_of_le hi') fun j hj => hsmall j (Nat.lt_succ_of_lt hj)).step
      (u32 ((P.slice i).start + reservedSectors i : ℕ)) (Nat.min_le_right _ _) hroom hzero
      (hsmall i (Nat.lt_succ_self i))
    have hspec : P.layout n i =
        { partOffset := P.before n i
          dataStart := u32 ((P.slice i).start + reservedSectors i : ℕ)
          partSize := min (P.capacity i) (n - P.before n i) * 2048 } := if_pos hi'
    rw [← hspec, Function.update_eq_self] at hlaid
    exact hlaid

/-! ## 3. Format lays the parts out -/

/-- After slices `0 .. i - 1`: each has the part that the layout gives it. -/
structure Laying.Follows {σ : Type} (P : Partition) (n i : ℕ) (l : Laying σ) : Prop where
  sectorNumber : l.sectorNumber = P.before n i
  partSpecs : ∀ j, l.partSpecs j = if j < i then P.layout n j else {}
  small : ∀ j, j < i → min (P.capacity j) (n - P.before n j) < 0x200000

namespace Laying.Follows

variable {σ : Type} {P : Partition} {n i : ℕ} {l : Laying σ}

theorem start (P : Partition) (n : ℕ) (w : σ) : Follows P n 0 { world := w } where
  sectorNumber := rfl
  partSpecs _ := rfl
  small _ hj := absurd hj (Nat.not_lt_zero _)

/-- One slice more. -/
theorem step (h : l.Follows P n i) (result : ℤ) (world : σ)
    (hsmall : min (P.capacity i) (n - P.before n i) < 0x200000) :
    Follows P n (i + 1)
      { result := result
        sectorNumber := P.before n (i + 1)
        partSpecs := Function.update l.partSpecs i (P.layout n i)
        world := world } where
  sectorNumber := rfl
  partSpecs j := by
    show Function.update l.partSpecs i (P.layout n i) j = _
    by_cases hj : j = i
    · rw [hj, Function.update_self, if_pos (Nat.lt_succ_self i)]
    · rw [Function.update_of_ne hj, h.partSpecs j]
      by_cases hlt : j < i
      · rw [if_pos hlt, if_pos (Nat.lt_succ_of_lt hlt)]
      · rw [if_neg hlt, if_neg (by omega)]
  small j hj := by
    rcases Nat.lt_succ_iff_lt_or_eq.mp hj with hj | rfl
    · exact h.small j hj
    · exact hsmall

/-- After all slices. -/
theorem partSpecs_eq (h : l.Follows P n (P.nsub + 1)) : l.partSpecs = P.layout n := by
  funext j
  rw [h.partSpecs j]
  split
  · rfl
  · rename_i hj
    rw [Partition.layout, if_neg (by omega)]

theorem laidTo (h : l.Follows P n (P.nsub + 1)) :
    P.LaidTo n (P.nsub + 1) l.sectorNumber l.partSpecs := by
  rw [h.partSpecs_eq, h.sectorNumber]
  exact Partition.laidTo_layout le_rfl h.small

end Laying.Follows

section Format

variable {σ : Type} {io : IomanX σ} {geo : CStr → Partition} {view : σ → ApaView}

theorem sectorsInPart_eq {P : Partition} {i : ℕ} {size : ℤ} (hi : i ≤ P.nsub)
    (hsize : u32 size = (P.slice i).size) (remaining : ℕ) :
    sectorsInPart i size remaining = min (P.capacity i) remaining := by
  have hroom := P.room i hi
  have hlt := P.size_lt i hi
  unfold sectorsInPart Partition.capacity
  unfold u32 at hsize ⊢
  simp only
  split <;> omega

/-- **The loop of `hdlfs_format`** fails, or lays out all slices; it changes nothing.  The induction
is on the slices that are left. -/
theorem layParts_follows (laws : HeaderLaws io geo view) {fd : ℤ} {dev : CStr} {n : ℕ}
    (hn : n < 2 ^ 32) : ∀ (k i : ℕ) (l : Laying σ), i + k = (geo dev).nsub + 1 →
      (view l.world).on fd = some dev → l.Follows (geo dev) n i →
      view (layParts io fd n k i l).world = view l.world ∧
      (0 ≤ (layParts io fd n k i l).result →
        (layParts io fd n k i l).Follows (geo dev) n ((geo dev).nsub + 1)) := by
  intro k
  induction k with
  | zero =>
    intro i l hik _ hl
    obtain rfl : i = (geo dev).nsub + 1 := hik
    exact ⟨rfl, fun _ => hl⟩
  | succ k ih =>
    intro i l hik hon hl
    have hi : i ≤ (geo dev).nsub := by omega
    obtain ⟨hstart, hv₁⟩ := laws.hiocgetpartstart fd dev i l.world hon hi
    have hon₁ : (view (io (.hiocgetpartstart fd i) l.world).2).on fd = some dev := by
      rw [hv₁]; exact hon
    obtain ⟨hsize, hv₂⟩ := laws.hiocgetsize fd dev i _ hon₁ hi
    have hbefore := (geo dev).before_le n i
    have hnext := (geo dev).before_le n (i + 1)
    have hsn := hl.sectorNumber
    have hleft : u32 (n - l.sectorNumber) = n - (geo dev).before n i := by
      unfold u32
      omega
    have hsectors := sectorsInPart_eq hi hsize (n - (geo dev).before n i)
    unfold layParts
    simp only [hleft, hsectors]
    split
    · split
      · exact ⟨hv₂.trans hv₁, fun h => absurd h (by decide : ¬ (0 : ℤ) ≤ -22)⟩
      · rename_i hlarge
        have hsmall := Nat.not_le.mp hlarge
        have hsum : u32 (l.sectorNumber + (min ((geo dev).capacity i)
            (n - (geo dev).before n i) : ℕ)) = (geo dev).before n (i + 1) := by
          rw [Partition.before] at hnext ⊢
          unfold u32
          omega
        have hdata : u32 ((io (.hiocgetpartstart fd i) l.world).1.ret + reservedSectors i) =
            u32 (((geo dev).slice i).start + reservedSectors i : ℕ) := by
          unfold u32 at hstart ⊢
          omega
        have hbytes : u32 ((min ((geo dev).capacity i) (n - (geo dev).before n i) : ℕ) * 2048) =
            min ((geo dev).capacity i) (n - (geo dev).before n i) * 2048 := by
          unfold u32
          omega
        have hspec : (geo dev).layout n i =
            { partOffset := l.sectorNumber
              dataStart := u32 (((geo dev).slice i).start + reservedSectors i : ℕ)
              partSize := min ((geo dev).capacity i) (n - (geo dev).before n i) * 2048 } := by
          rw [hsn]
          exact if_pos hi
        rw [hsum, hdata, hbytes, ← hspec]
        obtain ⟨hview, hend⟩ := ih (i + 1) _ (by omega) (by rw [hv₂]; exact hon₁)
          (hl.step (io (.hiocgetpartstart fd i) l.world).1.ret
            (io (.hiocgetsize fd i) (io (.hiocgetpartstart fd i) l.world).2).2 hsmall)
        exact ⟨hview.trans (hv₂.trans hv₁), hend⟩
    · rename_i hneg
      exact ⟨hv₁, fun h => absurd h hneg⟩

/-- The end of a format that returns 0: the loop has laid out all of the image, and the header
is written. -/
theorem writeInfo_stored (laws : HeaderLaws io geo view) {fd : ℤ} {dev : CStr}
    {args : HdlfsFormatArgs} {num : ℤ} {l : Laying σ} (hon : (view l.world).on fd = some dev)
    (hpos : (view l.world).pos fd = hdlGameDataOffset) (h : (writeInfo io fd args num l).1 = 0) :
    0 ≤ l.result ∧ args.numSectors ≤ l.sectorNumber ∧
      (view (writeInfo io fd args num l).2).info dev = args.info num l.partSpecs := by
  unfold writeInfo at h ⊢
  split
  · rename_i hresult
    rw [if_pos hresult] at h
    split
    · rename_i hsmall
      rw [if_pos hsmall] at h
      exact absurd h (by decide : ¬ (-12 : ℤ) = 0)
    · rename_i hfits
      rw [if_neg hfits] at h
      have hret : (io (.write fd (args.info num l.partSpecs) 1024) l.world).1.ret = 1024 := by
        by_contra hne
        simp only [if_neg hne] at h
        exact absurd h (by decide : ¬ (-5 : ℤ) = 0)
      obtain ⟨p, disk, hview, -⟩ := laws.write fd dev _ l.world hon hpos hret
      refine ⟨hresult, Nat.not_lt.mp hfits, ?_⟩
      simp [hview]
  · rename_i hresult
    rw [if_neg hresult] at h
    exact absurd h.ge hresult

/-- It opens nothing, and writes the header of no other partition. -/
theorem writeInfo_frame (laws : HeaderLaws io geo view) {fd : ℤ} {dev : CStr}
    {args : HdlfsFormatArgs} {num : ℤ} {l : Laying σ} (hon : (view l.world).on fd = some dev)
    (hpos : (view l.world).pos fd = hdlGameDataOffset) (h : (writeInfo io fd args num l).1 = 0) :
    (view (writeInfo io fd args num l).2).on = (view l.world).on ∧
      ∀ j, j ≠ dev →
        (view (writeInfo io fd args num l).2).info j = (view l.world).info j := by
  obtain ⟨hresult, hfits, -⟩ := writeInfo_stored laws hon hpos h
  unfold writeInfo at h ⊢
  rw [if_pos hresult, if_neg (Nat.not_lt.mpr hfits)] at h ⊢
  have hret : (io (.write fd (args.info num l.partSpecs) 1024) l.world).1.ret = 1024 := by
    by_contra hne
    simp only [if_neg hne] at h
    exact absurd h (by decide : ¬ (-5 : ℤ) = 0)
  obtain ⟨p, disk, hview, -⟩ := laws.write fd dev _ l.world hon hpos hret
  refine ⟨by simp only [hview], fun j hj => ?_⟩
  simp only [hview]
  exact Function.update_of_ne hj _ _

/-- What a format that returns 0 has done: the loop has laid out all of the image, its parts are
in the header, and the descriptor is closed. -/
theorem hdlfsFormat_written (laws : HeaderLaws io geo view) {args : HdlfsFormatArgs} {dev : CStr}
    {w w' : σ} (hn : args.numSectors < 2 ^ 32) (h : hdlfsFormat io args dev w = (0, w')) :
    ∃ fd w₂ l, fd = (io (.open dev 2) (io (.devctlMaxsector dev) w).2).1.ret ∧ 0 ≤ fd ∧
      (view w₂).on fd = some dev ∧
      l = layParts io fd args.numSectors ((geo dev).nsub + 1) 0 { world := w₂ } ∧
      0 ≤ l.result ∧ args.numSectors ≤ l.sectorNumber ∧
      (view w').info dev = args.info ((geo dev).nsub + 1) l.partSpecs ∧
      (∀ j, j ≠ dev → (view w').info j = (view w).info j) ∧
      (view w').on = Function.update (view w).on fd none := by
  unfold hdlfsFormat at h
  simp only at h
  have hview₀ := laws.devctl dev w
  generalize (io (.devctlMaxsector dev) w).2 = w₀ at h hview₀ ⊢
  split at h
  · rename_i hopen
    have hon := laws.opened dev 2 w₀ hopen
    generalize io (.open dev 2) w₀ = o at h hon hopen ⊢
    have hseek := laws.lseek o.1.ret hdlGameDataOffset o.2
    generalize (io (.lseek o.1.ret hdlGameDataOffset) o.2).2 = w₁ at h hseek
    have hon₁ : (view w₁).on o.1.ret = some dev := by simp [hseek, hon]
    have hpos₁ : (view w₁).pos o.1.ret = hdlGameDataOffset := by simp [hseek]
    obtain ⟨hnsub, hview₂⟩ := laws.hiocnsub o.1.ret dev w₁ hon₁
    generalize io (.hiocnsub o.1.ret) w₁ = c at h hnsub hview₂
    have hcount : u32 (c.1.ret + 1) = (geo dev).nsub + 1 := by
      have := (geo dev).nsub_le
      rw [hnsub]
      unfold u32
      omega
    rw [hcount] at h
    have hon₂ : (view c.2).on o.1.ret = some dev := by rw [hview₂]; exact hon₁
    obtain ⟨hview₃, -⟩ := layParts_follows laws hn ((geo dev).nsub + 1) 0 { world := c.2 }
      (Nat.zero_add _) hon₂ (.start _ _ c.2)
    obtain ⟨l, hl⟩ : ∃ l, l = layParts io o.1.ret args.numSectors ((geo dev).nsub + 1) 0
      { world := c.2 } := ⟨_, rfl⟩
    rw [← hl] at h hview₃
    obtain ⟨hret, rfl⟩ := Prod.mk.inj h
    have hview : view l.world = view w₁ := hview₃.trans hview₂
    have hon₃ : (view l.world).on o.1.ret = some dev := by rw [hview]; exact hon₁
    have hpos₃ : (view l.world).pos o.1.ret = hdlGameDataOffset := by rw [hview]; exact hpos₁
    obtain ⟨hresult, hfits, hstored⟩ := writeInfo_stored laws hon₃ hpos₃ hret
    obtain ⟨hon₄, hinfo₄⟩ := writeInfo_frame laws hon₃ hpos₃ hret
    have hclosed := laws.closed o.1.ret (writeInfo io o.1.ret args (c.1.ret + 1) l).2
    refine ⟨_, c.2, l, rfl, hopen, hon₂, hl, hresult, hfits, ?_, fun j hj => ?_, ?_⟩
    · rw [hclosed, hstored, hnsub]
    · simp only [hclosed, hinfo₄ j hj, hview, hseek, hon, hview₀]
    · simp only [hclosed, hon₄, hview, hseek, hon, hview₀, Function.update_idem]
  · rename_i hopen
    have hret := (Prod.mk.inj h).1
    exact absurd hret.ge hopen

/-- The header a format that returns 0 has stored. -/
theorem hdlfsFormat_stored (laws : HeaderLaws io geo view) {args : HdlfsFormatArgs} {dev : CStr}
    {w w' : σ} (hn : args.numSectors < 2 ^ 32) (h : hdlfsFormat io args dev w = (0, w')) :
    ∃ specs, (view w').info dev = args.info ((geo dev).nsub + 1) specs ∧
      (geo dev).Tiled args.numSectors specs := by
  obtain ⟨fd, w₂, l, -, -, hon, hl, hresult, hfits, hinfo, -, -⟩ := hdlfsFormat_written laws hn h
  obtain ⟨-, hfollows⟩ := layParts_follows laws hn ((geo dev).nsub + 1) 0 { world := w₂ }
    (Nat.zero_add _) hon (.start _ _ w₂)
  rw [← hl] at hfollows
  have hall := (hfollows hresult).laidTo
  refine ⟨l.partSpecs, hinfo, fun i hi => hall.part i (Nat.lt_succ_of_le hi), ?_⟩
  have htotal : ((geo dev).tiling l.partSpecs).total = 2048 * l.sectorNumber := hall.start
  rw [Nat.le_antisymm hall.le hfits] at htotal
  exact htotal

/-- **A format that returns 0 has stored a header whose parts tile the image.** -/
theorem hdlfsFormat_tiled (laws : HeaderLaws io geo view) {args : HdlfsFormatArgs} {dev : CStr}
    {w w' : σ} (hn : args.numSectors < 2 ^ 32) (h : hdlfsFormat io args dev w = (0, w')) :
    (geo dev).Tiled args.numSectors ((view w').info dev).partSpecs := by
  obtain ⟨specs, hinfo, htiled⟩ := hdlfsFormat_stored laws hn h
  rw [hinfo]
  exact htiled

/-! ## 4. Mount loads it -/

/-- A descriptor right after a mount. -/
structure Loaded (P : Partition) (info : HdlGameInfo) (f : HdlfsFileDescriptor) : Prop where
  mounted : 0 ≤ f.mountFD
  numPartitions : f.numPartitions = P.nsub + 1
  offset : f.offset = 0
  currentPartNum : f.currentPartNum = 0
  relativeSectorNumber : f.relativeSectorNumber = 0
  partSpecs : ∀ i, i < 65 → f.partSpecs i = info.partSpecs i

/-- Adding up the sizes changes nothing. -/
theorem view_addSizes (laws : HeaderLaws io geo view) {fd : ℤ} {dev : CStr} :
    ∀ {k part size : ℕ} {w : σ}, part + k = (geo dev).nsub + 1 → (view w).on fd = some dev →
      view (addSizes io fd k part size w).2 = view w := by
  intro k
  induction k with
  | zero =>
    intro part size w _ _
    rfl
  | succ k ih =>
    intro part size w hpart hon
    have hview := (laws.hiocgetsize fd dev part w hon (by omega)).2
    unfold addSizes
    rw [ih (by omega) (by rw [hview]; exact hon), hview]

/-- Reading the header through a descriptor that is open on `dev` fills it in, or fails. -/
theorem readInfo_loaded (laws : HeaderLaws io geo view) {unit : ℕ} {dev : CStr}
    {f : HdlfsFileDescriptor} {w : σ} (hmounted : 0 ≤ f.mountFD)
    (hon : (view w).on f.mountFD = some dev) (hret : 0 ≤ (readInfo io unit f w).1) :
    Loaded (geo dev) ((view w).info dev) (readInfo io unit f w).2.1 ∧
      (view (readInfo io unit f w).2.2).on (readInfo io unit f w).2.1.mountFD = some dev := by
  unfold readInfo at hret ⊢
  simp only at hret ⊢
  have hseek := laws.lseek f.mountFD hdlGameDataOffset w
  generalize (io (.lseek f.mountFD hdlGameDataOffset) w).2 = w₁ at hret hseek ⊢
  have hon₁ : (view w₁).on f.mountFD = some dev := by simp [hseek, hon]
  have hpos₁ : (view w₁).pos f.mountFD = hdlGameDataOffset := by simp [hseek]
  have hinfo₁ : (view w₁).info = (view w).info := by simp [hseek]
  obtain ⟨hread, p, hview₂⟩ := laws.read f.mountFD dev w₁ hon₁ hpos₁
  generalize io (.read f.mountFD 1024) w₁ = r at hret hread hview₂ ⊢
  rcases hread with ⟨hfull, hinfo⟩ | hneg
  · rw [if_pos hfull]
    have hon₂ : (view r.2).on f.mountFD = some dev := by simp [hview₂, hon₁]
    obtain ⟨hnsub, hview₃⟩ := laws.hiocnsub f.mountFD dev r.2 hon₂
    generalize io (.hiocnsub f.mountFD) r.2 = c at hnsub hview₃ ⊢
    have hcount : u16 (c.1.ret + 1) = (geo dev).nsub + 1 := by
      have := (geo dev).nsub_le
      rw [hnsub]
      unfold u16
      omega
    have hon₃ : (view c.2).on f.mountFD = some dev := by rw [hview₃]; exact hon₂
    rw [hcount]
    refine ⟨⟨hmounted, rfl, rfl, rfl, rfl, fun i hi => ?_⟩, ?_⟩
    · simp only [if_pos hi, hinfo, hinfo₁]
    · rw [view_addSizes laws (Nat.zero_add _) hon₃]
      exact hon₃
  · rw [if_neg (by omega)] at hret
    exact absurd hneg (Int.not_lt.mpr hret)

/-- **A mount that succeeds has loaded the layout that is stored**, and stands at the start of
the image. -/
theorem hdlfsMount_loaded (laws : HeaderLaws io geo view) {file : IopFile} {dev : CStr}
    {flags : ℕ} {d d' : Driver σ} {ret : ℤ} (h : hdlfsMount io file dev flags d = (ret, d'))
    (hret : 0 ≤ ret) :
    file.unit < 2 ∧ Loaded (geo dev) ((view d.world).info dev) (d'.fdList file.unit) ∧
      (view d'.world).on (d'.fdList file.unit).mountFD = some dev := by
  unfold hdlfsMount at h
  split at h
  · rename_i hunit
    simp only at h
    have hstat := laws.getstat dev d.world
    generalize io (.getstat dev) d.world = s at h hstat
    generalize (if flags = 0 then 3 else 1) = mode at h
    split at h
    · split at h
      · obtain ⟨rfl, rfl⟩ := Prod.mk.inj h
        simp only [Function.update_self]
        split at hret
        · rename_i hopen
          have hview := laws.opened dev mode s.2 hopen
          have hon : (view (io (.open dev mode) s.2).2).on (io (.open dev mode) s.2).1.ret
              = some dev := by simp [hview]
          have hinfo : (view (io (.open dev mode) s.2).2).info = (view d.world).info := by
            simp [hview, hstat]
          have hloaded := readInfo_loaded laws
            (f := { d.fdList file.unit with mountFD := (io (.open dev mode) s.2).1.ret })
            hopen hon hret
          rw [hinfo] at hloaded
          rw [if_pos hopen]
          exact ⟨hunit, hloaded⟩
        · rename_i hopen
          exact absurd hret hopen
      · obtain ⟨rfl, -⟩ := Prod.mk.inj h
        exact absurd hret (by decide)
    · rename_i hneg
      obtain ⟨rfl, -⟩ := Prod.mk.inj h
      exact absurd hret hneg
  · obtain ⟨rfl, -⟩ := Prod.mk.inj h
    exact absurd hret (by decide)

end Format

end PfsShell.Hdlfs
