/-
# The figures of `df`

`do_df` computes in `unsigned int`, as it prints: the sizes in GiB or MiB, and the percentage in
use.  On a disk it multiplies the used sectors by 100 before it divides; on a partition it also
multiplies the zone size by the number of free zones, in bytes.  Both products wrap around on disks
that exist: at 42949673 sectors in use, which are 20.5 GiB, and at 4 GiB of free zones.

* `doDf_disk_iff`, `doDf_partition_iff`: where the figures are the exact ones;
* `doDf_exact_iff`: both.
-/
import PfsShell.Shell.Listings

namespace PfsShell.Shell

open PfsShell.Lib

variable {σ : Type}

/-! ## 1. Exact figures -/

/-- The sectors of a unit. -/
def SizeUnit.sectors : SizeUnit → ℤ
  | .miB => 2048
  | .giB => 2048 * 1024

/-- What `df` says of `total` sectors of which `free` are free, computed without wraparound: the
three sizes, each rounded down to the unit, and the percentage. -/
structure ExactFigures (total free : ℤ) (sizeUnit : SizeUnit) (size used avail capacity : UInt32) :
    Prop where
  size_eq : (size.toNat : ℤ) = total / sizeUnit.sectors
  used_eq : (used.toNat : ℤ) = (total - free) / sizeUnit.sectors
  avail_eq : (avail.toNat : ℤ) = free / sizeUnit.sectors
  capacity_eq : (capacity.toNat : ℤ) = 100 * (total - free) / total

/-- The command ends with 0, and has printed the exact figures of `device`. -/
def PrintsExact (s : Session σ) (device : CStr) (total free : ℤ) (run : Outcome σ) : Prop :=
  ∃ t sizeUnit size used avail capacity, run = some (0, t) ∧
    t.said = s.said ++ [.df device sizeUnit size used avail capacity] ∧
      ExactFigures total free sizeUnit size used avail capacity

theorem printsExact_iff {s t : Session σ} {device : CStr} {total free : ℤ} {sizeUnit : SizeUnit}
    {size used avail capacity : UInt32}
    (hsaid : t.said = s.said ++ [.df device sizeUnit size used avail capacity]) :
    PrintsExact s device total free (some (0, t)) ↔
      ExactFigures total free sizeUnit size used avail capacity := by
  constructor
  · rintro ⟨t', u, size', used', avail', capacity', hrun, hsaid', hexact⟩
    obtain rfl : t = t' := (Prod.ext_iff.mp (Option.some.inj hrun)).2
    rw [hsaid, List.append_cancel_left_eq] at hsaid'
    cases hsaid'
    exact hexact
  · exact fun hexact => ⟨t, _, _, _, _, _, rfl, hsaid, hexact⟩

/-- **Where a product that wraps around does no harm**: a quotient by no more than the modulus
tells whether it has. -/
theorem mod_div_eq_iff {a d m : ℕ} (hd : 0 < d) (hdm : d ≤ m) : a % m / d = a / d ↔ a < m := by
  constructor
  · intro h
    by_contra hge
    have hsub : a % m + d ≤ a := by
      have hle : a % m ≤ a - m := by
        rw [Nat.mod_eq_sub_mod (Nat.le_of_not_lt hge)]
        exact Nat.mod_le _ _
      omega
    have hdiv : (a % m + d) / d ≤ a / d := Nat.div_le_div_right hsub
    rw [Nat.add_div_right _ hd] at hdiv
    omega
  · intro h
    rw [Nat.mod_eq_of_lt h]

/-! ## 2. A disk -/

/-- The entries that `df` counts: neither empty nor sub-partitions. -/
def Counted (de : IoxDirent) : Prop := de.stat.mode ≠ 0 ∧ de.stat.attr = 0

instance : DecidablePred Counted := fun de =>
  inferInstanceAs (Decidable (de.stat.mode ≠ 0 ∧ de.stat.attr = 0))

/-- The sizes of the partitions, added up. -/
def sectorsOf (es : List IoxDirent) : ℕ :=
  ((es.filter fun de => Counted de).map fun de => de.stat.private1.toNat).sum

theorem sectorsOf_cons (de : IoxDirent) (es : List IoxDirent) :
    sectorsOf (de :: es) =
      (if Counted de then de.stat.private1.toNat else 0) + sectorsOf es := by
  by_cases hde : Counted de
  · rw [sectorsOf, List.filter_cons_of_pos (by simpa using hde), if_pos hde]
    exact List.sum_cons
  · rw [sectorsOf, List.filter_cons_of_neg (by simpa using hde), if_neg hde]
    exact (Nat.zero_add _).symm

/-- `used_sectors`, an `unsigned int`. -/
theorem usedBy_toNat (es : List IoxDirent) : (usedBy es).toNat = sectorsOf es % 2 ^ 32 := by
  have hfrom : ∀ used : UInt32, (es.foldl (fun used de => if Counted de
      then used + de.stat.private1 else used) used).toNat =
        (used.toNat + sectorsOf es) % 2 ^ 32 := by
    induction es with
    | nil => exact fun used => (Nat.mod_eq_of_lt used.toNat_lt).symm
    | cons de es ih =>
      intro used
      rw [List.foldl_cons, ih, sectorsOf_cons]
      by_cases hde : Counted de
      · rw [if_pos hde, if_pos hde, UInt32.toNat_add, Nat.mod_add_mod, Nat.add_assoc]
      · rw [if_neg hde, if_neg hde, Nat.zero_add]
  refine (hfrom 0).trans ?_
  rw [UInt32.toNat_zero, Nat.zero_add]

/-- A disk that is looked at with `df` while nothing is mounted: its sectors can be counted, and it
has room for its partitions. -/
structure Disk (io : IomanX σ) (s : Session σ) (es : List IoxDirent) : Prop where
  not_mounted : s.ctx.mount = false
  opens : 0 ≤ (io (.dopen hdd) s.world).1.ret
  directory : ∃ left last, Directory (dread io (io (.dopen hdd) s.world).1.ret) left last ∧
    (last = 0 ∨ last = -1) ∧ left (io (.dopen hdd) s.world).2 = some es
  total_le : s.totalSectors.toNat + 1 ≤ 2 ^ 32 - 1
  used_le : sectorsOf es ≤ s.totalSectors.toNat + 1

section Frame

variable {io : IomanX σ} {dh : ℤ}

/-- The loop of `df` prints nothing, and leaves the size of the disk alone. -/
theorem usedSectors_frame (fuel : ℕ) : ∀ {de : IoxDirent} {used : UInt32} {s : Session σ}
    {r : UInt32 × Session σ}, usedSectors io dh fuel de used s = some r →
      r.2.totalSectors = s.totalSectors ∧ r.2.said = s.said := by
  induction fuel with
  | zero =>
    intro de used s r h
    cases h
  | succ fuel ih =>
    intro de used s r h
    by_cases hgo : Continues (s.call io (.dread dh de)).1.ret
    · obtain ⟨htotal, hsaid⟩ := ih ((if_pos hgo).symm.trans h)
      exact ⟨htotal, hsaid⟩
    · obtain rfl := Option.some.inj ((if_neg hgo).symm.trans h)
      exact ⟨rfl, rfl⟩

end Frame

section DiskFigures

variable {io : IomanX σ} {uninit : IoxDirent} {s : Session σ} {es : List IoxDirent}

/-- What `do_df` does after its loop. -/
def dfDisk (used : UInt32) (s : Session σ) : Outcome σ :=
  if s.totalSectors + 1 = 0 then none
  else
    some (0, s.say (.df hdd .giB ((s.totalSectors + 1) / (2048 * 1024)) (used / (2048 * 1024))
      ((s.totalSectors + 1 - used) / (2048 * 1024)) (used * 100 / (s.totalSectors + 1))))

theorem doDf_disk (hmount : s.ctx.mount = false) (hopen : 0 ≤ (io (.dopen hdd) s.world).1.ret)
    (fuel : ℕ) : doDf io uninit fuel s =
      (usedSectors io (io (.dopen hdd) s.world).1.ret fuel uninit 0
        (s.call io (.dopen hdd)).2).bind fun r =>
          dfDisk r.1 (r.2.call io (.close (io (.dopen hdd) s.world).1.ret)).2 := by
  rw [doDf, if_neg (by rw [hmount]; exact Bool.false_ne_true)]
  exact if_neg (not_lt.mpr hopen)

/-- The figures of a disk, as `unsigned int`: all but the percentage are exact. -/
theorem dfDisk_exact_iff (used : UInt32) (t : Session σ)
    (htotal : t.totalSectors.toNat + 1 ≤ 2 ^ 32 - 1) (hused : used.toNat ≤ t.totalSectors.toNat + 1) :
    PrintsExact t hdd (t.totalSectors.toNat + 1 : ℕ) ((t.totalSectors.toNat + 1 : ℕ) - used.toNat)
        (dfDisk used t) ↔ 100 * used.toNat < 2 ^ 32 := by
  have hsize : (t.totalSectors + 1).toNat = t.totalSectors.toNat + 1 := by
    rw [UInt32.toNat_add]
    exact Nat.mod_eq_of_lt (Nat.lt_of_le_pred (by decide) htotal)
  have hne : t.totalSectors + 1 ≠ 0 := by
    intro h
    rw [h] at hsize
    exact absurd hsize (Nat.succ_ne_zero _).symm
  have hfree : (t.totalSectors + 1 - used).toNat = t.totalSectors.toNat + 1 - used.toNat := by
    rw [UInt32.toNat_sub_of_le _ _ (UInt32.le_iff_toNat_le.mpr (by omega)), hsize]
  have hcapacity : ((used * 100 / (t.totalSectors + 1)).toNat : ℤ) =
      100 * ((t.totalSectors.toNat + 1 : ℕ) -
        ((t.totalSectors.toNat + 1 : ℕ) - used.toNat : ℤ)) / (t.totalSectors.toNat + 1 : ℕ) ↔
        100 * used.toNat < 2 ^ 32 := by
    have hcast : (100 * (used.toNat : ℤ)) / (t.totalSectors.toNat + 1 : ℕ) =
        (100 * used.toNat / (t.totalSectors.toNat + 1) : ℕ) := rfl
    rw [sub_sub_cancel, hcast, Nat.cast_inj, UInt32.toNat_div, UInt32.toNat_mul, hsize,
      Nat.mul_comm]
    exact mod_div_eq_iff (Nat.succ_pos _) (by omega)
  rw [dfDisk, if_neg hne, printsExact_iff rfl, ← hcapacity]
  constructor
  · exact ExactFigures.capacity_eq
  · intro hcap
    constructor
    · rw [UInt32.toNat_div, hsize]
      exact Int.natCast_ediv _ _
    · rw [UInt32.toNat_div, sub_sub_cancel]
      exact Int.natCast_ediv _ _
    · rw [UInt32.toNat_div, hfree, ← Int.ofNat_sub hused]
      exact Int.natCast_ediv _ _
    · exact hcap

/-- **A disk**: the figures are exact exactly when a hundred times the used sectors fit into an
`unsigned int`. -/
theorem doDf_disk_iff (h : Disk io s es) (uninit : IoxDirent) :
    (∃ fuel, PrintsExact s hdd (s.totalSectors.toNat + 1 : ℕ)
      ((s.totalSectors.toNat + 1 : ℕ) - sectorsOf es) (doDf io uninit fuel s)) ↔
        100 * sectorsOf es < 2 ^ 32 := by
  obtain ⟨left, last, hdir, hlast, hleft⟩ := h.directory
  obtain ⟨fuel₀, r, hr, hused⟩ := (usedSectors_iff (s := (s.call io (.dopen hdd)).2) hdir hleft
    uninit).mpr hlast
  have htotal := h.total_le
  have hle := h.used_le
  have hsum : (usedBy es).toNat = sectorsOf es := by
    rw [usedBy_toNat]
    exact Nat.mod_eq_of_lt (by omega)
  obtain ⟨hsectors, hsaid⟩ := usedSectors_frame fuel₀ hr
  -- the session in which the figures are printed
  generalize ht : (r.2.call io (.close (io (.dopen hdd) s.world).1.ret)).2 = t
  have htsectors : t.totalSectors = s.totalSectors := by
    rw [← ht]
    exact hsectors
  have htsaid : t.said = s.said := by
    rw [← ht]
    exact hsaid
  have hfigures := dfDisk_exact_iff (usedBy es) t
    (by rw [htsectors]; exact htotal) (by rw [htsectors, hsum]; exact hle)
  rw [htsectors, hsum] at hfigures
  have hsame : ∀ run, PrintsExact t hdd (s.totalSectors.toNat + 1 : ℕ)
      ((s.totalSectors.toNat + 1 : ℕ) - sectorsOf es) run ↔
        PrintsExact s hdd (s.totalSectors.toNat + 1 : ℕ)
          ((s.totalSectors.toNat + 1 : ℕ) - sectorsOf es) run := by
    intro run
    rw [PrintsExact, PrintsExact, htsaid]
  rw [← hfigures, hsame]
  constructor
  · rintro ⟨fuel, hexact⟩
    rw [doDf_disk h.not_mounted h.opens] at hexact
    obtain ⟨t', u, size, used, avail, capacity, hrun, -⟩ := id hexact
    obtain ⟨r', hr', -⟩ := Option.bind_eq_some_iff.mp hrun
    rw [usedSectors_eq_drain] at hr hr'
    obtain rfl := drain_unique fuel hr' hr
    rw [usedSectors_eq_drain, hr', Option.bind_some, ht, hused] at hexact
    exact hexact
  · intro hexact
    refine ⟨fuel₀, ?_⟩
    rw [doDf_disk h.not_mounted h.opens, hr, Option.bind_some, ht, hused]
    exact hexact

end DiskFigures

/-! ## 3. A mounted partition -/

/-- The sectors that `do_df` takes a mounted partition for, without wraparound. -/
def pfsSectors (stat : IoxStat) : ℤ := stat.private1.toNat - 4 * stat.private0.toNat - 8192

/-- What `iomanX_getstat` and the two `iomanX_devctl` of `do_df` answer. -/
structure PartitionAnswers where
  stat : IoxStat
  zonesz : UInt32
  zonefree : UInt32

/-- The free sectors, without wraparound. -/
def PartitionAnswers.free (a : PartitionAnswers) : ℤ :=
  ((a.zonesz.toNat * a.zonefree.toNat / 512 : ℕ) : ℤ)

/-- A mounted partition that is looked at with `df`: it is asked successfully, is larger than what
`do_df` takes off, and has no more free zones than it has room for. -/
structure Partition (io : IomanX σ) (s : Session σ) (a : PartitionAnswers) : Prop where
  mounted : s.ctx.mount = true
  getstat : 0 ≤ (s.call io (.getstat s.ctx.mountPoint)).1.ret
  stat_eq : (s.call io (.getstat s.ctx.mountPoint)).1.stat = a.stat
  zonesz_eq : UInt32.ofInt ((s.call io (.getstat s.ctx.mountPoint)).2.call io
    (.devctl pfs pdiocZonesz)).1.ret = a.zonesz
  zonefree_eq : UInt32.ofInt (((s.call io (.getstat s.ctx.mountPoint)).2.call io
    (.devctl pfs pdiocZonesz)).2.call io (.devctl pfs pdiocZonefree)).1.ret = a.zonefree
  sectors_pos : 0 < pfsSectors a.stat
  free_le : a.zonesz.toNat * a.zonefree.toNat ≤ 512 * a.stat.private1.toNat

/-- What `do_df` prints for `total` sectors of which `free` are free. -/
def dfPartition (total free : UInt32) (s : Session σ) : Outcome σ :=
  if total = 0 then none
  else
    let device := s.ctx.mountPoint.drop 5
    let capacity := (total - free) * 100 / total
    if total / 2048 < 10000 then
      some (0, s.say (.df device .miB (total / 2048) ((total - free) / 2048) (free / 2048)
        capacity))
    else
      some (0, s.say (.df device .giB (total / (2048 * 1024)) ((total - free) / (2048 * 1024))
        (free / (2048 * 1024)) capacity))

section PartitionFigures

variable {io : IomanX σ} {s : Session σ} {a : PartitionAnswers}

theorem doDf_partition (h : Partition io s a) (uninit : IoxDirent) (fuel : ℕ) :
    doDf io uninit fuel s =
      dfPartition (a.stat.private1 - a.stat.private0 * 4 - 4 * 1024 * 2)
        (a.zonesz * a.zonefree / 512)
        (((s.call io (.getstat s.ctx.mountPoint)).2.call io (.devctl pfs pdiocZonesz)).2.call io
          (.devctl pfs pdiocZonefree)).2 := by
  rw [doDf, if_pos h.mounted, ← h.stat_eq, ← h.zonesz_eq, ← h.zonefree_eq]
  exact if_neg (not_lt.mpr h.getstat)

/-- `total_pfs_sectors` does not wrap around. -/
theorem pfsSectors_eq {stat : IoxStat} (h : 0 < pfsSectors stat) :
    ((stat.private1 - stat.private0 * 4 - 4 * 1024 * 2).toNat : ℤ) = pfsSectors stat := by
  have hlt := stat.private1.toNat_lt
  rw [pfsSectors] at h ⊢
  have hfour : (4 : UInt32).toNat = 4 := rfl
  have hmul : (stat.private0 * 4).toNat = stat.private0.toNat * 4 := by
    rw [UInt32.toNat_mul, hfour]
    exact Nat.mod_eq_of_lt (by omega)
  have hsub : (stat.private1 - stat.private0 * 4).toNat =
      stat.private1.toNat - stat.private0.toNat * 4 := by
    rw [UInt32.toNat_sub_of_le _ _ (UInt32.le_iff_toNat_le.mpr (by omega)), hmul]
  have hconst : (4 * 1024 * 2 : UInt32).toNat = 8192 := rfl
  rw [UInt32.toNat_sub_of_le _ _ (UInt32.le_iff_toNat_le.mpr (by omega)), hsub, hconst]
  omega

/-- The figures of a partition in `unsigned int`, in a unit of at most 4 GiB. -/
theorem exactFigures_iff (total zonesz zonefree sectors : UInt32) {sizeUnit : SizeUnit}
    (hsectors : (sectors.toNat : ℤ) = sizeUnit.sectors) (hpos : 0 < sectors.toNat)
    (hle : sectors.toNat ≤ 2 ^ 23) (htotal : 0 < total.toNat) :
    ExactFigures total.toNat (zonesz.toNat * zonefree.toNat / 512 : ℕ) sizeUnit (total / sectors)
        ((total - zonesz * zonefree / 512) / sectors) (zonesz * zonefree / 512 / sectors)
        ((total - zonesz * zonefree / 512) * 100 / total) ↔
      zonesz.toNat * zonefree.toNat < 2 ^ 32 ∧ zonesz.toNat * zonefree.toNat / 512 ≤ total.toNat ∧
        100 * (total.toNat - zonesz.toNat * zonefree.toNat / 512) < 2 ^ 32 := by
  -- the product wraps around by multiples of the unit
  have havail : ((zonesz * zonefree / 512 / sectors).toNat : ℤ) =
      (zonesz.toNat * zonefree.toNat / 512 : ℕ) / sizeUnit.sectors ↔
        zonesz.toNat * zonefree.toNat < 2 ^ 32 := by
    have hconst : (512 : UInt32).toNat = 512 := rfl
    rw [← hsectors, UInt32.toNat_div, UInt32.toNat_div, UInt32.toNat_mul, hconst,
      ← Int.natCast_ediv, Nat.cast_inj, Nat.div_div_eq_div_mul, Nat.div_div_eq_div_mul]
    exact mod_div_eq_iff (by omega) (by omega)
  have hfree : zonesz.toNat * zonefree.toNat < 2 ^ 32 →
      (zonesz * zonefree / 512).toNat = zonesz.toNat * zonefree.toNat / 512 := by
    intro hlt
    rw [UInt32.toNat_div, UInt32.toNat_mul, Nat.mod_eq_of_lt hlt]
    rfl
  have hused : zonesz.toNat * zonefree.toNat < 2 ^ 32 →
      zonesz.toNat * zonefree.toNat / 512 ≤ total.toNat →
        (total - zonesz * zonefree / 512).toNat =
          total.toNat - zonesz.toNat * zonefree.toNat / 512 := by
    intro hlt hfits
    rw [UInt32.toNat_sub_of_le _ _ (UInt32.le_iff_toNat_le.mpr (by rw [hfree hlt]; exact hfits)),
      hfree hlt]
  generalize zonesz.toNat * zonefree.toNat / 512 = free at *
  have hcapacity : zonesz.toNat * zonefree.toNat < 2 ^ 32 → free ≤ total.toNat →
      ((((total - zonesz * zonefree / 512) * 100 / total).toNat : ℤ) =
        100 * (total.toNat - free : ℤ) / total.toNat ↔ 100 * (total.toNat - free) < 2 ^ 32) := by
    intro hlt hfits
    have hcast : 100 * (total.toNat - free : ℤ) / total.toNat =
        (100 * (total.toNat - free) / total.toNat : ℕ) := by
      rw [← Int.ofNat_sub hfits]
      rfl
    rw [hcast, Nat.cast_inj, UInt32.toNat_div, UInt32.toNat_mul, hused hlt hfits, Nat.mul_comm]
    exact mod_div_eq_iff htotal (Nat.le_of_lt total.toNat_lt)
  constructor
  · intro h
    have hlt := havail.mp h.avail_eq
    have hfits : free ≤ total.toNat := by
      by_contra hmore
      have hneg : (total.toNat - free : ℤ) / sizeUnit.sectors < 0 :=
        Int.ediv_neg_of_neg_of_pos (by omega) (by omega)
      rw [← h.used_eq] at hneg
      omega
    exact ⟨hlt, hfits, (hcapacity hlt hfits).mp h.capacity_eq⟩
  · rintro ⟨hlt, hfits, hhundred⟩
    constructor
    · rw [UInt32.toNat_div, ← hsectors]
      exact Int.natCast_ediv _ _
    · rw [UInt32.toNat_div, hused hlt hfits, ← hsectors, ← Int.ofNat_sub hfits]
      exact Int.natCast_ediv _ _
    · exact havail.mpr hlt
    · exact (hcapacity hlt hfits).mpr hhundred

/-- **A partition**: the figures are exact exactly when the free bytes fit into an `unsigned int`,
there are no more of them than `do_df` takes the partition for, and a hundred times the used
sectors fit, too. -/
theorem doDf_partition_iff (h : Partition io s a) (uninit : IoxDirent) (fuel : ℕ) :
    PrintsExact s (s.ctx.mountPoint.drop 5) (pfsSectors a.stat) a.free (doDf io uninit fuel s) ↔
      a.zonesz.toNat * a.zonefree.toNat < 2 ^ 32 ∧ a.free ≤ pfsSectors a.stat ∧
        100 * (pfsSectors a.stat - a.free) < 2 ^ 32 := by
  have htotal := pfsSectors_eq h.sectors_pos
  have hpos := h.sectors_pos
  rw [doDf_partition h]
  generalize a.stat.private1 - a.stat.private0 * 4 - 4 * 1024 * 2 = total at htotal ⊢
  rw [← htotal] at hpos ⊢
  have hne : total ≠ 0 := by
    rintro rfl
    exact absurd hpos (lt_irrefl 0)
  have hcond : (a.zonesz.toNat * a.zonefree.toNat < 2 ^ 32 ∧ a.free ≤ total.toNat ∧
      100 * (total.toNat - a.free : ℤ) < 2 ^ 32) ↔
        a.zonesz.toNat * a.zonefree.toNat < 2 ^ 32 ∧
          a.zonesz.toNat * a.zonefree.toNat / 512 ≤ total.toNat ∧
            100 * (total.toNat - a.zonesz.toNat * a.zonefree.toNat / 512) < 2 ^ 32 := by
    rw [PartitionAnswers.free]
    omega
  rw [hcond, dfPartition, if_neg hne]
  split
  · exact (printsExact_iff rfl).trans (exactFigures_iff total a.zonesz a.zonefree 2048 rfl
      (by decide) (by decide) (Int.natCast_pos.mp hpos))
  · exact (printsExact_iff rfl).trans (exactFigures_iff total a.zonesz a.zonefree (2048 * 1024) rfl
      (by decide) (by decide) (Int.natCast_pos.mp hpos))

end PartitionFigures

/-! ## 4. Both -/

/-- **`df`** prints the exact figures

* of a disk exactly when a hundred times its used sectors are less than `2 ^ 32`;
* of a mounted partition exactly when its free zones have less than `2 ^ 32` bytes, are no more
  than the sectors it is taken for, and a hundred times the others are less than `2 ^ 32`. -/
theorem doDf_exact_iff (io : IomanX σ) (uninit : IoxDirent) :
    (∀ s es, Disk io s es →
      ((∃ fuel, PrintsExact s hdd (s.totalSectors.toNat + 1 : ℕ)
        ((s.totalSectors.toNat + 1 : ℕ) - sectorsOf es) (doDf io uninit fuel s)) ↔
          100 * sectorsOf es < 2 ^ 32)) ∧
      ∀ s a fuel, Partition io s a →
        (PrintsExact s (s.ctx.mountPoint.drop 5) (pfsSectors a.stat) a.free
          (doDf io uninit fuel s) ↔
            a.zonesz.toNat * a.zonefree.toNat < 2 ^ 32 ∧ a.free ≤ pfsSectors a.stat ∧
              100 * (pfsSectors a.stat - a.free) < 2 ^ 32) :=
  ⟨fun _ _ h => doDf_disk_iff h uninit, fun _ _ fuel h => doDf_partition_iff h uninit fuel⟩

/-- A disk with the partitions `es`, of which one with the answers `a` is mounted.  Its state is
what the directory still gives. -/
def sampleDisk (es : List IoxDirent) (a : PartitionAnswers) : IomanX (List IoxDirent)
  | .dopen _, _ => ({ ret := 3 }, es)
  | .dread _ _, e :: l => ({ ret := 1, dirent := e }, l)
  | .dread _ de, [] => ({ ret := 0, dirent := de }, [])
  | .getstat _, l => ({ stat := a.stat }, l)
  | .devctl _ cmd, l =>
    ({ ret := if cmd = pdiocZonesz then a.zonesz.toNat else a.zonefree.toNat }, l)
  | _, l => ({}, l)

/-- A partition of a size, as the directory of the disk has it. -/
def samplePartition (sectors : UInt32) : IoxDirent :=
  { stat := { mode := 0x100, private1 := sectors } }

theorem uint32_ofInt_toNat (n : UInt32) : UInt32.ofInt n.toNat = n := by
  have hmod : ((n.toNat : ℤ) % 2 ^ 32).toNat = n.toNat := by
    have hlt := n.toNat_lt
    omega
  rw [UInt32.ofInt, hmod, UInt32.ofNat_toNat]

theorem sampleDisk_disk {es : List IoxDirent} {a : PartitionAnswers}
    {s : Session (List IoxDirent)} (hmount : s.ctx.mount = false)
    (htotal : s.totalSectors.toNat + 1 ≤ 2 ^ 32 - 1)
    (hused : sectorsOf es ≤ s.totalSectors.toNat + 1) : Disk (sampleDisk es a) s es where
  not_mounted := hmount
  opens := by
    show (0 : ℤ) ≤ 3
    decide
  directory := by
    refine ⟨some, 0, ⟨?_, ?_⟩, .inl rfl, rfl⟩
    · intro de w e l hleft
      obtain rfl := Option.some.inj hleft
      exact ⟨Int.zero_lt_one, rfl, rfl⟩
    · intro de w hleft
      obtain rfl := Option.some.inj hleft
      exact ⟨rfl, rfl⟩
  total_le := htotal
  used_le := hused

theorem sampleDisk_partition {es : List IoxDirent} {a : PartitionAnswers}
    {s : Session (List IoxDirent)} (hmount : s.ctx.mount = true) (hpos : 0 < pfsSectors a.stat)
    (hfree : a.zonesz.toNat * a.zonefree.toNat ≤ 512 * a.stat.private1.toNat) :
    Partition (sampleDisk es a) s a where
  mounted := hmount
  getstat := le_refl _
  stat_eq := rfl
  zonesz_eq := uint32_ofInt_toNat _
  zonefree_eq := uint32_ofInt_toNat _
  sectors_pos := hpos
  free_le := hfree

/-- 8 GiB in use on a disk of 40 GB, and 1 GiB in use on a partition of 4 GiB. -/
theorem doDf_exact_iff_8GiB :
    (∃ fuel, PrintsExact { world := [], totalSectors := 78165359 } hdd 78165360
      (78165360 - 16777216)
      (doDf (sampleDisk [samplePartition 16777216] ⟨{}, 0, 0⟩) {} fuel
        { world := [], totalSectors := 78165359 })) ∧
    PrintsExact { world := [], ctx := { mount := true, mountPoint := hdd } } [] 8380416 6291456
      (doDf (sampleDisk [] ⟨{ private1 := 8388608 }, 8192, 393216⟩) {} 0
        { world := [], ctx := { mount := true, mountPoint := hdd } }) :=
  ⟨((doDf_exact_iff (sampleDisk [samplePartition 16777216] ⟨{}, 0, 0⟩) {}).1
      { world := [], totalSectors := 78165359 } [samplePartition 16777216]
      (sampleDisk_disk rfl (by decide) (by decide))).mpr (by decide),
    ((doDf_exact_iff (sampleDisk [] ⟨{ private1 := 8388608 }, 8192, 393216⟩) {}).2
      { world := [], ctx := { mount := true, mountPoint := hdd } }
      ⟨{ private1 := 8388608 }, 8192, 393216⟩ 0
      (sampleDisk_partition rfl (by decide) (by decide))).mpr (by decide)⟩

/-- 24 GiB in use on a disk of 40 GB: `df` prints 9% instead of 64%.  And 8 GiB free on a partition
of 16 GiB: it prints that nothing is. -/
theorem doDf_wraps :
    Disk (sampleDisk [samplePartition 50331648] ⟨{}, 0, 0⟩)
      { world := [], totalSectors := 78165359 } [samplePartition 50331648] ∧
    (∃ t, doDf (sampleDisk [samplePartition 50331648] ⟨{}, 0, 0⟩) {} 2
        { world := [], totalSectors := 78165359 } = some (0, t) ∧
      t.said = [.df hdd .giB 37 24 13 9]) ∧
    ¬ (∃ fuel, PrintsExact { world := [], totalSectors := 78165359 } hdd 78165360
      (78165360 - 50331648)
      (doDf (sampleDisk [samplePartition 50331648] ⟨{}, 0, 0⟩) {} fuel
        { world := [], totalSectors := 78165359 })) ∧
    Partition (sampleDisk [] ⟨{ private1 := 33554432 }, 8192, 1048576⟩)
      { world := [], ctx := { mount := true, mountPoint := hdd } }
      ⟨{ private1 := 33554432 }, 8192, 1048576⟩ ∧
    ¬ PrintsExact { world := [], ctx := { mount := true, mountPoint := hdd } } [] 33546240 16777216
      (doDf (sampleDisk [] ⟨{ private1 := 33554432 }, 8192, 1048576⟩) {} 0
        { world := [], ctx := { mount := true, mountPoint := hdd } }) := by
  have hdisk : Disk (sampleDisk [samplePartition 50331648] ⟨{}, 0, 0⟩)
      { world := [], totalSectors := 78165359 } [samplePartition 50331648] :=
    sampleDisk_disk rfl (by decide) (by decide)
  have hpartition : Partition (sampleDisk [] ⟨{ private1 := 33554432 }, 8192, 1048576⟩)
      { world := [], ctx := { mount := true, mountPoint := hdd } }
      ⟨{ private1 := 33554432 }, 8192, 1048576⟩ :=
    sampleDisk_partition rfl (by decide) (by decide)
  refine ⟨hdisk, ⟨_, rfl, by decide⟩, ?_, hpartition, ?_⟩
  · intro h
    exact absurd ((doDf_disk_iff hdisk {}).mp h) (by decide)
  · intro h
    exact absurd ((doDf_partition_iff hpartition {} 0).mp h) (by decide)

end PfsShell.Shell
