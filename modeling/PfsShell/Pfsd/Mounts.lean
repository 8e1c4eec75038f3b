/-
# The mount table

What MOUNT and UMOUNT do to `g_mountlist_items` and to the mounts of iomanX, and the invariant
that follows: no client has two slots with one prefix, slots agree on the container exactly
when they agree on the device, and every slot's pair is one that iomanX has mounted.

A MOUNT gets its container in one of three ways (`Granted`).  iomanX mounts the device under
the name the client gave; or, that name or the device being busy, a slot with the same device
lends its container; or no slot has the device and the first of `pfs0:` to `pfs31:` that is
free takes it.  In the first and the last case neither the unit nor the device was mounted, so
no slot had either of them; that is what keeps containers and devices in step.
-/
import PfsShell.Pfsd.Iomanx
import PfsShell.Pfsd.Tables

namespace PfsShell.Pfsd

open PfsShell.Lib

variable {σ υ : Type} {io : IomanX σ} {unit : CStr → υ} {mounts : σ → Set (υ × CStr)}
  {s s' t : Daemon σ}

/-! ## 1. How a MOUNT gets its container -/

/-- Neither the unit of this name nor the device is mounted. -/
def Unmounted (unit : CStr → υ) (name dev : CStr) (M : Set (υ × CStr)) : Prop :=
  ∀ m ∈ M, m.1 ≠ unit name ∧ m.2 ≠ dev

/-- The container with which a MOUNT of `dev` as `fsname` succeeded, iomanX having gone from
the mounts of `s` to those of `t`. -/
inductive Granted (io : IomanX σ) (unit : CStr → υ) (mounts : σ → Set (υ × CStr))
    (s t : Daemon σ) (fsname dev : CStr) (flag useshm arglen : CInt) : CStr → Prop
  | direct (hret : (io (mountCall fsname dev flag useshm arglen s) s.world).1.ret = 0)
      (hfree : Unmounted unit fsname dev (mounts s.world))
      (hM : mounts t.world = insert (unit fsname, dev) (mounts s.world)) :
      Granted io unit mounts s t fsname dev flag useshm arglen fsname
  | fallback (i : ℕ) (hi : i < 32) (hfree : Unmounted unit (pfsUnit i) dev (mounts s.world))
      (hM : mounts t.world = insert (unit (pfsUnit i), dev) (mounts s.world)) :
      Granted io unit mounts s t fsname dev flag useshm arglen (pfsUnit i)
  | shared (k : ℕ) (hk : s.Occupied k) (hdev : (s.gMountlistItems k).mStrDevPrefix = dev)
      (hM : mounts t.world = mounts s.world) :
      Granted io unit mounts s t fsname dev flag useshm arglen
        (s.gMountlistItems k).mStrContainerPath

/-- A mount that iomanX accepts was of a unit and a device that were not mounted. -/
theorem MountLaws.unmounted_of_ret (laws : MountLaws io unit mounts) {f d : CStr} {flag : CInt}
    {arg : Option Mem} {len : CInt} {w : σ}
    (h : (io (.scepfsMount f d flag arg len) w).1.ret = 0) : Unmounted unit f d (mounts w) := by
  refine fun m hm => not_or.mp fun hbusy => ?_
  have h16 := laws.busy f d flag arg len w ⟨m, hm, hbusy⟩
  rw [h] at h16
  exact absurd h16 (by decide)

theorem mountFallback_of_ne {devname : CStr} {flag useshm arglen p : CInt} {acc : CInt × CStr}
    (h : acc.1 ≠ -16) : ∀ (k i : ℕ) (s : Daemon σ),
      mountFallback io devname flag useshm arglen p k i acc s = (acc, s)
  | 0, _, _ => rfl
  | _ + 1, _, _ => if_neg h

/-- The fallback loop fails and has mounted nothing, or it has mounted the device on a unit
`pfs<j>:`. -/
theorem mountFallback_spec (laws : MountLaws io unit mounts) {devname : CStr}
    {flag useshm arglen p : CInt} : ∀ (k i : ℕ) (acc : CInt × CStr) (s : Daemon σ)
    {ret : CInt} {buf : CStr} {t : Daemon σ}, i + k = 32 → acc.1 ≠ 0 →
      mountFallback io devname flag useshm arglen p k i acc s = ((ret, buf), t) →
      (ret ≠ 0 ∧ mounts t.world = mounts s.world) ∨
      (ret = 0 ∧ ∃ j, j < 32 ∧ buf = pfsUnit j ∧
        Unmounted unit (pfsUnit j) devname (mounts s.world) ∧
        mounts t.world = insert (unit (pfsUnit j), devname) (mounts s.world))
  | 0, i, acc, s, ret, buf, t, _, hacc, h => by
    obtain ⟨rfl, rfl⟩ := Prod.mk.inj h
    exact .inl ⟨hacc, rfl⟩
  | k + 1, i, acc, s, ret, buf, t, hi, hacc, h => by
    unfold mountFallback at h
    split at h
    · by_cases hret : (io (mountCall (pfsUnit i) devname flag useshm arglen s) s.world).1.ret = 0
      · have hret' : (scepfs io p (mountCall (pfsUnit i) devname flag useshm arglen s) s).1.ret
            ≠ -16 := by
          intro h16
          exact absurd (hret.symm.trans h16) (by decide)
        rw [mountFallback_of_ne hret'] at h
        obtain ⟨hacc', rfl⟩ := Prod.mk.inj h
        obtain ⟨rfl, rfl⟩ := Prod.mk.inj hacc'
        exact .inr ⟨hret, i, by omega, rfl, laws.unmounted_of_ret hret,
          laws.mounted _ _ _ _ _ _ hret⟩
      · have hsame : mounts (scepfs io p
            (mountCall (pfsUnit i) devname flag useshm arglen s) s).2.world = mounts s.world :=
          laws.refused _ _ _ _ _ _ hret
        rw [← hsame]
        exact mountFallback_spec laws k (i + 1) _ _ (by omega) hret h
    · obtain ⟨rfl, rfl⟩ := Prod.mk.inj h
      exact .inl ⟨hacc, rfl⟩

/-- **What `mountDevice` finds**: an error, and then iomanX's mounts are as before, or a
container in one of the three ways. -/
theorem mountDevice_spec (laws : MountLaws io unit mounts) {fsname devname : CStr}
    {flag useshm arglen p ret : CInt} {buf : CStr}
    (h : mountDevice io fsname devname flag useshm arglen p s = ((ret, buf), t)) :
    (ret ≠ 0 ∧ mounts t.world = mounts s.world) ∨
    (ret = 0 ∧ Granted io unit mounts s t fsname devname flag useshm arglen buf) := by
  have hne : (-16 : CInt) ≠ 0 := by decide
  by_cases h16 : (io (mountCall fsname devname flag useshm arglen s) s.world).1.ret = -16
  · have h16' : (scepfs io p (mountCall fsname devname flag useshm arglen s) s).1.ret = -16 := h16
    have hsame : mounts (scepfs io p (mountCall fsname devname flag useshm arglen s) s).2.world
        = mounts s.world := laws.refused _ _ _ _ _ _ (h16.symm ▸ hne)
    simp only [mountDevice, if_pos h16'] at h
    split at h
    · rename_i hlt
      obtain ⟨hret, rfl⟩ := Prod.mk.inj h
      obtain ⟨rfl, rfl⟩ := Prod.mk.inj hret
      have hspec := Tables.slotOfDevice_spec hlt
      exact .inr ⟨rfl, .shared _ hspec.1 hspec.2 hsame⟩
    · rcases mountFallback_spec laws 32 0 _ _ rfl (h16'.symm ▸ hne) h with
        ⟨hret, hM⟩ | ⟨hret, j, hj, rfl, hfree, hM⟩
      · exact .inl ⟨hret, hM.trans hsame⟩
      · rw [hsame] at hfree hM
        exact .inr ⟨hret, .fallback j hj hfree hM⟩
  · have h16' : ¬ (scepfs io p (mountCall fsname devname flag useshm arglen s) s).1.ret = -16 :=
      h16
    simp only [mountDevice, if_neg h16'] at h
    obtain ⟨hret, rfl⟩ := Prod.mk.inj h
    obtain ⟨rfl, rfl⟩ := Prod.mk.inj hret
    by_cases h0 : (io (mountCall fsname devname flag useshm arglen s) s.world).1.ret = 0
    · exact .inr ⟨h0, .direct h0 (laws.unmounted_of_ret h0) (laws.mounted _ _ _ _ _ _ h0)⟩
    · exact .inl ⟨h0, laws.refused _ _ _ _ _ _ h0⟩

/-! ## 2. What an act does to the mounts -/

/-- A MOUNT leaves both the table and iomanX's mounts alone, or it fills the first free slot
with the container it was granted. -/
theorem rpcCommandMount_mountlist (laws : MountLaws io unit mounts)
    (fsname devname : CStr) (flag useshm arglen p : CInt) (s : Daemon σ) :
    ((rpcCommandMount io fsname devname flag useshm arglen p s).1 ≠ 0 ∧
      (rpcCommandMount io fsname devname flag useshm arglen p s).2.toTables = s.toTables ∧
      mounts (rpcCommandMount io fsname devname flag useshm arglen p s).2.world
        = mounts s.world) ∨
    ((rpcCommandMount io fsname devname flag useshm arglen p s).1 = 0 ∧
      s.findFreeMountInfo < 32 ∧ 32 ≤ s.slotOfPrefix fsname p ∧
      ∃ buf, Granted io unit mounts s
          (rpcCommandMount io fsname devname flag useshm arglen p s).2
          fsname (cutAt 44 devname) flag useshm arglen buf ∧
        (rpcCommandMount io fsname devname flag useshm arglen p s).2.toTables =
          s.fillSlot s.findFreeMountInfo ⟨p, fsname, buf, cutAt 44 devname⟩) := by
  rcases rpcCommandMount_cases io fsname devname flag useshm arglen p s with
    ⟨ret, buf, t, hret, hframe, hcalls, heq⟩ | ⟨buf, t, hfree, hdup, hframe, hm, heq⟩
  · rw [heq]
    refine .inl ⟨hret, hframe.tables, ?_⟩
    rcases hcalls with rfl | hm
    · rfl
    · rcases mountDevice_spec laws hm with ⟨-, hM⟩ | ⟨h0, -⟩
      · exact hM
      · exact absurd h0 hret
  · rw [heq]
    refine .inr ⟨rfl, hfree, hdup, buf, ?_, rfl⟩
    rcases mountDevice_spec laws hm with ⟨hne, -⟩ | ⟨-, hg⟩
    · exact absurd rfl hne
    · cases hg with
      | direct hret hfree hM => exact .direct hret hfree hM
      | fallback i hi hfree hM => exact .fallback i hi hfree hM
      | shared k hk hdev hM => exact .shared k hk hdev hM

/-- The calls that open or close do not mount. -/
theorem MountLaws.opens (laws : MountLaws io unit mounts) {c : Call} (hc : c.Opens) (w : σ) :
    mounts (io c w).2 = mounts w := by
  refine laws.others c w ?_
  cases c <;> first | exact hc.elim | exact id

theorem MountLaws.closes (laws : MountLaws io unit mounts) {c : Call} {fd : CInt}
    (hc : c.closes = some fd) (w : σ) : mounts (io c w).2 = mounts w := by
  refine laws.others c w ?_
  cases c <;> cases hc <;> exact id

theorem openCommon_mountlist (laws : MountLaws io unit mounts) {mk : CStr → Call}
    (hmk : OpenCall mk) (name : CStr) (p : CInt) (s : Daemon σ) :
    (openCommon io mk name p s).2.gMountlistItems = s.gMountlistItems ∧
      mounts (openCommon io mk name p s).2.world = mounts s.world := by
  have hM := laws.opens (hmk.opens (s.rpcRemapName name p)) s.world
  rcases openCommon_cases io mk name p s with ⟨-, heq⟩ | ⟨-, -, heq⟩ |
    ⟨-, -, ht, hw, -, -⟩
  · rw [heq]; exact ⟨rfl, rfl⟩
  · rw [heq]; exact ⟨rfl, hM⟩
  · exact ⟨by rw [ht]; rfl, by rw [hw]; exact hM⟩

theorem closeCommon_mountlist (laws : MountLaws io unit mounts) {mk : CInt → Call}
    (hmk : CloseCall mk) (fd p : CInt) (s : Daemon σ) :
    (closeCommon io mk fd p s).2.gMountlistItems = s.gMountlistItems ∧
      mounts (closeCommon io mk fd p s).2.world = mounts s.world := by
  obtain ⟨ht, hw, -, -⟩ := closeCommon_spec io mk fd p s
  refine ⟨?_, by rw [hw]; exact laws.closes (hmk.closes _) s.world⟩
  rw [ht]
  split <;> rfl

variable (io) in
/-- A UMOUNT that does anything replies 0 and frees a slot of the client that no open file
uses.  iomanX's mounts stay as they are. -/
theorem rpcCommandUmount_mountlist (mounts : σ → Set (υ × CStr)) {p : CInt} (hp : p ≠ 0)
    (fsname : CStr) (s : Daemon σ) :
    mounts (rpcCommandUmount io fsname p s).2.world = mounts s.world ∧
    ((rpcCommandUmount io fsname p s).2.gMountlistItems = s.gMountlistItems ∨
    ((rpcCommandUmount io fsname p s).1 = 0 ∧ s.slotOfPrefix fsname p < 32 ∧
      ¬ s.inUse (s.slotOfPrefix fsname p) ∧
      (rpcCommandUmount io fsname p s).2.gMountlistItems =
        (s.umountCleanup (s.slotOfPrefix fsname p)).gMountlistItems)) := by
  rcases rpcCommandUmount_cases io hp fsname s with ⟨-, heq⟩ | ⟨-, -, heq⟩ |
    ⟨hlt, huse, heq⟩
  · rw [heq]; exact ⟨rfl, .inl rfl⟩
  · rw [heq]; exact ⟨rfl, .inl rfl⟩
  · rw [heq]; exact ⟨rfl, .inr ⟨rfl, hlt, huse, rfl⟩⟩

/-- **What an act does to the mount table and to iomanX's mounts**: nothing, or it fills a
free slot, or it frees a slot of the client.  Freeing a slot leaves iomanX's mounts as they
are. -/
theorem Act.mountlist (laws : MountLaws io unit mounts) {p : CInt} (hp : p ≠ 0)
    (h : Act io p s s') :
    (s'.gMountlistItems = s.gMountlistItems ∧ mounts s'.world = mounts s.world) ∨
    (∃ fsname devname flag useshm arglen buf,
      s.findFreeMountInfo < 32 ∧ 32 ≤ s.slotOfPrefix fsname p ∧
      Granted io unit mounts s s' fsname (cutAt 44 devname) flag useshm arglen buf ∧
      s'.gMountlistItems = (s.fillSlot s.findFreeMountInfo
        ⟨p, fsname, buf, cutAt 44 devname⟩).gMountlistItems) ∨
    (∃ fsname, s.slotOfPrefix fsname p < 32 ∧
      s'.gMountlistItems = (s.umountCleanup (s.slotOfPrefix fsname p)).gMountlistItems ∧
      mounts s'.world = mounts s.world) := by
  cases h with
  | called hn => exact .inl ⟨rfl, laws.others _ _ hn.2.2⟩
  | wrote bytes => exact .inl ⟨rfl, rfl⟩
  | stored m => exact .inl ⟨rfl, rfl⟩
  | opened hmk name => exact .inl (openCommon_mountlist laws hmk name p s)
  | closed hmk fd => exact .inl (closeCommon_mountlist laws hmk fd p s)
  | mounted fsname devname flag useshm arglen =>
    rcases rpcCommandMount_mountlist laws fsname devname flag useshm arglen p s with
      ⟨-, ht, hM⟩ | ⟨-, hfree, hdup, buf, hg, ht⟩
    · exact .inl ⟨by rw [ht], hM⟩
    · exact .inr (.inl ⟨_, _, _, _, _, buf, hfree, hdup, hg, by rw [ht]⟩)
  | unmounted fsname =>
    obtain ⟨hM, hitems | ⟨-, hlt, -, hitems⟩⟩ :=
      rpcCommandUmount_mountlist io mounts hp fsname s
    · exact .inl ⟨hitems, hM⟩
    · exact .inr (.inr ⟨fsname, hlt, hitems, hM⟩)

/-- What a request does to them: nothing, or it is a MOUNT that fills a slot, or a UMOUNT
that replies 0 and frees one. -/
theorem Arm.mountlist (laws : MountLaws io unit mounts) {p : CInt} {choice : Choice} (hp : p ≠ 0)
    {req : Option Request} {r : Option ℤ × Daemon σ} (h : Arm io p choice s req r) :
    (r.2.gMountlistItems = s.gMountlistItems ∧ mounts r.2.world = mounts s.world) ∨
    (∃ fsname devname flag useshm arglen buf,
      req = some (.pfsdReqMount fsname devname flag useshm arglen) ∧
      s.findFreeMountInfo < 32 ∧ 32 ≤ s.slotOfPrefix fsname p ∧
      Granted io unit mounts s r.2 fsname (cutAt 44 devname) flag useshm arglen buf ∧
      r.2.gMountlistItems = (s.fillSlot s.findFreeMountInfo
        ⟨p, fsname, buf, cutAt 44 devname⟩).gMountlistItems) ∨
    (∃ fsname, req = some (.pfsdReqUmount fsname) ∧
      (rpcCommandUmount io fsname p s).1 = 0 ∧ s.slotOfPrefix fsname p < 32 ∧
      ¬ s.inUse (s.slotOfPrefix fsname p) ∧
      r.2.gMountlistItems = (s.umountCleanup (s.slotOfPrefix fsname p)).gMountlistItems ∧
      mounts r.2.world = mounts s.world) := by
  cases h with
  | ignored h => exact .inl ⟨rfl, rfl⟩
  | called ho hn hr => exact .inl ⟨rfl, laws.others _ _ hn.2.2⟩
  | paired hpair => exact .inl ⟨rfl, laws.others _ _ (hpair.neutral _ _).2.2⟩
  | lseek64 f offset whence => exact .inl ⟨rfl, laws.others _ _ id⟩
  | opened ho hmk name => exact .inl (openCommon_mountlist laws hmk name p s)
  | closed ho hmk fd => exact .inl (closeCommon_mountlist laws hmk fd p s)
  | mounted fsname devname flag useshm arglen =>
    rcases rpcCommandMount_mountlist laws fsname devname flag useshm arglen p s with
      ⟨-, ht, hM⟩ | ⟨-, hfree, hdup, buf, hg, ht⟩
    · exact .inl ⟨by simp only [returned, ht], hM⟩
    · exact .inr (.inl ⟨_, _, _, _, _, buf, rfl, hfree, hdup, hg, by simp only [returned, ht]⟩)
  | unmounted fsname =>
    obtain ⟨hM, hitems | ⟨h0, hlt, huse, hitems⟩⟩ :=
      rpcCommandUmount_mountlist io mounts hp fsname s
    · exact .inl ⟨hitems, hM⟩
    · exact .inr (.inr ⟨fsname, rfl, h0, hlt, huse, hitems, hM⟩)
  | setreadahead enabled =>
    have hget : ∀ w, mounts (io .ioctlBlkraget w).2 = mounts w := fun w => laws.others _ w id
    have hset : ∀ w, mounts (io (.ioctlBlkraset enabled) w).2 = mounts w :=
      fun w => laws.others _ w id
    have hworld : (scepfsSetReadAhead io enabled p s).2.gMountlistItems = s.gMountlistItems ∧
        mounts (scepfsSetReadAhead io enabled p s).2.world = mounts s.world := by
      simp only [scepfsSetReadAhead]
      split
      · exact ⟨rfl, (hset _).trans (hget _)⟩
      · exact ⟨rfl, (hget _).trans ((hset _).trans (hget _))⟩
    exact .inl hworld
  | getmountpoint path => exact .inl ⟨rfl, rfl⟩

/-! ## 3. The invariant -/

/-- **The mount table invariant**, for the mounts `M` of iomanX. -/
structure MountInv (unit : CStr → υ) (M : Set (υ × CStr)) (t : Tables) : Prop where
  prefixes : ∀ i j, t.Occupied i → t.Occupied j →
    (t.gMountlistItems i).mPid = (t.gMountlistItems j).mPid →
    (t.gMountlistItems i).mStrFsPrefix = (t.gMountlistItems j).mStrFsPrefix → i = j
  shared : ∀ i j, t.Occupied i → t.Occupied j →
    ((t.gMountlistItems i).mStrContainerPath = (t.gMountlistItems j).mStrContainerPath ↔
      (t.gMountlistItems i).mStrDevPrefix = (t.gMountlistItems j).mStrDevPrefix)
  mounted : ∀ i, t.Occupied i → (unit (t.gMountlistItems i).mStrContainerPath,
    (t.gMountlistItems i).mStrDevPrefix) ∈ M

theorem Tables.occupied_congr {t t' : Tables} (h : t'.gMountlistItems = t.gMountlistItems)
    (i : ℕ) : t'.Occupied i ↔ t.Occupied i := by
  simp only [Occupied, h]

theorem MountInv.congr {M : Set (υ × CStr)} {t t' : Tables} (h : MountInv unit M t)
    (ht : t'.gMountlistItems = t.gMountlistItems) : MountInv unit M t' := by
  obtain ⟨h₁, h₂, h₃⟩ := h
  constructor
  · simpa only [Tables.occupied_congr ht, ht] using h₁
  · simpa only [Tables.occupied_congr ht, ht] using h₂
  · simpa only [Tables.occupied_congr ht, ht] using h₃

/-- Freeing a slot. -/
theorem MountInv.umountCleanup {M : Set (υ × CStr)} {t : Tables} (h : MountInv unit M t)
    (n : ℕ) : MountInv unit M (t.umountCleanup n) := by
  have hocc : ∀ {i}, (t.umountCleanup n).Occupied i → t.Occupied i ∧
      (t.umountCleanup n).gMountlistItems i = t.gMountlistItems i := by
    intro i hi
    obtain ⟨hi, hne⟩ := Tables.occupied_umountCleanup.mp hi
    exact ⟨hi, Tables.item_umountCleanup_of_ne hne⟩
  constructor
  · intro i j hi hj hpid hpre
    rw [(hocc hi).2, (hocc hj).2] at hpid hpre
    exact h.prefixes i j (hocc hi).1 (hocc hj).1 hpid hpre
  · intro i j hi hj
    rw [(hocc hi).2, (hocc hj).2]
    exact h.shared i j (hocc hi).1 (hocc hj).1
  · intro i hi
    rw [(hocc hi).2]
    exact h.mounted i (hocc hi).1

/-- Filling a free slot with a container that goes with the device. -/
theorem MountInv.fillSlot {M M' : Set (υ × CStr)} {t : Tables} {n : ℕ} {item : MountlistItem}
    (h : MountInv unit M t) (hn : n < 32) (hfree : (t.gMountlistItems n).mPid = 0)
    (hpid : item.mPid ≠ 0)
    (hpre : ∀ i, t.OwnedBy item.mPid i → (t.gMountlistItems i).mStrFsPrefix ≠ item.mStrFsPrefix)
    (hshare : ∀ i, t.Occupied i →
      ((t.gMountlistItems i).mStrContainerPath = item.mStrContainerPath ↔
        (t.gMountlistItems i).mStrDevPrefix = item.mStrDevPrefix))
    (hmem : (unit item.mStrContainerPath, item.mStrDevPrefix) ∈ M') (hM : M ⊆ M') :
    MountInv unit M' (t.fillSlot n item) := by
  have hself : (t.fillSlot n item).gMountlistItems n = item :=
    (Tables.item_fillSlot n n item).trans (if_pos rfl)
  have hother : ∀ {i}, t.Occupied i →
      (t.fillSlot n item).gMountlistItems i = t.gMountlistItems i := by
    intro i hi
    refine (Tables.item_fillSlot n i item).trans (if_neg ?_)
    rintro rfl
    exact hi.2 hfree
  constructor
  · intro i j hi' hj'
    rcases (Tables.occupied_fillSlot hn hpid).mp hi' with hi | rfl <;>
      rcases (Tables.occupied_fillSlot hn hpid).mp hj' with hj | rfl
    · rw [hother hi, hother hj]
      exact h.prefixes i j hi hj
    · rw [hother hi, hself]
      exact fun hp hf => absurd hf (hpre i ⟨hi.1, hp⟩)
    · rw [hother hj, hself]
      exact fun hp hf => absurd hf.symm (hpre j ⟨hj.1, hp.symm⟩)
    · exact fun _ _ => rfl
  · intro i j hi' hj'
    rcases (Tables.occupied_fillSlot hn hpid).mp hi' with hi | rfl <;>
      rcases (Tables.occupied_fillSlot hn hpid).mp hj' with hj | rfl
    · rw [hother hi, hother hj]
      exact h.shared i j hi hj
    · rw [hother hi, hself]
      exact hshare i hi
    · rw [hother hj, hself]
      exact eq_comm.trans ((hshare j hj).trans eq_comm)
    · exact ⟨fun _ => rfl, fun _ => rfl⟩
  · intro i hi'
    rcases (Tables.occupied_fillSlot hn hpid).mp hi' with hi | rfl
    · rw [hother hi]
      exact hM (h.mounted i hi)
    · rw [hself]
      exact hmem

/-- A granted container goes with the device: a slot has the one exactly when it has the
other. -/
theorem MountInv.granted (h : MountInv unit (mounts s.world) s.toTables)
    {fsname dev buf : CStr} {flag useshm arglen : CInt}
    (hg : Granted io unit mounts s t fsname dev flag useshm arglen buf) :
    (∀ i, s.Occupied i → ((s.gMountlistItems i).mStrContainerPath = buf ↔
      (s.gMountlistItems i).mStrDevPrefix = dev)) ∧
    (unit buf, dev) ∈ mounts t.world ∧ mounts s.world ⊆ mounts t.world := by
  -- a unit and a device that were not mounted are no slot's
  have hfresh : ∀ name, Unmounted unit name dev (mounts s.world) → ∀ i, s.Occupied i →
      ((s.gMountlistItems i).mStrContainerPath = name ↔
        (s.gMountlistItems i).mStrDevPrefix = dev) := by
    intro name hfree i hi
    have hm := hfree _ (h.mounted i hi)
    exact ⟨fun he => absurd (congrArg unit he) hm.1, fun he => absurd he hm.2⟩
  cases hg with
  | direct hret hfree hM =>
    rw [hM]
    exact ⟨hfresh _ hfree, Set.mem_insert _ _, Set.subset_insert _ _⟩
  | fallback i hi hfree hM =>
    rw [hM]
    exact ⟨hfresh _ hfree, Set.mem_insert _ _, Set.subset_insert _ _⟩
  | shared k hk hdev hM =>
    rw [hM]
    subst hdev
    exact ⟨fun i hi => h.shared i k hi hk, h.mounted k hk, Set.Subset.rfl⟩

/-- **Every act preserves the mount table invariant.** -/
theorem MountInv.act (laws : MountLaws io unit mounts) {p : CInt} (hp : p ≠ 0)
    (h : MountInv unit (mounts s.world) s.toTables) (hact : Act io p s s') :
    MountInv unit (mounts s'.world) s'.toTables := by
  rcases hact.mountlist laws hp with ⟨hitems, hM⟩ |
    ⟨fsname, devname, flag, useshm, arglen, buf, hfree, hdup, hg, hitems⟩ |
    ⟨fsname, -, hitems, hM⟩
  · rw [hM]
    exact h.congr hitems
  · obtain ⟨hshare, hmem, hsub⟩ := h.granted hg
    exact (h.fillSlot hfree (Tables.findFreeMountInfo_spec hfree) hp
      (Tables.not_of_slotOfPrefix hdup) hshare hmem hsub).congr hitems
  · rw [hM]
    exact (h.umountCleanup _).congr hitems

theorem mountInv_start (socketFd : CInt) (shm : Mem) (w : σ) :
    MountInv unit (mounts w) (start socketFd shm w).toTables :=
  ⟨fun _ _ hi => absurd rfl hi.2, fun _ _ hi => absurd rfl hi.2, fun _ hi => absurd rfl hi.2⟩

theorem Reachable.mountInv (laws : MountLaws io unit mounts) {w : σ} (h : Reachable io w s) :
    MountInv unit (mounts s.world) s.toTables :=
  h.preserves (I := fun s => MountInv unit (mounts s.world) s.toTables)
    (fun fd shm => mountInv_start fd shm w)
    (fun _ _ _ hp hs hact => hs.act laws (Int32.ne_of_lt hp).symm hact)
    (fun _ _ hs => hs)

/-! ## 4. The table in every reachable state -/

/-- **The mount table in every reachable state**: no client has two slots with one prefix;
two slots have one container exactly when they have one device; each slot's container and
device are mounted in iomanX; and a MOUNT writes one reply, which is 0 unless the table stays
exactly as it was. -/
theorem mountlist_of_reachable (laws : MountLaws io unit mounts) {w : σ}
    (h : Reachable io w s) :
    (∀ i j, s.Occupied i → s.Occupied j →
      (s.gMountlistItems i).mPid = (s.gMountlistItems j).mPid →
      (s.gMountlistItems i).mStrFsPrefix = (s.gMountlistItems j).mStrFsPrefix → i = j) ∧
    (∀ i j, s.Occupied i → s.Occupied j →
      ((s.gMountlistItems i).mStrContainerPath = (s.gMountlistItems j).mStrContainerPath ↔
        (s.gMountlistItems i).mStrDevPrefix = (s.gMountlistItems j).mStrDevPrefix)) ∧
    (∀ i, s.Occupied i → (unit (s.gMountlistItems i).mStrContainerPath,
      (s.gMountlistItems i).mStrDevPrefix) ∈ mounts s.world) ∧
    ∀ pfd choice fsname devname flag useshm arglen, ∃ ret : CInt,
      (eventHandlerFunc io pfd choice
        (some (.pfsdReqMount fsname devname flag useshm arglen)) s).2.sent
          = s.sent ++ [(s.gConnectionPollfds pfd, int32Bytes ret)] ∧
      (ret ≠ 0 → (eventHandlerFunc io pfd choice
        (some (.pfsdReqMount fsname devname flag useshm arglen)) s).2.gMountlistItems
          = s.gMountlistItems) := by
  have hinv := h.mountInv laws
  refine ⟨hinv.prefixes, hinv.shared, hinv.mounted, ?_⟩
  intro pfd choice fsname devname flag useshm arglen
  simp only [eventHandlerFunc, returned]
  rcases rpcCommandMount_cases io fsname devname flag useshm arglen
    (s.gConnectionPollfds pfd) s with ⟨ret, buf, t, hret, hframe, -, heq⟩ |
    ⟨buf, t, -, -, hframe, -, heq⟩
  · rw [heq]
    refine ⟨ret, congrArg (· ++ [(s.gConnectionPollfds pfd, int32Bytes ret)]) hframe.sent, ?_⟩
    exact fun _ => congrArg Tables.gMountlistItems hframe.tables
  · rw [heq]
    refine ⟨0, congrArg (· ++ [(s.gConnectionPollfds pfd, int32Bytes 0)]) hframe.sent, ?_⟩
    exact fun hne => absurd rfl hne

/-- Two clients mount one partition under different names. -/
def sharedMount : List Event :=
  [.connect ⟨5, 9, 0, 0x20000⟩, .connect ⟨6, 9, 0, 0x20000⟩,
    .request 0 {} (some (.pfsdReqMount (pfsUnit 0) (ascii ['h', 'd', 'd']) 0 0 0)),
    .request 1 {} (some (.pfsdReqMount (pfsUnit 1) (ascii ['h', 'd', 'd']) 0 0 0))]

theorem mountlist_of_reachable_shared : ∃ s : Daemon (SmallWorld CStr),
    run (handle (smallIomanx id)) sharedMount (start 4 [] {}) = some s ∧
      s.Occupied 0 ∧ s.Occupied 1 ∧
      (s.gMountlistItems 0).mStrContainerPath = (s.gMountlistItems 1).mStrContainerPath ∧
      ((s.gMountlistItems 1).mStrContainerPath, (s.gMountlistItems 1).mStrDevPrefix)
        ∈ s.world.mountSet := by
  obtain ⟨s, hs⟩ : ∃ s, run (handle (smallIomanx id)) sharedMount (start 4 [] {}) = some s :=
    ⟨_, rfl⟩
  have h := mountlist_of_reachable (smallIomanx_mountLaws id) ⟨4, [], sharedMount, hs⟩
  have h0 : s.Occupied 0 := by
    rw [← Option.some.inj hs]
    decide
  have h1 : s.Occupied 1 := by
    rw [← Option.some.inj hs]
    decide
  refine ⟨s, hs, h0, h1, (h.2.1 0 1 h0 h1).mpr ?_, h.2.2.1 1 h1⟩
  rw [← Option.some.inj hs]
  rfl

end PfsShell.Pfsd
