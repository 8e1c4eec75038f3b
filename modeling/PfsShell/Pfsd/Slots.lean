/-
# What every slot of the mount table has

A slot is filled by a MOUNT and by nothing else.  So what holds of every slot that a MOUNT fills
holds of every occupied slot of every state the daemon reaches (`AllSlots`).

* `AllSlots.step`, `AllSlots.run`: the step lemma and the run lemma, for any property of a slot;
* `mountDevice_container`: where the container in a filled slot comes from.
-/
import PfsShell.Pfsd.Tables

namespace PfsShell.Pfsd

open PfsShell.Lib

/-! ## 1. The property and what fills a slot -/

/-- Every occupied slot has `P`. -/
def AllSlots (P : MountlistItem → Prop) (t : Tables) : Prop :=
  ∀ i, t.Occupied i → P (t.gMountlistItems i)

section Fills

variable {σ : Type} (io : IomanX σ)

/-- The MOUNT succeeds, with the container `buf`. -/
def MountsAs (s : Daemon σ) (p : CInt) (fsname devname : CStr) (flag useshm arglen : CInt)
    (buf : CStr) : Prop :=
  s.findFreeMountInfo < 32 ∧ 32 ≤ s.slotOfPrefix fsname p ∧
    ∃ t, mountDevice io fsname (cutAt 44 devname) flag useshm arglen p s = ((0, buf), t)

/-- The slot that the event fills, if it does, has `P`. -/
def FillsWith (P : MountlistItem → Prop) (e : Event) (s : Daemon σ) : Prop :=
  ∀ pfd choice fsname devname flag useshm arglen buf,
    e = .request pfd choice (some (.pfsdReqMount fsname devname flag useshm arglen)) →
    MountsAs io s (s.gConnectionPollfds pfd) fsname devname flag useshm arglen buf →
    P ⟨s.gConnectionPollfds pfd, fsname, buf, cutAt 44 devname⟩

end Fills

section Slots

variable {σ : Type} {io : IomanX σ} {s s' t : Daemon σ} {P : MountlistItem → Prop}

/-! ## 2. Containers -/

theorem mountFallback_container {devname : CStr} {flag useshm arglen p : CInt} :
    ∀ (k i : ℕ) (acc : CInt × CStr) (s : Daemon σ) {buf : CStr} {t : Daemon σ}, i + k = 32 →
      acc.1 ≠ 0 →
      mountFallback io devname flag useshm arglen p k i acc s = ((0, buf), t) →
      ∃ j, j < 32 ∧ buf = pfsUnit j
  | 0, i, acc, s, buf, t, _, hacc, h => by
    obtain ⟨rfl, -⟩ := Prod.mk.inj h
    exact absurd rfl hacc
  | k + 1, i, acc, s, buf, t, hi, hacc, h => by
    unfold mountFallback at h
    split at h
    · by_cases hret :
          (scepfs io p (mountCall (pfsUnit i) devname flag useshm arglen s) s).1.ret = 0
      · refine ⟨i, by omega, ?_⟩
        cases k with
        | zero => exact (Prod.mk.inj (Prod.mk.inj h).1).2.symm
        | succ k =>
          rw [mountFallback, hret, if_neg (by decide : ¬ (0 : CInt) = -16)] at h
          exact (Prod.mk.inj (Prod.mk.inj h).1).2.symm
      · exact mountFallback_container k (i + 1) _ _ (by omega) hret h
    · obtain ⟨rfl, -⟩ := Prod.mk.inj h
      exact absurd rfl hacc

/-- The container of a MOUNT that succeeds: the name iomanX accepted, a unit `pfs<j>:`, or the
container of another slot. -/
theorem mountDevice_container {fsname devname buf : CStr} {flag useshm arglen p : CInt}
    (h : mountDevice io fsname devname flag useshm arglen p s = ((0, buf), t)) :
    (buf = fsname ∧ (io (mountCall fsname devname flag useshm arglen s) s.world).1.ret = 0) ∨
    (∃ j, j < 32 ∧ buf = pfsUnit j) ∨
    ∃ k, s.Occupied k ∧ buf = (s.gMountlistItems k).mStrContainerPath := by
  by_cases h16 : (scepfs io p (mountCall fsname devname flag useshm arglen s) s).1.ret = -16
  · simp only [mountDevice, if_pos h16] at h
    split at h
    · rename_i hlt
      obtain ⟨-, rfl⟩ := Prod.mk.inj (Prod.mk.inj h).1
      exact .inr (.inr ⟨_, (Tables.slotOfDevice_spec hlt).1, rfl⟩)
    · have hne : (-16 : CInt) ≠ 0 := by decide
      exact .inr (.inl (mountFallback_container 32 0 _ _ rfl (h16.symm ▸ hne) h))
  · simp only [mountDevice, if_neg h16] at h
    obtain ⟨hret, rfl⟩ := Prod.mk.inj (Prod.mk.inj h).1
    exact .inl ⟨rfl, hret⟩

/-! ## 3. What keeps it -/

theorem AllSlots.congr {t t' : Tables} (h : AllSlots P t)
    (ht : t'.gMountlistItems = t.gMountlistItems) : AllSlots P t' := by
  simpa only [AllSlots, Tables.Occupied, ht] using h

theorem AllSlots.unmounted (h : AllSlots P s.toTables) {p : CInt} (hp : p ≠ 0)
    (fsname : CStr) : AllSlots P (rpcCommandUmount io fsname p s).2.toTables := by
  rcases rpcCommandUmount_cases io hp fsname s with ⟨-, heq⟩ | ⟨-, -, heq⟩ | ⟨-, -, heq⟩
  · rw [heq]; exact h
  · rw [heq]; exact h
  · rw [heq]
    intro i hi
    obtain ⟨hi, hne⟩ := Tables.occupied_umountCleanup.mp hi
    have hitem := Tables.item_umountCleanup_of_ne (t := s.toTables) hne
    simp only [hitem]
    exact h i hi

theorem AllSlots.closed (h : AllSlots P s.toTables) (mk : CInt → Call) (fd p : CInt) :
    AllSlots P (closeCommon io mk fd p s).2.toTables := by
  rw [(closeCommon_spec io mk fd p s).1]
  split <;> exact h

theorem AllSlots.mounted (h : AllSlots P s.toTables) {p : CInt} (hp : p ≠ 0)
    {fsname devname : CStr} {flag useshm arglen : CInt}
    (hfill : ∀ buf, MountsAs io s p fsname devname flag useshm arglen buf →
      P ⟨p, fsname, buf, cutAt 44 devname⟩) :
    AllSlots P (rpcCommandMount io fsname devname flag useshm arglen p s).2.toTables := by
  rcases rpcCommandMount_cases io fsname devname flag useshm arglen p s with
    ⟨ret, buf, t, -, hframe, -, heq⟩ | ⟨buf, t, hfree, hdup, -, hm, heq⟩
  · rw [heq]
    exact h.congr (congrArg Tables.gMountlistItems hframe.tables)
  · rw [heq]
    intro i hi'
    have hitem := Tables.item_fillSlot (t := s.toTables) s.findFreeMountInfo i
      ⟨p, fsname, buf, cutAt 44 devname⟩
    simp only [writeRpcret, writeSocket, hitem]
    rcases (Tables.occupied_fillSlot hfree hp).mp hi' with hi | rfl
    · rw [if_neg]
      · exact h i hi
      · rintro rfl
        exact hi.2 (Tables.findFreeMountInfo_spec hfree)
    · rw [if_pos rfl]
      exact hfill buf ⟨hfree, hdup, t, hm⟩

theorem AllSlots.arm (h : AllSlots P s.toTables) {p : CInt} {choice : Choice} (hp : p ≠ 0)
    {req : Option Request} {r : Option ℤ × Daemon σ} (harm : Arm io p choice s req r)
    (hfill : ∀ fsname devname flag useshm arglen buf,
      req = some (.pfsdReqMount fsname devname flag useshm arglen) →
      MountsAs io s p fsname devname flag useshm arglen buf →
      P ⟨p, fsname, buf, cutAt 44 devname⟩) :
    AllSlots P r.2.toTables := by
  cases harm with
  | ignored hr => exact h
  | called ho hn hr => exact h
  | paired hpair => exact h
  | lseek64 f offset whence => exact h
  | @opened _ mk ho hmk name =>
    rcases openCommon_cases io mk name p s with ⟨-, heq⟩ | ⟨-, -, heq⟩ | ⟨-, -, ht, -⟩
    · exact h.congr (by simp [returned, heq, writeRpcret, writeSocket])
    · exact h.congr (by simp [returned, heq, writeRpcret, writeSocket, scepfs])
    · exact h.congr (by simp [returned, ht])
  | @closed _ mk ho hmk fd => exact h.closed mk fd p
  | mounted fsname devname flag useshm arglen =>
    exact h.mounted hp fun buf => hfill _ _ _ _ _ buf rfl
  | unmounted fsname => exact h.unmounted hp fsname
  | setreadahead enabled =>
    have hitems : (scepfsSetReadAhead io enabled p s).2.gMountlistItems = s.gMountlistItems := by
      simp only [scepfsSetReadAhead]
      split <;> rfl
    exact h.congr hitems
  | getmountpoint path => exact h

theorem AllSlots.cleanup (h : AllSlots P s.toTables) {p : CInt} (hp : p ≠ 0)
    (hacts : CleanupActs io p s t) : AllSlots P t.toTables := by
  induction hacts with
  | refl => exact h
  | tail _ hact ih =>
    cases hact with
    | closed fd => exact ih.closed _ fd _
    | unmounted fsname => exact ih.unmounted hp fsname

/-- **Step lemma.** -/
theorem AllSlots.step (hok : s.Ok) (h : AllSlots P s.toTables) {e : Event}
    (hfill : FillsWith io P e s) (he : handle io e s = some s') : AllSlots P s'.toTables := by
  have hp0 : ∀ pfd, pfd < s.gCurrentClientCount → s.gConnectionPollfds pfd ≠ 0 :=
    fun pfd hlt => (Int32.ne_of_lt (hok.pos _ (Conns.mem_clients hlt))).symm
  rcases handle_cases he with ⟨a, -, -, rfl⟩ | ⟨pfd, choice, req, rfl, hlt, rfl, -⟩ |
    ⟨pfd, fuel, t, rfl, hlt, hacts, rfl⟩
  · exact h
  · refine h.arm (hp0 pfd hlt) (eventHandlerFunc_arm pfd choice req s) ?_
    rintro fsname devname flag useshm arglen buf rfl hmount
    exact hfill pfd choice fsname devname flag useshm arglen buf rfl hmount
  · have ht := h.cleanup (hp0 pfd hlt) hacts
    exact ht

/-- **Run lemma**: `P` holds of every slot when each step fills with `P` what it fills, given that
all slots had it before. -/
theorem AllSlots.run (P : MountlistItem → Prop) {C : Event → Daemon σ → Prop}
    (hfill : ∀ e s, AllSlots P s.toTables → C e s → FillsWith io P e s)
    {socketFd : CInt} {shm : Mem} {w : σ} {es : List Event}
    (hcond : Along (handle io) C es (start socketFd shm w))
    (hrun : run (handle io) es (start socketFd shm w) = some s) : AllSlots P s.toTables := by
  have hstep : ∀ e (s s' : Daemon σ), (s.Ok ∧ AllSlots P s.toTables) → C e s →
      handle io e s = some s' → s'.Ok ∧ AllSlots P s'.toTables :=
    fun e s s' hs hc he => ⟨handle_ok hs.1 he, hs.2.step hs.1 (hfill e s hs.2 hc) he⟩
  have hstart : (start socketFd shm w).Ok ∧ AllSlots P (start socketFd shm w).toTables :=
    ⟨conns_start_ok socketFd shm w, fun _ hi => absurd rfl hi.2⟩
  exact (along_preserves (I := fun s => s.Ok ∧ AllSlots P s.toTables) hstep hstart hcond hrun).2

end Slots

end PfsShell.Pfsd
