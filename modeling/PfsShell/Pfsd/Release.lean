/-
# When a container is released

The containers that are mounted in iomanX for pfsd should be those of the occupied slots: a
container that is shared stays, and the last holder's UMOUNT releases it.  The decision rests
on the last scan of `rpc_command_umount`, which is to look for another slot with the same
container; its condition holds only while `i == k`, so it stops at slot 0 at once, and the
daemon always takes it that there is another holder (`Tables.otherHolder_eq_zero`).  It never
calls `scepfsUmount`.

So the containers match as long as there always is another holder (`KeepsHolder`): whenever a
slot is freed, another slot has its container, and when a client is gone, slots of other
clients have all of its containers.
-/
import PfsShell.Pfsd.Mounts

namespace PfsShell.Pfsd

open PfsShell.Lib

variable {σ : Type} {io : IomanX σ} {mounts : σ → Set (CStr × CStr)} {s s' t : Daemon σ}

/-! ## 1. The containers -/

/-- The containers of the occupied slots. -/
def Tables.containers (t : Tables) : Set CStr :=
  {c | ∃ i, t.Occupied i ∧ (t.gMountlistItems i).mStrContainerPath = c}

/-- The containers something is mounted on. -/
def mountedContainers (M : Set (CStr × CStr)) : Set CStr := {c | ∃ d, (c, d) ∈ M}

theorem Tables.containers_congr {t t' : Tables} (h : t'.gMountlistItems = t.gMountlistItems) :
    t'.containers = t.containers := by
  simp only [containers, Occupied, h]

theorem mountedContainers_insert (c d : CStr) (M : Set (CStr × CStr)) :
    mountedContainers (insert (c, d) M) = insert c (mountedContainers M) := by
  ext x
  simp only [mountedContainers, Set.mem_ofPred_eq, Set.mem_insert_iff, Prod.mk.injEq]
  constructor
  · rintro ⟨d', ⟨rfl, rfl⟩ | h⟩
    · exact .inl rfl
    · exact .inr ⟨d', h⟩
  · rintro (rfl | ⟨d', h⟩)
    · exact ⟨d, .inl ⟨rfl, rfl⟩⟩
    · exact ⟨d', .inr h⟩

/-- Filling a free slot adds its container. -/
theorem Tables.containers_fillSlot {t : Tables} {n : ℕ} {item : MountlistItem} (hn : n < 32)
    (hfree : (t.gMountlistItems n).mPid = 0) (hpid : item.mPid ≠ 0) :
    (t.fillSlot n item).containers = insert item.mStrContainerPath t.containers := by
  have hother : ∀ {i}, t.Occupied i →
      (t.fillSlot n item).gMountlistItems i = t.gMountlistItems i := by
    intro i hi
    refine (item_fillSlot n i item).trans (if_neg ?_)
    rintro rfl
    exact hi.2 hfree
  have hself : (t.fillSlot n item).gMountlistItems n = item :=
    (item_fillSlot n n item).trans (if_pos rfl)
  ext c
  constructor
  · rintro ⟨i, hi, rfl⟩
    rcases (occupied_fillSlot hn hpid).mp hi with hocc | rfl
    · exact .inr ⟨i, hocc, by rw [hother hocc]⟩
    · exact .inl (by rw [hself])
  · rintro (rfl | ⟨i, hi, rfl⟩)
    · exact ⟨n, (occupied_fillSlot hn hpid).mpr (.inr rfl), by rw [hself]⟩
    · exact ⟨i, (occupied_fillSlot hn hpid).mpr (.inl hi), by rw [hother hi]⟩

/-- Some other slot than `i` has the container of slot `i`. -/
def Tables.HeldBeside (t : Tables) (i : ℕ) : Prop :=
  ∃ k, k ≠ i ∧ t.Occupied k ∧
    (t.gMountlistItems k).mStrContainerPath = (t.gMountlistItems i).mStrContainerPath

/-- Freeing a slot keeps the containers when another slot has the container. -/
theorem Tables.containers_umountCleanup {t : Tables} {i : ℕ} (h : t.HeldBeside i) :
    (t.umountCleanup i).containers = t.containers := by
  ext c
  constructor
  · rintro ⟨j, hj, rfl⟩
    obtain ⟨hocc, hne⟩ := occupied_umountCleanup.mp hj
    exact ⟨j, hocc, by rw [item_umountCleanup_of_ne hne]⟩
  · rintro ⟨j, hj, rfl⟩
    by_cases hji : j = i
    · obtain ⟨k, hne, hk, hsame⟩ := h
      exact ⟨k, occupied_umountCleanup.mpr ⟨hk, hne⟩,
        by rw [item_umountCleanup_of_ne hne, hsame, hji]⟩
    · exact ⟨j, occupied_umountCleanup.mpr ⟨hj, hji⟩, by rw [item_umountCleanup_of_ne hji]⟩

/-! ## 2. The condition -/

/-- The slot a UMOUNT frees has a container that another slot has too, and the containers of a
client that is gone are held by slots of other clients. -/
def KeepsHolder (e : Event) (s : Daemon σ) : Prop :=
  (∀ pfd choice fsname, e = .request pfd choice (some (.pfsdReqUmount fsname)) →
    s.slotOfPrefix fsname (s.gConnectionPollfds pfd) < 32 →
    ¬ s.inUse (s.slotOfPrefix fsname (s.gConnectionPollfds pfd)) →
    s.HeldBeside (s.slotOfPrefix fsname (s.gConnectionPollfds pfd))) ∧
  ∀ pfd fuel, e = .hangup pfd fuel → ∀ i, s.OwnedBy (s.gConnectionPollfds pfd) i →
    ∃ k, s.Occupied k ∧ (s.gMountlistItems k).mPid ≠ s.gConnectionPollfds pfd ∧
      (s.gMountlistItems k).mStrContainerPath = (s.gMountlistItems i).mStrContainerPath

/-! ## 3. Runs that meet it -/

/-- A cleanup leaves iomanX's mounts as they are and only frees slots of the client. -/
theorem CleanupActs.mountlist (laws : MountLaws io id mounts) {p : CInt} (hp : p ≠ 0)
    (h : CleanupActs io p s t) :
    mounts t.world = mounts s.world ∧ ∀ i, t.Occupied i →
      s.Occupied i ∧ t.gMountlistItems i = s.gMountlistItems i := by
  induction h with
  | refl => exact ⟨rfl, fun i hi => ⟨hi, rfl⟩⟩
  | @tail t u _ hact ih =>
    obtain ⟨hM, hitems⟩ := ih
    cases hact with
    | closed fd =>
      obtain ⟨heq, hM'⟩ := closeCommon_mountlist laws closeCall_close fd p t
      refine ⟨hM'.trans hM, fun i hi => ?_⟩
      obtain ⟨hocc, hitem⟩ := hitems i ((Tables.occupied_congr heq i).mp hi)
      exact ⟨hocc, (congrFun heq i).trans hitem⟩
    | unmounted fsname =>
      obtain ⟨hM', heq | ⟨-, -, -, heq⟩⟩ := rpcCommandUmount_mountlist io mounts hp fsname t
      · refine ⟨hM'.trans hM, fun i hi => ?_⟩
        obtain ⟨hocc, hitem⟩ := hitems i ((Tables.occupied_congr heq i).mp hi)
        exact ⟨hocc, (congrFun heq i).trans hitem⟩
      · refine ⟨hM'.trans hM, fun i hi => ?_⟩
        obtain ⟨hocc', hne⟩ :=
          Tables.occupied_umountCleanup.mp ((Tables.occupied_congr heq i).mp hi)
        obtain ⟨hocc, hitem⟩ := hitems i hocc'
        exact ⟨hocc, (congrFun heq i).trans ((Tables.item_umountCleanup_of_ne hne).trans hitem)⟩

/-- **Step lemma.** -/
theorem containers_step (laws : MountLaws io id mounts) (hok : s.Ok)
    (hs : mountedContainers (mounts s.world) = s.containers) {e : Event}
    (hcond : KeepsHolder e s) (he : handle io e s = some s') :
    mountedContainers (mounts s'.world) = s'.containers := by
  have hp0 : ∀ pfd, pfd < s.gCurrentClientCount → s.gConnectionPollfds pfd ≠ 0 :=
    fun pfd hlt => (Int32.ne_of_lt (hok.pos _ (Conns.mem_clients hlt))).symm
  rcases handle_cases he with ⟨a, -, -, rfl⟩ | ⟨pfd, choice, req, rfl, hlt, rfl, -⟩ |
    ⟨pfd, fuel, t, rfl, hlt, hacts, rfl⟩
  · exact hs
  · rcases (eventHandlerFunc_arm pfd choice req s).mountlist laws (hp0 pfd hlt) with
      ⟨hitems, hM⟩ | ⟨fsname, devname, flag, useshm, arglen, buf, rfl, hfree, -, hg, hitems⟩ |
      ⟨fsname, rfl, -, hslot, huse, hitems, hM⟩
    · rw [hM, Tables.containers_congr hitems, hs]
    · rw [Tables.containers_congr hitems, Tables.containers_fillSlot hfree
        (Tables.findFreeMountInfo_spec hfree) (hp0 pfd hlt)]
      cases hg with
      | direct _ _ hM => rw [hM, ← hs]; exact mountedContainers_insert _ _ _
      | fallback i _ _ hM => rw [hM, ← hs]; exact mountedContainers_insert _ _ _
      | shared k hk _ hM =>
        rw [hM, hs]
        have hmem : (s.gMountlistItems k).mStrContainerPath ∈ s.containers := ⟨k, hk, rfl⟩
        exact (Set.insert_eq_of_mem hmem).symm
    · rw [hM, Tables.containers_congr hitems, hs,
        Tables.containers_umountCleanup (hcond.1 pfd choice fsname rfl hslot huse)]
  · obtain ⟨hM, hitems⟩ := hacts.mountlist laws (hp0 pfd hlt)
    have hsame : t.containers = s.containers := by
      ext c
      constructor
      · rintro ⟨i, hi, rfl⟩
        obtain ⟨hocc, hitem⟩ := hitems i hi
        exact ⟨i, hocc, by rw [hitem]⟩
      · -- the container is held by another client's slot, which the cleanup leaves alone
        have hkept : ∀ k, s.Occupied k →
            (s.gMountlistItems k).mPid ≠ s.gConnectionPollfds pfd →
            (s.gMountlistItems k).mStrContainerPath ∈ t.containers := by
          intro k hk hne
          have hitem := hacts.acts.item_eq hk.2 (hp0 pfd hlt) hne rfl
          exact ⟨k, ⟨hk.1, by rw [hitem]; exact hk.2⟩, by rw [hitem]⟩
        rintro ⟨i, hi, rfl⟩
        by_cases hown : (s.gMountlistItems i).mPid = s.gConnectionPollfds pfd
        · obtain ⟨k, hk, hne, hc⟩ := hcond.2 pfd fuel rfl i ⟨hi.1, hown⟩
          exact hc ▸ hkept k hk hne
        · exact hkept i hi hown
    exact (congrArg mountedContainers hM).trans (hs.trans hsame.symm)

/-- A UMOUNT that frees slot `i` calls `scepfsUmount` exactly when no other slot has the
container of slot `i`. -/
def ReleasesLast (io : IomanX σ) (fsname : CStr) (p : CInt) (s : Daemon σ) : Prop :=
  (∃ ret, (rpcCommandUmount io fsname p s).2.calls = s.calls ++
    [⟨p, .scepfsUmount (s.gMountlistItems (s.slotOfPrefix fsname p)).mStrContainerPath, ret⟩]) ↔
  ¬ s.HeldBeside (s.slotOfPrefix fsname p)

/-- The call is never made, so that is right exactly when there is another holder. -/
theorem releasesLast_iff {p : CInt} (hp : p ≠ 0) (fsname : CStr) (s : Daemon σ) :
    ReleasesLast io fsname p s ↔ s.HeldBeside (s.slotOfPrefix fsname p) := by
  have hcalls : (rpcCommandUmount io fsname p s).2.calls = s.calls := by
    rcases rpcCommandUmount_cases io hp fsname s with ⟨-, heq⟩ | ⟨-, -, heq⟩ | ⟨-, -, heq⟩ <;>
      rw [heq] <;> rfl
  have hnot : ¬ ∃ ret, (rpcCommandUmount io fsname p s).2.calls = s.calls ++
      [⟨p, .scepfsUmount (s.gMountlistItems (s.slotOfPrefix fsname p)).mStrContainerPath,
        ret⟩] := by
    rintro ⟨ret, h⟩
    rw [hcalls] at h
    simp at h
  simp only [ReleasesLast, iff_false_left hnot, not_not]

/-- **The containers match in every run in which there always is another holder**, and a
UMOUNT that frees a slot makes the right decision exactly when there is another holder. -/
theorem containers_of_run (laws : MountLaws io id mounts) {w : σ} (hw : mounts w = ∅)
    {socketFd : CInt} {shm : Mem} {es : List Event}
    (hcond : Along (handle io) KeepsHolder es (start socketFd shm w))
    (hrun : run (handle io) es (start socketFd shm w) = some s) :
    mountedContainers (mounts s.world) = s.containers ∧
    ∀ pfd choice fsname, pfd < s.gCurrentClientCount →
      s.slotOfPrefix fsname (s.gConnectionPollfds pfd) < 32 →
      ¬ s.inUse (s.slotOfPrefix fsname (s.gConnectionPollfds pfd)) →
      (ReleasesLast io fsname (s.gConnectionPollfds pfd) s ↔
        KeepsHolder (.request pfd choice (some (.pfsdReqUmount fsname))) s) := by
  have hstep : ∀ e (s s' : Daemon σ),
      (s.Ok ∧ mountedContainers (mounts s.world) = s.containers) → KeepsHolder e s →
      handle io e s = some s' →
      s'.Ok ∧ mountedContainers (mounts s'.world) = s'.containers :=
    fun e s s' hs hc he => ⟨handle_ok hs.1 he, containers_step laws hs.1 hs.2 hc he⟩
  have hstart : (start socketFd shm w).Ok ∧
      mountedContainers (mounts (start socketFd shm w).world)
        = (start socketFd shm w).containers := by
    refine ⟨conns_start_ok socketFd shm w, Set.ext fun c => ⟨?_, ?_⟩⟩
    · rintro ⟨d, hd⟩
      exact absurd (hw ▸ hd : (c, d) ∈ (∅ : Set (CStr × CStr))) (Set.notMem_empty _)
    · rintro ⟨i, hi, -⟩
      exact absurd rfl hi.2
  obtain ⟨hok, hcontainers⟩ := along_preserves
    (I := fun s => s.Ok ∧ mountedContainers (mounts s.world) = s.containers) hstep hstart hcond hrun
  refine ⟨hcontainers, fun pfd choice fsname hpfd hslot huse => ?_⟩
  have hp : s.gConnectionPollfds pfd ≠ 0 :=
    (Int32.ne_of_lt (hok.pos _ (Conns.mem_clients hpfd))).symm
  rw [releasesLast_iff hp]
  constructor
  · refine fun hheld => ⟨fun pfd' choice' fsname' he _ _ => ?_, fun _ _ he => (by cases he)⟩
    cases he
    exact hheld
  · exact fun hk => hk.1 pfd choice fsname rfl hslot huse

/-! ## 4. Two runs of the small iomanX -/

/-- Clients 5 and 6 mount one partition, and client 5 unmounts it. -/
def sharedUmount : List Event :=
  sharedMount ++ [.request 0 {} (some (.pfsdReqUmount (pfsUnit 0)))]

/-- Client 6 still has the container, which is still mounted. -/
theorem containers_of_run_shared : ∃ s : Daemon (SmallWorld CStr),
    run (handle (smallIomanx id)) sharedUmount (start 4 [] {}) = some s ∧
      mountedContainers s.world.mountSet = s.containers ∧ s.Occupied 1 ∧ ¬ s.Occupied 0 := by
  obtain ⟨s, hs⟩ : ∃ s, run (handle (smallIomanx id)) sharedUmount (start 4 [] {}) = some s :=
    ⟨_, rfl⟩
  have hcond : Along (handle (smallIomanx id)) KeepsHolder sharedUmount (start 4 [] {}) := by
    refine along_append.mpr ⟨?_, fun t ht => ?_⟩
    · refine ⟨?_, fun _ _ => ⟨?_, fun _ _ => ⟨?_, fun _ _ => ⟨?_, fun _ _ => trivial⟩⟩⟩⟩
      all_goals exact ⟨fun _ _ _ he => (by cases he), fun _ _ he => (by cases he)⟩
    · obtain rfl := Option.some.inj ht
      refine ⟨⟨fun _ _ _ he _ _ => ?_, fun _ _ he => (by cases he)⟩, fun _ _ => trivial⟩
      cases he
      exact ⟨1, by decide, by decide, by decide⟩
  have h := containers_of_run (smallIomanx_mountLaws id) (Set.eq_empty_of_forall_notMem
    fun m hm => absurd hm List.not_mem_nil) hcond hs
  refine ⟨s, hs, h.1, ?_, ?_⟩ <;> rw [← Option.some.inj hs] <;> decide

/-- Client 5 mounts a partition and unmounts it. -/
def mountUmount : List Event :=
  [.connect ⟨5, 9, 0, 0x20000⟩,
    .request 0 {} (some (.pfsdReqMount (pfsUnit 0) (ascii ['A']) 0 0 0)),
    .request 0 {} (some (.pfsdReqUmount (pfsUnit 0)))]

/-- No slot is left, and the container is still mounted. -/
theorem containers_leak : ∃ s : Daemon (SmallWorld CStr),
    run (handle (smallIomanx id)) mountUmount (start 4 [] {}) = some s ∧
      mountedContainers s.world.mountSet ≠ s.containers := by
  obtain ⟨s, hs⟩ : ∃ s, run (handle (smallIomanx id)) mountUmount (start 4 [] {}) = some s :=
    ⟨_, rfl⟩
  refine ⟨s, hs, fun h => ?_⟩
  have hmem : pfsUnit 0 ∈ mountedContainers s.world.mountSet := by
    refine ⟨ascii ['A'], ?_⟩
    rw [← Option.some.inj hs]
    exact List.mem_cons_self
  rw [h] at hmem
  obtain ⟨i, hi, -⟩ := hmem
  have hnone : ∀ i, i < 32 → (s.gMountlistItems i).mPid = 0 := by
    rw [← Option.some.inj hs]
    decide
  exact hi.2 (hnone i hi.1)

end PfsShell.Pfsd
