/-
# Where a mounted name goes

After a MOUNT of `f` that replies 0 the client has a slot for `f`, and the slot stays what it
is until the client unmounts `f` or is gone (`Stays`, `slot_stays`).  A name that begins with
`f` is then rewritten under that slot, and a file opened by it is recorded under it, unless a
slot of the client with a lower number has a prefix that begins the name too: the scans take
the first match, and a client may mount two names of which one begins the other.
-/
import PfsShell.Pfsd.Mounts

namespace PfsShell.Pfsd

open PfsShell.Lib

variable {σ υ : Type} {io : IomanX σ} {unit : CStr → υ} {mounts : σ → Set (υ × CStr)}
  {s s' : Daemon σ}

/-! ## 1. The slot stays -/

/-- The event is neither a UMOUNT of `f` by client `p` that replies 0 nor the end of `p`. -/
def Stays (io : IomanX σ) (p : CInt) (f : CStr) (e : Event) (s : Daemon σ) : Prop :=
  (∀ pfd choice, e = .request pfd choice (some (.pfsdReqUmount f)) →
    s.gConnectionPollfds pfd = p → (rpcCommandUmount io f p s).1 ≠ 0) ∧
  ∀ pfd fuel, e = .hangup pfd fuel → s.gConnectionPollfds pfd ≠ p

/-- **Step lemma.**  The slot survives every event but those two. -/
theorem slot_stays (laws : MountLaws io unit mounts) {p : CInt} {f : CStr} {n : ℕ} {e : Event}
    (hp : p ≠ 0) (hok : s.Ok) (hn : (s.gMountlistItems n).mPid = p)
    (hf : (s.gMountlistItems n).mStrFsPrefix = f) (hstays : Stays io p f e s)
    (h : handle io e s = some s') : s'.gMountlistItems n = s.gMountlistItems n := by
  have hne0 : ∀ pfd, pfd < s.gCurrentClientCount → s.gConnectionPollfds pfd ≠ 0 :=
    fun pfd hlt => (Int32.ne_of_lt (hok.pos _ (Conns.mem_clients hlt))).symm
  rcases handle_cases h with ⟨a, -, -, rfl⟩ | ⟨pfd, choice, req, rfl, hlt, rfl, hacts⟩ |
    ⟨pfd, fuel, t, rfl, hlt, hacts, rfl⟩
  · rfl
  · by_cases hown : s.gConnectionPollfds pfd = p
    · -- a request of the client itself: only a UMOUNT of this very prefix could free the slot
      rcases (eventHandlerFunc_arm pfd choice req s).mountlist laws (hne0 pfd hlt) with
        ⟨hitems, -⟩ | ⟨fsname, devname, flag, useshm, arglen, buf, rfl, hfree, -, -, hitems⟩ |
        ⟨fsname, rfl, h0, hslot, -, hitems, -⟩
      · rw [hitems]
      · rw [hitems]
        refine (Tables.item_fillSlot _ _ _).trans (if_neg ?_)
        rintro rfl
        exact hp (hn.symm.trans (Tables.findFreeMountInfo_spec hfree))
      · rw [hown] at h0 hslot hitems
        rw [hitems]
        refine Tables.item_umountCleanup_of_ne ?_
        rintro rfl
        rw [(Tables.slotOfPrefix_spec hslot).2] at hf
        subst hf
        exact hstays.1 pfd choice rfl hown h0
    · exact hacts.item_eq hp (hne0 pfd hlt) (Ne.symm hown) hn
  · exact hacts.acts.item_eq hp (hne0 pfd hlt) (Ne.symm (hstays.2 pfd fuel rfl)) hn

/-- Run lemma. -/
theorem slot_stays_run (laws : MountLaws io unit mounts) {n : ℕ} {item : MountlistItem}
    {es : List Event} (hp : item.mPid ≠ 0) (hok : s.Ok) (hn : s.gMountlistItems n = item)
    (hstays : Along (handle io) (Stays io item.mPid item.mStrFsPrefix) es s)
    (h : run (handle io) es s = some s') : s'.gMountlistItems n = item := by
  have hstep : ∀ e (s s' : Daemon σ), (s.Ok ∧ s.gMountlistItems n = item) →
      Stays io item.mPid item.mStrFsPrefix e s → handle io e s = some s' →
      s'.Ok ∧ s'.gMountlistItems n = item := by
    rintro e s s' ⟨hok, hn⟩ hst he
    refine ⟨handle_ok hok he, ?_⟩
    rw [slot_stays laws hp hok (by rw [hn]) (by rw [hn]) hst he, hn]
  exact (along_preserves (I := fun s => s.Ok ∧ s.gMountlistItems n = item) hstep ⟨hok, hn⟩
    hstays h).2

/-! ## 2. One device, one container -/

/-- The units and the devices of the mounts determine each other. -/
def PartialBijection (M : Set (υ × CStr)) : Prop :=
  ∀ m ∈ M, ∀ m' ∈ M, m.1 = m'.1 ↔ m.2 = m'.2

theorem PartialBijection.insert {M : Set (υ × CStr)} (h : PartialBijection M) {name dev : CStr}
    (hfree : Unmounted unit name dev M) : PartialBijection (insert (unit name, dev) M) := by
  rintro m (rfl | hm) m' (rfl | hm')
  · exact ⟨fun _ => rfl, fun _ => rfl⟩
  · exact ⟨fun he => absurd he.symm (hfree m' hm').1, fun he => absurd he.symm (hfree m' hm').2⟩
  · exact ⟨fun he => absurd he (hfree m hm).1, fun he => absurd he (hfree m hm).2⟩
  · exact h m hm m' hm'

theorem Reachable.bijection (laws : MountLaws io unit mounts) {w : σ}
    (hw : PartialBijection (mounts w)) (h : Reachable io w s) :
    PartialBijection (mounts s.world) := by
  refine h.preserves (I := fun s => PartialBijection (mounts s.world)) (fun _ _ => hw) ?_
    (fun _ _ hs => hs)
  intro p s s' hp hs hact
  rcases hact.mountlist laws (Int32.ne_of_lt hp).symm with ⟨-, hM⟩ |
    ⟨fsname, devname, flag, useshm, arglen, buf, -, -, hg, -⟩ | ⟨fsname, -, -, hM⟩
  · rw [hM]; exact hs
  · cases hg with
    | direct _ hfree hM => rw [hM]; exact hs.insert hfree
    | fallback i _ hfree hM => rw [hM]; exact hs.insert hfree
    | shared k _ _ hM => rw [hM]; exact hs
  · rw [hM]; exact hs

/-! ## 3. Routing -/

/-- **Mount routing.**  A MOUNT of `f` on `d` that replies 0 creates a slot.  In every later
state before the client unmounts `f` or is gone, `d` is mounted on that slot's container `c`
and on nothing else, and a name `f ++ r` is rewritten to `c ++ r` and recorded under the slot,
for every `r` such that no lower slot of the client has a prefix that begins `f ++ r`. -/
theorem mount_routes (laws : MountLaws io unit mounts) {w : σ}
    (hw : PartialBijection (mounts w)) (h : Reachable io w s) {pfd : ℕ} {choice : Choice}
    {f d : CStr} {flag useshm arglen : CInt} (hpfd : pfd < s.gCurrentClientCount)
    {t : Daemon σ} (hmount : eventHandlerFunc io pfd choice
      (some (.pfsdReqMount f d flag useshm arglen)) s = (some 0, t))
    {es : List Event} (hstays : Along (handle io) (Stays io (s.gConnectionPollfds pfd) f) es t)
    (hrun : run (handle io) es t = some s') :
    ∃ n c, ¬ s.Occupied n ∧ t.OwnedBy (s.gConnectionPollfds pfd) n ∧
      (t.gMountlistItems n).mStrFsPrefix = f ∧
      s'.gMountlistItems n = t.gMountlistItems n ∧
      (s'.gMountlistItems n).mStrContainerPath = c ∧
      (unit c, cutAt 44 d) ∈ mounts s'.world ∧
      (∀ m ∈ mounts s'.world, m.2 = cutAt 44 d → m.1 = unit c) ∧
      ∀ r, (∀ i, i < n → s'.OwnedBy (s.gConnectionPollfds pfd) i →
          ¬ (s'.gMountlistItems i).mStrFsPrefix <+: f ++ r) →
        s'.rpcRemapName (f ++ r) (s.gConnectionPollfds pfd) = c ++ r ∧
        ∀ fd, (s'.rpcCommonOpen fd (s.gConnectionPollfds pfd) (f ++ r)).gOpenfileItems
          s'.gOpenfileCount.toNat = ⟨fd, s.gConnectionPollfds pfd, n⟩ := by
  have hp : s.gConnectionPollfds pfd ≠ 0 :=
    (Int32.ne_of_lt (h.ok.pos _ (Conns.mem_clients hpfd))).symm
  have hstep : handle io (.request pfd choice
      (some (.pfsdReqMount f d flag useshm arglen))) s = some t := by
    simp only [handle, if_pos hpfd, hmount]
  have ht : Reachable io w t := h.run (run_cons.mpr ⟨t, hstep, run_nil t⟩)
  have hs' : Reachable io w s' := ht.run hrun
  have hret := congrArg Prod.fst hmount
  have ht' := congrArg Prod.snd hmount
  simp only [eventHandlerFunc, returned, Option.some.injEq] at hret ht'
  rcases rpcCommandMount_mountlist laws f d flag useshm arglen (s.gConnectionPollfds pfd) s with
    ⟨hne, -, -⟩ | ⟨-, hfree, -, c, -, htables⟩
  · exact absurd (Int32.toInt_inj.mp (hret.trans Int32.toInt_zero.symm)) hne
  · rw [ht'] at htables
    have hitem : t.gMountlistItems s.findFreeMountInfo
        = ⟨s.gConnectionPollfds pfd, f, c, cutAt 44 d⟩ := by
      rw [htables]
      exact (Tables.item_fillSlot _ _ _).trans (if_pos rfl)
    have hkept : s'.gMountlistItems s.findFreeMountInfo
        = ⟨s.gConnectionPollfds pfd, f, c, cutAt 44 d⟩ :=
      slot_stays_run laws hp ht.ok hitem hstays hrun
    have hown : s'.OwnedBy (s.gConnectionPollfds pfd) s.findFreeMountInfo :=
      ⟨hfree, by rw [hkept]⟩
    have hmem : (unit c, cutAt 44 d) ∈ mounts s'.world := by
      have hm := (hs'.mountInv laws).mounted _ (hown.occupied hp)
      rwa [hkept] at hm
    refine ⟨s.findFreeMountInfo, c, fun hocc => hocc.2 (Tables.findFreeMountInfo_spec hfree),
      ⟨hfree, by rw [hitem]⟩, by rw [hitem], by rw [hkept, hitem], by rw [hkept], hmem, ?_, ?_⟩
    · exact fun m hm hd => (hs'.bijection laws hw m hm _ hmem).mpr hd
    · intro r hfirst
      have hslot := Tables.remapSlot_eq hown (by rw [hkept]; exact List.prefix_append f r) hfirst
      refine ⟨?_, fun fd => ?_⟩
      · have hname := Tables.rpcRemapName_append hfree hslot (by rw [hkept])
        rwa [hkept] at hname
      · rw [Tables.rpcCommonOpen_index, hslot]

/-! ## 4. Two clients on the small iomanX -/

/-- Clients 5 and 6 connect, and client 5 mounts partition A as `pfs1:`. -/
def mountA : List Event :=
  [.connect ⟨5, 9, 0, 0x20000⟩, .connect ⟨6, 9, 0, 0x20000⟩,
    .request 0 {} (some (.pfsdReqMount (pfsUnit 1) (ascii ['A']) 0 0 0))]

/-- The daemon after that. -/
def afterMountA : Daemon (SmallWorld (Option CStr)) :=
  (run (handle (smallIomanx unitOf)) mountA (start 4 [] {})).getD (start 4 [] {})

theorem reachable_afterMountA : Reachable (smallIomanx unitOf) {} afterMountA :=
  ⟨4, [], mountA, rfl⟩

/-- Then the client at `pfd` mounts partition B as `f`. -/
def afterMountB (pfd : ℕ) (f : CStr) : Daemon (SmallWorld (Option CStr)) :=
  (eventHandlerFunc (smallIomanx unitOf) pfd {}
    (some (.pfsdReqMount f (ascii ['B']) 0 0 0)) afterMountA).2

/-- Client 6 is given `pfs0:` for its `pfs1:`, and keeps it when client 5 unmounts. -/
theorem mount_routes_fallback : ∃ s', run (handle (smallIomanx unitOf))
    [.request 0 {} (some (.pfsdReqUmount (pfsUnit 1)))] (afterMountB 1 (pfsUnit 1)) = some s' ∧
      s'.rpcRemapName (pfsUnit 1 ++ ascii ['/', 'x']) 6 = pfsUnit 0 ++ ascii ['/', 'x'] := by
  have hbij : PartialBijection (({} : SmallWorld (Option CStr)).mountSet) :=
    fun m hm => absurd hm List.not_mem_nil
  have hmount : eventHandlerFunc (smallIomanx unitOf) 1 {}
      (some (.pfsdReqMount (pfsUnit 1) (ascii ['B']) 0 0 0)) afterMountA
        = (some 0, afterMountB 1 (pfsUnit 1)) := Prod.ext (by decide) rfl
  have hstays : Along (handle (smallIomanx unitOf))
      (Stays (smallIomanx unitOf) (afterMountA.gConnectionPollfds 1) (pfsUnit 1))
      [.request 0 {} (some (.pfsdReqUmount (pfsUnit 1)))] (afterMountB 1 (pfsUnit 1)) := by
    refine ⟨⟨fun pfd choice he hp => ?_, fun pfd fuel he => by cases he⟩, fun _ _ => trivial⟩
    cases he
    exact absurd hp (by decide)
  obtain ⟨s', hs'⟩ : ∃ s', run (handle (smallIomanx unitOf))
    [.request 0 {} (some (.pfsdReqUmount (pfsUnit 1)))] (afterMountB 1 (pfsUnit 1)) = some s' :=
    ⟨_, rfl⟩
  obtain ⟨n, c, -, hown, -, hitem, hc, -, -, hroute⟩ :=
    mount_routes (smallIomanx_mountLaws unitOf) hbij reachable_afterMountA (by decide) hmount
      hstays hs'
  have hn : n = 1 :=
    (by decide : ∀ n, n < 32 → ((afterMountB 1 (pfsUnit 1)).gMountlistItems n).mPid = 6 → n = 1)
      n hown.1 hown.2
  subst hn
  rw [hitem] at hc
  obtain rfl : pfsUnit 0 = c := hc
  refine ⟨s', hs', (hroute _ fun i hi ho => absurd ho.2 ?_).1⟩
  obtain rfl : i = 0 := Nat.lt_one_iff.mp hi
  rw [← Option.some.inj hs']
  decide

/-- Client 5 mounts partition B as `pfs1:a`, beside its `pfs1:`: it is given `pfs0:`, and a
name that begins with `pfs1:a` is still rewritten for `pfs1:`, which is not where B is. -/
theorem mount_routes_overlap : Reachable (smallIomanx unitOf) {} afterMountA ∧
    eventHandlerFunc (smallIomanx unitOf) 0 {}
      (some (.pfsdReqMount (pfsUnit 1 ++ ascii ['a']) (ascii ['B']) 0 0 0)) afterMountA
        = (some 0, afterMountB 0 (pfsUnit 1 ++ ascii ['a'])) ∧
    ∃ r, ∀ c, (unitOf c, ascii ['B']) ∈
        (afterMountB 0 (pfsUnit 1 ++ ascii ['a'])).world.mountSet →
      (afterMountB 0 (pfsUnit 1 ++ ascii ['a'])).rpcRemapName
        ((pfsUnit 1 ++ ascii ['a']) ++ r) 5 ≠ c ++ r := by
  refine ⟨reachable_afterMountA, Prod.ext (by decide) rfl, ascii ['/'], fun c hc heq => ?_⟩
  have hname : (afterMountB 0 (pfsUnit 1 ++ ascii ['a'])).rpcRemapName
      ((pfsUnit 1 ++ ascii ['a']) ++ ascii ['/']) 5 =
        (pfsUnit 1 ++ ascii ['a']) ++ ascii ['/'] := by
    decide
  obtain rfl := List.append_cancel_right (hname.symm.trans heq)
  have hnot : (unitOf (pfsUnit 1 ++ ascii ['a']), ascii ['B']) ∉
      (afterMountB 0 (pfsUnit 1 ++ ascii ['a'])).world.mounts := by
    decide
  exact hnot hc

end PfsShell.Pfsd
