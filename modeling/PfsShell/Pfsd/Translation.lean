/-
# Whether translated names fit

`rpc_remap_name` puts the container of a slot where the slot's prefix was, in the memory of the
name: a name of 1023 bytes has room for that only if the container is no longer than the prefix.
MOUNT sees to it by nothing.  When iomanX finds the client's unit busy, the slot gets the container
of another client's slot, or one of `pfs0:` to `pfs31:`, and the client goes on calling it by the
shorter name.

* `translatesWithin_iff`: what the translation goes over;
* `translationsFit_iff`: the tables in which every name of a client fits;
* `translationsFit_of_run`: they stay so while no MOUNT gets a container longer than its name.
-/
import Mathlib.Order.Interval.Finset.Nat
import PfsShell.Pfsd.Marshalling
import PfsShell.Pfsd.Slots

namespace PfsShell.Pfsd

open PfsShell.Lib

/-! ## 1. The names that are translated, and their memory -/

/-- A name that `rpc_remap_name` is applied to: `size` bytes at `offset` are its own, of a memory
of `bound` bytes. -/
structure Translation where
  bound : ℕ
  offset : ℕ
  size : ℕ
  name : CStr

/-- The names that the arms of `event_handler_func` translate: in `name_buf`, or where they lie in
the packet. -/
def Request.translations : Request → List Translation
  | .pfsdReqOpen n _ _ | .pfsdReqDopen n => [⟨1200, 0, 1200, n⟩]
  | .pfsdReqChstat n _ _ | .pfsdReqGetstat n _ | .pfsdReqMkdir n _ | .pfsdReqRmdir n
  | .pfsdReqChdir n | .pfsdReqRemove n | .pfsdReqReadlink n _ _ | .pfsdReqSync n _
  | .pfsdReqDevctl n _ _ _ _ _ => [⟨opuSize, 0, 1024, n⟩]
  | .pfsdReqRename old new | .pfsdReqSymlink old new =>
    [⟨opuSize, 0, 1024, old⟩, ⟨opuSize, 1024, 1024, new⟩]
  | _ => []

/-- The translation of a name ends within the name's own bytes, and leaves all others alone. -/
def Tables.TranslatesWithin (t : Tables) (p : CInt) (x : Translation) : Prop :=
  ∀ m, window m x.offset (x.name ++ [0]).length = x.name ++ [0] →
    ∃ m', t.rpcRemapNameIn x.bound m x.offset p = some m' ∧
      ∀ i, ¬ (x.offset ≤ i ∧ i < x.offset + x.size) → m' i = m i

/-- The translations of all names of a request do. -/
def Request.TranslationsFit (t : Tables) (p : CInt) (req : Request) : Prop :=
  ∀ x ∈ req.translations, t.TranslatesWithin p x

/-- The names that are translated are names of the request, and lie in fields of at least 1024
bytes. -/
theorem translations_spec {req : Request} {x : Translation} (hx : x ∈ req.translations) :
    x.name ∈ req.names ∧ 1024 ≤ x.size ∧ x.offset + x.size ≤ x.bound := by
  have hpacket : 0 + 1024 ≤ opuSize ∧ 1024 + 1024 ≤ opuSize := by decide
  cases req with
  | pfsdReqRename _ _ | pfsdReqSymlink _ _ =>
    rcases List.mem_pair.mp hx with rfl | rfl
    · exact ⟨List.mem_cons_self, le_refl _, hpacket.1⟩
    · exact ⟨List.mem_cons_of_mem _ List.mem_cons_self, le_refl _, hpacket.2⟩
  | pfsdReqOpen _ _ _ | pfsdReqDopen _ =>
    obtain rfl := List.mem_singleton.mp hx
    exact ⟨List.mem_cons_self, (by decide : 1024 ≤ 1200), le_refl 1200⟩
  | pfsdReqChstat _ _ _ | pfsdReqGetstat _ _ | pfsdReqMkdir _ _ | pfsdReqRmdir _ | pfsdReqChdir _
  | pfsdReqRemove _ | pfsdReqReadlink _ _ _ | pfsdReqSync _ _ | pfsdReqDevctl _ _ _ _ _ _ =>
    obtain rfl := List.mem_singleton.mp hx
    exact ⟨List.mem_cons_self, le_refl _, hpacket.1⟩
  | _ => cases hx

theorem byte_ne_succ (b : UInt8) : b ≠ b + 1 := by
  intro h
  have hlt := b.toNat_lt
  have hnat := congrArg UInt8.toNat h
  rw [UInt8.toNat_add, UInt8.toNat_one] at hnat
  omega

section Fits

variable {t : Tables} {p : CInt}

/-- **What a translation goes over**: nothing but the name's own bytes exactly when it is shorter
than they are. -/
theorem translatesWithin_iff {x : Translation} (hnul : 0 ∉ x.name) (hlen : x.name.length < x.size)
    (hbound : x.offset + x.size ≤ x.bound) :
    t.TranslatesWithin p x ↔ (t.rpcRemapName x.name p).length < x.size := by
  have heq : ∀ m, window m x.offset (x.name ++ [0]).length = x.name ++ [0] →
      t.rpcRemapNameIn x.bound m x.offset p =
        if x.offset + (t.rpcRemapName x.name p).length < x.bound then
          some (overlay m x.offset (t.rpcRemapName x.name p ++ [0]))
        else none := fun m hm => rpcRemapNameIn_eq hnul hm (by omega) p
  constructor
  · intro h
    by_contra hge
    have hlong : x.size < (t.rpcRemapName x.name p ++ [0]).length := by
      simp
      omega
    -- a memory that has another byte than the translation behind the name's own ones
    generalize hm : overlay (fun _ => (t.rpcRemapName x.name p ++ [0])[x.size] + 1) x.offset
      (x.name ++ [0]) = m
    have hname : window m x.offset (x.name ++ [0]).length = x.name ++ [0] := by
      rw [← hm, window_overlay_self]
    obtain ⟨m', hbuilt, hkept⟩ := h m hname
    rw [heq m hname] at hbuilt
    split at hbuilt
    · obtain rfl := Option.some.inj hbuilt
      have hbehind := hkept (x.offset + x.size) (by omega)
      rw [overlay_of_mem (Nat.le_add_right _ _) (by rw [Nat.add_sub_cancel_left]; exact hlong), ← hm,
        overlay_of_notMem (.inr (by simp; omega))] at hbehind
      simp only [Nat.add_sub_cancel_left] at hbehind
      exact byte_ne_succ _ hbehind
    · cases hbuilt
  · intro hlt m hm
    refine ⟨_, (heq m hm).trans (if_pos (by omega)), fun i hi => ?_⟩
    refine overlay_of_notMem ?_
    rw [List.length_append, List.length_singleton]
    omega

/-! ## 2. Tables in which every name fits -/

/-- An earlier slot of the client translates whatever begins with the prefix of slot `i`. -/
def Tables.Hidden (t : Tables) (p : CInt) (i : ℕ) : Prop :=
  ∃ j < i, t.OwnedBy p j ∧
    (t.gMountlistItems j).mStrFsPrefix <+: (t.gMountlistItems i).mStrFsPrefix

/-- The container of a slot is no longer than its prefix. -/
def MountlistItem.NoLonger (item : MountlistItem) : Prop :=
  item.mStrContainerPath.length ≤ item.mStrFsPrefix.length

/-- The slot that translates a name is not hidden. -/
theorem not_hidden_remapSlot {name : CStr} (h : t.remapSlot name p < 32) :
    ¬ t.Hidden p (t.remapSlot name p) := by
  rintro ⟨j, hj, hown, hpre⟩
  exact not_of_lt_scan hj ⟨hown.2, hpre.trans (Tables.remapSlot_spec h).2⟩

/-- Translation makes no name longer. -/
theorem length_rpcRemapName_le
    (h : ∀ i, t.OwnedBy p i → ¬ t.Hidden p i → (t.gMountlistItems i).NoLonger) (name : CStr) :
    (t.rpcRemapName name p).length ≤ name.length := by
  by_cases hlt : t.remapSlot name p < 32
  · obtain ⟨hpid, hpre⟩ := Tables.remapSlot_spec hlt
    have hshort : (t.gMountlistItems (t.remapSlot name p)).NoLonger :=
      h _ ⟨hlt, hpid⟩ (not_hidden_remapSlot hlt)
    have hle := hpre.length_le
    rw [MountlistItem.NoLonger] at hshort
    rw [Tables.rpcRemapName_of_lt hlt, List.length_append, List.length_drop]
    omega
  · rw [Tables.rpcRemapName_of_not_lt hlt]
    rcases t.rejectContainers_cases name with ⟨heq, -⟩ | heq
    · rw [heq]
    · rw [heq]
      exact Nat.zero_le _

theorem translationsFit_of_noLonger
    (h : ∀ i, t.OwnedBy p i → ¬ t.Hidden p i → (t.gMountlistItems i).NoLonger) {req : Request}
    (hreq : req.Fits) : req.TranslationsFit t p := by
  intro x hx
  obtain ⟨hmem, hsize, hbound⟩ := translations_spec hx
  obtain ⟨hlen, hnul⟩ := hreq x.name hmem
  have hle := length_rpcRemapName_le h x.name
  exact (translatesWithin_iff hnul (by omega) hbound).mpr (by omega)

/-- There is a byte, and not the NUL, that the 32 prefixes do not have at an index. -/
theorem exists_byte_notMem (t : Tables) (k : ℕ) :
    ∃ c : UInt8, c ≠ 0 ∧ ∀ i < 32, (t.gMountlistItems i).mStrFsPrefix[k]? ≠ some c := by
  -- 255 bytes against 32
  obtain ⟨n, hn, hfree⟩ := Finset.exists_mem_notMem_of_card_lt_card
    (s := (Finset.range 32).image fun i =>
      (((t.gMountlistItems i).mStrFsPrefix[k]?).getD 0).toNat)
    (t := Finset.Ico 1 256)
    (lt_of_le_of_lt Finset.card_image_le (by rw [Finset.card_range, Nat.card_Ico]; decide))
  obtain ⟨hpos, hlt⟩ := Finset.mem_Ico.mp hn
  have hnat : (UInt8.ofNat n).toNat = n := by
    rw [UInt8.toNat_ofNat']
    exact Nat.mod_eq_of_lt hlt
  refine ⟨UInt8.ofNat n, ?_, fun i hi h => ?_⟩
  · intro h0
    rw [h0, UInt8.toNat_zero] at hnat
    omega
  · refine hfree (Finset.mem_image.mpr ⟨i, Finset.mem_range.mpr hi, ?_⟩)
    rw [h, Option.getD_some, hnat]

/-- The longest name that a slot translates: it goes on with a byte that no prefix has there. -/
theorem exists_longest_name {i : ℕ} (hi : t.OwnedBy p i) (hshown : ¬ t.Hidden p i)
    (hnames : IsName (t.gMountlistItems i).mStrFsPrefix) :
    ∃ r, IsName ((t.gMountlistItems i).mStrFsPrefix ++ r) ∧
      ((t.gMountlistItems i).mStrFsPrefix ++ r).length = 1023 ∧
        t.remapSlot ((t.gMountlistItems i).mStrFsPrefix ++ r) p = i := by
  obtain ⟨c, hc, hfree⟩ := exists_byte_notMem t (t.gMountlistItems i).mStrFsPrefix.length
  obtain ⟨hlen, hnul⟩ := hnames
  have hlong : ((t.gMountlistItems i).mStrFsPrefix ++
      List.replicate (1023 - (t.gMountlistItems i).mStrFsPrefix.length) c).length = 1023 := by
    rw [List.length_append, List.length_replicate]
    omega
  refine ⟨List.replicate (1023 - (t.gMountlistItems i).mStrFsPrefix.length) c, ⟨by omega, ?_⟩,
    hlong, ?_⟩
  · intro h
    rcases List.mem_append.mp h with h | h
    · exact hnul h
    · exact hc (List.eq_of_mem_replicate h).symm
  · refine Tables.remapSlot_eq hi (List.prefix_append _ _) fun j hj hown hpre => ?_
    by_cases hle : (t.gMountlistItems j).mStrFsPrefix.length ≤
        (t.gMountlistItems i).mStrFsPrefix.length
    · exact hshown ⟨j, hj, hown, List.prefix_of_prefix_length_le hpre (List.prefix_append _ _) hle⟩
    · have hlt := Nat.lt_of_not_le hle
      refine hfree j hown.1 ?_
      have hmax := hpre.length_le
      rw [hlong] at hmax
      have hat := hpre.getElem hlt
      rw [List.getElem?_eq_getElem hlt, hat, List.getElem_append_right (le_refl _)]
      simp

/-- **Every name of a client fits** exactly when, in each slot that translates any, the container
is no longer than the prefix. -/
theorem translationsFit_iff
    (hnames : ∀ i, t.OwnedBy p i → IsName (t.gMountlistItems i).mStrFsPrefix) :
    (∀ req : Request, req.Fits → req.TranslationsFit t p) ↔
      ∀ i, t.OwnedBy p i → ¬ t.Hidden p i → (t.gMountlistItems i).NoLonger := by
  constructor
  · intro h i hi hshown
    obtain ⟨r, hname, hlen, hslot⟩ := exists_longest_name hi hshown (hnames i hi)
    have hfits : (Request.pfsdReqMkdir ((t.gMountlistItems i).mStrFsPrefix ++ r) 0).Fits :=
      fun n hn => List.mem_singleton.mp hn ▸ hname
    have hshort : (t.rpcRemapName ((t.gMountlistItems i).mStrFsPrefix ++ r) p).length < 1024 :=
      (translatesWithin_iff hname.2 hname.1 (by decide : 0 + 1024 ≤ opuSize)).mp
        (h _ hfits _ List.mem_cons_self)
    rw [Tables.rpcRemapName_append hi.1 hslot rfl, List.length_append] at hshort
    rw [List.length_append] at hlen
    rw [MountlistItem.NoLonger]
    omega
  · exact fun h req hreq => translationsFit_of_noLonger h hreq

end Fits

/-! ## 3. Runs -/

section Runs

variable {σ : Type} (io : IomanX σ)

/-- Of the units from `i` on, with `k` of them left, iomanX finds all before `j` busy, and mounts
`j`. -/
def FirstFree (devname : CStr) (flag useshm arglen p : CInt) : ℕ → ℕ → Daemon σ → ℕ → Prop
  | 0, _, _, _ => False
  | k + 1, i, s, j =>
    let r := scepfs io p (mountCall (pfsUnit i) devname flag useshm arglen s) s
    (r.1.ret = 0 ∧ j = i) ∨
      (r.1.ret = -16 ∧ FirstFree devname flag useshm arglen p k (i + 1) r.2 j)

/-- When iomanX finds the name of a MOUNT busy that has a slot to fill, what stands in for it is no
longer: the container of the first slot with the device, or without one the first unit that is
free. -/
def MountsNoLonger (e : Event) (s : Daemon σ) : Prop :=
  ∀ pfd choice fsname devname flag useshm arglen,
    e = .request pfd choice (some (.pfsdReqMount fsname devname flag useshm arglen)) →
    s.findFreeMountInfo < 32 → 32 ≤ s.slotOfPrefix fsname (s.gConnectionPollfds pfd) →
    let dev := cutAt 44 devname
    let r := scepfs io (s.gConnectionPollfds pfd) (mountCall fsname dev flag useshm arglen s) s
    r.1.ret = -16 →
      (s.slotOfDevice dev < 32 →
        (s.gMountlistItems (s.slotOfDevice dev)).mStrContainerPath.length ≤ fsname.length) ∧
      (¬ s.slotOfDevice dev < 32 → ∀ j,
        FirstFree io dev flag useshm arglen (s.gConnectionPollfds pfd) 32 0 r.2 j →
          (pfsUnit j).length ≤ fsname.length)

variable {io} {s : Daemon σ}

/-- The unit of the fallback loop, when it succeeds. -/
theorem mountFallback_firstFree {devname : CStr} {flag useshm arglen p : CInt} :
    ∀ (k i : ℕ) (acc : CInt × CStr) (s : Daemon σ) {buf : CStr} {t : Daemon σ}, acc.1 = -16 →
      mountFallback io devname flag useshm arglen p k i acc s = ((0, buf), t) →
      ∃ j, FirstFree io devname flag useshm arglen p k i s j ∧ buf = pfsUnit j
  | 0, i, acc, s, buf, t, hacc, h => by
    obtain ⟨rfl, -⟩ := Prod.mk.inj h
    exact absurd hacc (by decide : ¬ (0 : CInt) = -16)
  | k + 1, i, acc, s, buf, t, hacc, h => by
    rw [mountFallback, if_pos hacc] at h
    by_cases h16 :
        (scepfs io p (mountCall (pfsUnit i) devname flag useshm arglen s) s).1.ret = -16
    · obtain ⟨j, hj, hbuf⟩ := mountFallback_firstFree k (i + 1) _ _ h16 h
      exact ⟨j, .inr ⟨h16, hj⟩, hbuf⟩
    · rw [mountFallback_of_ne h16] at h
      obtain ⟨hret, hbuf⟩ := Prod.mk.inj (Prod.mk.inj h).1
      exact ⟨i, .inl ⟨hret, rfl⟩, hbuf.symm⟩

theorem MountsNoLonger.fills {e : Event} (h : MountsNoLonger io e s) :
    FillsWith io MountlistItem.NoLonger e s := by
  rintro pfd choice fsname devname flag useshm arglen buf rfl ⟨hslot, hnew, t, hm⟩
  show buf.length ≤ fsname.length
  by_cases h16 : (scepfs io (s.gConnectionPollfds pfd)
      (mountCall fsname (cutAt 44 devname) flag useshm arglen s) s).1.ret = -16
  · obtain ⟨hshared, hfree⟩ := h pfd choice fsname devname flag useshm arglen rfl hslot hnew h16
    simp only [mountDevice, if_pos h16] at hm
    split at hm
    · rename_i hlt
      obtain ⟨-, rfl⟩ := Prod.mk.inj (Prod.mk.inj hm).1
      exact hshared hlt
    · rename_i hlt
      obtain ⟨j, hj, rfl⟩ := mountFallback_firstFree 32 0 _ _ h16 hm
      exact hfree hlt j hj
  · simp only [mountDevice, if_neg h16] at hm
    obtain ⟨-, rfl⟩ := Prod.mk.inj (Prod.mk.inj hm).1
    exact le_refl _

/-- **Translated names fit** in every state that the daemon reaches while no MOUNT gets a container
longer than its name: the names of every request of every client. -/
theorem translationsFit_of_run {socketFd : CInt} {shm : Mem} {w : σ} {es : List Event}
    (hcond : Along (handle io) (MountsNoLonger io) es (start socketFd shm w))
    (hrun : run (handle io) es (start socketFd shm w) = some s) :
    ∀ p ∈ s.clients, ∀ req : Request, req.Fits → req.TranslationsFit s.toTables p := by
  have hslots := AllSlots.run MountlistItem.NoLonger (fun _ _ _ hc => MountsNoLonger.fills hc) hcond
    hrun
  have hreach : Reachable io w s := ⟨socketFd, shm, es, hrun⟩
  intro p hp req hreq
  have hne : p ≠ 0 := (Int32.ne_of_lt (hreach.ok.pos p hp)).symm
  exact translationsFit_of_noLonger (fun i hi _ => hslots i (hi.occupied hne)) hreq

end Runs

/-- Client 5 mounts a partition as `pfs10:`, and client 6 the same one as `pfs20:`. -/
def mountSharedAs20 : List Event :=
  [.connect ⟨5, 9, 0, 0x20000⟩, .connect ⟨6, 9, 0, 0x20000⟩,
    .request 0 {} (some (.pfsdReqMount (pfsUnit 10) (ascii ['A']) 0 0 0)),
    .request 1 {} (some (.pfsdReqMount (pfsUnit 20) (ascii ['A']) 0 0 0))]

/-- The daemon after that. -/
def afterMountSharedAs20 : Daemon (SmallWorld CStr) :=
  (run (handle (smallIomanx id)) mountSharedAs20 (start 4 [] {})).getD (start 4 [] {})

/-- Client 6 makes a directory in its `pfs20:`, which is `pfs10:`. -/
theorem translationsFit_of_run_pfs20 :
    (Request.pfsdReqMkdir (pfsUnit 20 ++ ascii ['/', 'x']) 0x1FF).TranslationsFit
      afterMountSharedAs20.toTables 6 := by
  have hcond : Along (handle (smallIomanx id)) (MountsNoLonger (smallIomanx id))
      mountSharedAs20 (start 4 [] {}) := by
    refine ⟨fun _ _ _ _ _ _ _ he => (by cases he), fun t ht => ?_⟩
    obtain rfl := Option.some.inj ht
    refine ⟨fun _ _ _ _ _ _ _ he => (by cases he), fun t ht => ?_⟩
    obtain rfl := Option.some.inj ht
    refine ⟨?_, fun t ht => ?_⟩
    · rintro _ _ _ _ _ _ _ ⟨⟩ _ _ _ _ hbusy
      exact absurd hbusy (by decide)
    obtain rfl := Option.some.inj ht
    refine ⟨?_, fun _ _ => trivial⟩
    rintro _ _ _ _ _ _ _ ⟨⟩ _ _ _ _ _
    exact ⟨fun _ => by decide, fun hnone => absurd (by decide) hnone⟩
  exact translationsFit_of_run hcond rfl 6 (by decide)
    (.pfsdReqMkdir (pfsUnit 20 ++ ascii ['/', 'x']) 0x1FF)
    fun n hn => List.mem_singleton.mp hn ▸ (by decide)

/-- Client 6 mounts as `pfs0:` what is mounted as `pfs10:`: its names of 1023 bytes do not fit. -/
theorem translation_overruns :
    Reachable (smallIomanx id) {} afterMountShared ∧ 6 ∈ afterMountShared.clients ∧
    (Request.pfsdReqMkdir longName 0x1FF).Fits ∧
    ¬ (Request.pfsdReqMkdir longName 0x1FF).TranslationsFit afterMountShared.toTables 6 := by
  have hfits : (Request.pfsdReqMkdir longName 0x1FF).Fits :=
    fun n hn => List.mem_singleton.mp hn ▸ isName_longName
  refine ⟨reachable_afterMountShared, by decide, hfits, fun h => ?_⟩
  have hshort : (afterMountShared.rpcRemapName longName 6).length < 1024 :=
    (translatesWithin_iff isName_longName.2 isName_longName.1 (by decide : 0 + 1024 ≤ opuSize)).mp
      (h _ List.mem_cons_self)
  have hlong : (afterMountShared.rpcRemapName longName 6).length = 1024 := by
    rw [longName, rpcRemapName_afterMountShared, List.length_append, List.length_replicate]
    decide
  omega

end PfsShell.Pfsd
