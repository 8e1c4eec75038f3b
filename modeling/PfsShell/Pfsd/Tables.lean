/-
# What the table operations do

One specification for each operation of `Rpc.lean` on the two tables, so that no later proof
unfolds a scan.  The open-file table is read as the list of its entries (`openfiles`): opening
appends, closing erases the first match (`openfiles_rpcCommonClose`).

`otherHolder_eq_zero` is about the last scan of `rpc_command_umount`, whose condition holds
only while `i == k`: it always stops at slot 0, so the daemon always finds that somebody else
still uses the container (`rpcCommandUmount_cases`).
-/
import PfsShell.Pfsd.Acts

namespace PfsShell.Pfsd

open PfsShell.Lib

namespace Tables

variable {t : Tables}

/-! ## 1. The open-file table -/

theorem mem_openfiles {e : OpenfileItem} :
    e ∈ t.openfiles ↔ ∃ i, i < t.gOpenfileCount.toNat ∧ t.gOpenfileItems i = e := mem_live

/-- The repeated scan of `rpc_common_open` finds the slot `rpc_remap_name` translates under. -/
theorem rpcCommonOpen_index (fd p : CInt) (name : CStr) :
    (t.rpcCommonOpen fd p name).gOpenfileItems t.gOpenfileCount.toNat =
      ⟨fd, p, t.remapSlot name p⟩ := Function.update_self _ _ _

@[simp] theorem gMountlistItems_rpcCommonOpen (fd p : CInt) (name : CStr) :
    (t.rpcCommonOpen fd p name).gMountlistItems = t.gMountlistItems := rfl

@[simp] theorem gMountlistItems_rpcCommonClose (fd p : CInt) :
    (t.rpcCommonClose fd p).gMountlistItems = t.gMountlistItems := rfl

theorem openfiles_rpcCommonOpen (fd p : CInt) (name : CStr) (h : 0 ≤ t.gOpenfileCount) :
    (t.rpcCommonOpen fd p name).openfiles =
      t.openfiles ++ [⟨fd, p, t.remapSlot name p⟩] := by
  have hcount : (t.rpcCommonOpen fd p name).gOpenfileCount.toNat
      = t.gOpenfileCount.toNat + 1 := by
    simp only [rpcCommonOpen]
    omega
  rw [openfiles, hcount]
  exact live_update_succ _ _ _

/-- Closing an entry that exists erases the first entry that matches. -/
theorem openfiles_rpcCommonClose {fd p : CInt}
    (h : ∃ e ∈ t.openfiles, Matches fd p e = true) :
    (t.rpcCommonClose fd p).openfiles = t.openfiles.eraseP (Matches fd p) := by
  obtain ⟨e, he, hm⟩ := h
  obtain ⟨i, hi, rfl⟩ := mem_openfiles.mp he
  have hlt : scan (fun i => Matches fd p (t.gOpenfileItems i) = true) t.gOpenfileCount.toNat
      < t.gOpenfileCount.toNat := scan_lt_iff.mpr ⟨i, hi, hm⟩
  have hcount : (t.rpcCommonClose fd p).gOpenfileCount.toNat = t.gOpenfileCount.toNat - 1 := by
    simp only [rpcCommonClose]
    omega
  rw [openfiles, hcount]
  exact (live_shiftDown hlt).trans (eraseIdx_scan _ _ _)

/-- An open adds at most its entry, whatever the count. -/
theorem openfiles_rpcCommonOpen_sublist (fd p : CInt) (name : CStr) :
    (t.rpcCommonOpen fd p name).openfiles.Sublist
      (t.openfiles ++ [⟨fd, p, t.remapSlot name p⟩]) := by
  by_cases h : 0 ≤ t.gOpenfileCount
  · rw [openfiles_rpcCommonOpen fd p name h]
  · have hnil : (t.rpcCommonOpen fd p name).openfiles = [] := by
      have hcount : (t.rpcCommonOpen fd p name).gOpenfileCount.toNat = 0 := by
        simp only [rpcCommonOpen]
        omega
      rw [openfiles, hcount, live_zero]
    rw [hnil]
    exact List.nil_sublist _

/-- A close adds no entry, whether one matches or not. -/
theorem openfiles_rpcCommonClose_sublist (fd p : CInt) :
    (t.rpcCommonClose fd p).openfiles.Sublist t.openfiles := by
  by_cases h : ∃ e ∈ t.openfiles, Matches fd p e = true
  · rw [openfiles_rpcCommonClose h]
    exact List.eraseP_sublist
  · have hscan : scan (fun i => Matches fd p (t.gOpenfileItems i) = true) t.gOpenfileCount.toNat
        = t.gOpenfileCount.toNat :=
      scan_eq_self_iff.mpr fun i hi hm => h ⟨_, mem_openfiles.mpr ⟨i, hi, rfl⟩, hm⟩
    have hk : t.gOpenfileCount.toNat - 1 - t.gOpenfileCount.toNat = 0 := by omega
    simp only [openfiles, rpcCommonClose, hscan, hk, shiftDown]
    exact live_sublist _ (by omega)

theorem gOpenfileCount_rpcCommonOpen (fd p : CInt) (name : CStr) :
    (t.rpcCommonOpen fd p name).gOpenfileCount = t.gOpenfileCount + 1 := rfl

theorem gOpenfileCount_rpcCommonClose (fd p : CInt) :
    (t.rpcCommonClose fd p).gOpenfileCount = t.gOpenfileCount - 1 := rfl

theorem matches_iff {fd p : CInt} {e : OpenfileItem} :
    Matches fd p e = true ↔ e.mFd = fd ∧ e.mPid = p := by
  simp [Matches]

/-- `rpc_remap_fd` passes a descriptor on when the client has an entry for it, and passes -1
otherwise. -/
theorem rpcRemapFd_cases (t : Tables) (fd p : CInt) :
    (t.rpcRemapFd fd p = fd ∧ ∃ e ∈ t.openfiles, Matches fd p e = true) ∨
    (t.rpcRemapFd fd p = -1 ∧ ∀ e ∈ t.openfiles, ¬ Matches fd p e = true) := by
  simp only [rpcRemapFd]
  split
  · rename_i h
    obtain ⟨i, hi, hm⟩ := scan_lt_iff.mp h
    exact .inl ⟨rfl, _, mem_openfiles.mpr ⟨i, hi, rfl⟩, hm⟩
  · rename_i h
    refine .inr ⟨rfl, fun e he hm => h ?_⟩
    obtain ⟨i, hi, rfl⟩ := mem_openfiles.mp he
    exact scan_lt_iff.mpr ⟨i, hi, hm⟩

/-! ## 2. Name translation -/

theorem remapSlot_le (name : CStr) (p : CInt) : t.remapSlot name p ≤ 32 := scan_le _

/-- The slot a name is translated under belongs to the client and its prefix begins the
name. -/
theorem remapSlot_spec {name : CStr} {p : CInt} (h : t.remapSlot name p < 32) :
    (t.gMountlistItems (t.remapSlot name p)).mPid = p ∧
      (t.gMountlistItems (t.remapSlot name p)).mStrFsPrefix <+: name := scan_holds h

theorem remapSlot_lt_iff {name : CStr} {p : CInt} :
    t.remapSlot name p < 32 ↔
      ∃ i, t.OwnedBy p i ∧ (t.gMountlistItems i).mStrFsPrefix <+: name := by
  rw [remapSlot, scan_lt_iff]
  constructor
  · rintro ⟨i, hi, hp, hpre⟩
    exact ⟨i, ⟨hi, hp⟩, hpre⟩
  · rintro ⟨i, ⟨hi, hp⟩, hpre⟩
    exact ⟨i, hi, hp, hpre⟩

theorem rpcRemapName_of_lt {name : CStr} {p : CInt} (h : t.remapSlot name p < 32) :
    t.rpcRemapName name p =
      (t.gMountlistItems (t.remapSlot name p)).mStrContainerPath ++
        name.drop (t.gMountlistItems (t.remapSlot name p)).mStrFsPrefix.length := if_pos h

theorem rpcRemapName_of_not_lt {name : CStr} {p : CInt} (h : ¬ t.remapSlot name p < 32) :
    t.rpcRemapName name p = t.rejectContainers name := if_neg h

/-- Two names that are translated in one packet do not touch while the first one keeps to its own
1024 bytes. -/
theorem rpcRemapNames_of_short {old : CStr} {p : CInt} (hold : old.length < 1024)
    (hshort : (t.rpcRemapName old p).length < 1024) (oldFirst : Bool) (new : CStr) :
    t.rpcRemapNames oldFirst old new p = (t.rpcRemapName old p, t.rpcRemapName new p) := by
  simp only [rpcRemapNames, firstName, secondName, if_pos hold, if_pos hshort, ite_self]

/-- A slot whose prefix begins the name translates it, when no earlier slot of the client
does. -/
theorem remapSlot_eq {name : CStr} {p : CInt} {n : ℕ} (hn : t.OwnedBy p n)
    (hpre : (t.gMountlistItems n).mStrFsPrefix <+: name)
    (hfirst : ∀ i, i < n → t.OwnedBy p i → ¬ (t.gMountlistItems i).mStrFsPrefix <+: name) :
    t.remapSlot name p = n :=
  scan_eq_of_first hn.1 ⟨hn.2, hpre⟩
    fun i hi h => hfirst i hi ⟨Nat.lt_trans hi hn.1, h.1⟩ h.2

/-- The rest of the name is appended to the container. -/
theorem rpcRemapName_append {f r : CStr} {p : CInt} {n : ℕ} (hn : n < 32)
    (hslot : t.remapSlot (f ++ r) p = n) (hf : (t.gMountlistItems n).mStrFsPrefix = f) :
    t.rpcRemapName (f ++ r) p = (t.gMountlistItems n).mStrContainerPath ++ r := by
  rw [rpcRemapName_of_lt (hslot.symm ▸ hn), hslot, hf, List.drop_left]

/-- A name that is not translated is passed on when it begins with no occupied slot's
container, and cut to nothing otherwise. -/
theorem rejectContainers_cases (t : Tables) (name : CStr) :
    (t.rejectContainers name = name ∧
      ∀ i, t.Occupied i → ¬ (t.gMountlistItems i).mStrContainerPath <+: name) ∨
    t.rejectContainers name = [] := by
  have key : ∀ (l : List ℕ) (acc : CStr),
      (l.foldl (fun name i => if (t.gMountlistItems i).mPid ≠ 0 ∧
        (t.gMountlistItems i).mStrContainerPath <+: name then [] else name) acc = acc ∧
        ∀ i ∈ l, (t.gMountlistItems i).mPid ≠ 0 →
          ¬ (t.gMountlistItems i).mStrContainerPath <+: acc) ∨
      l.foldl (fun name i => if (t.gMountlistItems i).mPid ≠ 0 ∧
        (t.gMountlistItems i).mStrContainerPath <+: name then [] else name) acc = [] := by
    intro l
    induction l with
    | nil => exact fun acc => .inl ⟨rfl, by simp⟩
    | cons i l ih =>
      intro acc
      rw [List.foldl_cons]
      split
      · rcases ih [] with ⟨h, -⟩ | h
        · exact .inr h
        · exact .inr h
      · rename_i hi
        rcases ih acc with ⟨h, hl⟩ | h
        · refine .inl ⟨h, fun j hj => ?_⟩
          rcases List.mem_cons.mp hj with rfl | hj
          · exact fun hp hpre => hi ⟨hp, hpre⟩
          · exact hl j hj
        · exact .inr h
  rcases key (List.range 32) name with ⟨h, hl⟩ | h
  · exact .inl ⟨h, fun i hi => hl i (List.mem_range.mpr hi.1) hi.2⟩
  · exact .inr h

/-! ## 3. The mount table -/

theorem findFreeMountInfo_spec (h : t.findFreeMountInfo < 32) :
    (t.gMountlistItems t.findFreeMountInfo).mPid = 0 := scan_holds h

theorem slotOfPrefix_le (fsname : CStr) (p : CInt) : t.slotOfPrefix fsname p ≤ 32 := scan_le _

theorem slotOfPrefix_spec {fsname : CStr} {p : CInt} (h : t.slotOfPrefix fsname p < 32) :
    t.OwnedBy p (t.slotOfPrefix fsname p) ∧
      (t.gMountlistItems (t.slotOfPrefix fsname p)).mStrFsPrefix = fsname :=
  ⟨⟨h, (scan_holds h).1⟩, (scan_holds h).2⟩

/-- The client has no slot with this prefix. -/
theorem not_of_slotOfPrefix {fsname : CStr} {p : CInt} (h : 32 ≤ t.slotOfPrefix fsname p) :
    ∀ i, t.OwnedBy p i → (t.gMountlistItems i).mStrFsPrefix ≠ fsname := fun _ hi he =>
  scan_eq_self_iff.mp (Nat.le_antisymm (slotOfPrefix_le fsname p) h) _ hi.1 ⟨hi.2, he⟩

theorem slotOfDevice_spec {devname : CStr} (h : t.slotOfDevice devname < 32) :
    t.Occupied (t.slotOfDevice devname) ∧
      (t.gMountlistItems (t.slotOfDevice devname)).mStrDevPrefix = devname :=
  ⟨⟨h, (scan_holds h).1⟩, (scan_holds h).2⟩

theorem OwnedBy.occupied {p : CInt} {i : ℕ} (h : t.OwnedBy p i) (hp : p ≠ 0) : t.Occupied i :=
  ⟨h.1, h.2.symm ▸ hp⟩

/-- **The scan for another holder always stops at slot 0.** -/
theorem otherHolder_eq_zero {i : ℕ} (hi : t.Occupied i) : t.otherHolder i = 0 := by
  refine scan_eq_of_first (by omega) ?_ fun j hj => absurd hj (Nat.not_lt_zero j)
  rintro ⟨rfl, hfree | hne⟩
  · exact hi.2 hfree
  · exact hne rfl

theorem item_fillSlot (i j : ℕ) (item : MountlistItem) :
    (t.fillSlot i item).gMountlistItems j = if j = i then item else t.gMountlistItems j :=
  Function.update_apply _ _ _ _

theorem item_umountCleanup_of_ne {i j : ℕ} (h : j ≠ i) :
    (t.umountCleanup i).gMountlistItems j = t.gMountlistItems j := Function.update_of_ne h _ _

theorem occupied_umountCleanup {i j : ℕ} :
    (t.umountCleanup i).Occupied j ↔ t.Occupied j ∧ j ≠ i := by
  by_cases h : j = i
  · subst h
    simp [Occupied, umountCleanup]
  · simp [Occupied, item_umountCleanup_of_ne h, h]

theorem occupied_fillSlot {i j : ℕ} {item : MountlistItem} (hi : i < 32) (hp : item.mPid ≠ 0) :
    (t.fillSlot i item).Occupied j ↔ t.Occupied j ∨ j = i := by
  by_cases h : j = i
  · subst h
    simp [Occupied, item_fillSlot, hi, hp]
  · simp [Occupied, item_fillSlot, h]

end Tables

/-! ## 4. The table requests -/

section Requests

variable {σ : Type} {io : IomanX σ}

variable (io) in
/-- What an open does to the tables: nothing, or it appends the entry for the descriptor that
iomanX returned, under the slot the name was translated with. -/
theorem openCommon_cases (mk : CStr → Call) (name : CStr) (p : CInt) (s : Daemon σ) :
    (¬ s.gOpenfileCount < 32 ∧
      openCommon io mk name p s = writeRpcret p (-24) s) ∨
    (s.gOpenfileCount < 32 ∧
      ¬ 0 ≤ (io (mk (s.rpcRemapName name p)) s.world).1.ret ∧
      openCommon io mk name p s =
        writeRpcret p (io (mk (s.rpcRemapName name p)) s.world).1.ret
          (scepfs io p (mk (s.rpcRemapName name p)) s).2) ∨
    (s.gOpenfileCount < 32 ∧
      0 ≤ (io (mk (s.rpcRemapName name p)) s.world).1.ret ∧
      (openCommon io mk name p s).2.toTables =
        s.rpcCommonOpen (io (mk (s.rpcRemapName name p)) s.world).1.ret p name ∧
      (openCommon io mk name p s).2.world = (io (mk (s.rpcRemapName name p)) s.world).2 ∧
      (openCommon io mk name p s).2.calls = s.calls ++
        [⟨p, mk (s.rpcRemapName name p), (io (mk (s.rpcRemapName name p)) s.world).1.ret⟩] ∧
      (openCommon io mk name p s).2.opened =
        ⟨(io (mk (s.rpcRemapName name p)) s.world).1.ret, p, name, s.rpcRemapName name p,
          s.remapSlot name p, s.gMountlistItems (s.remapSlot name p)⟩ :: s.opened) := by
  by_cases hc : s.gOpenfileCount < 32
  · by_cases hr : 0 ≤ (io (mk (s.rpcRemapName name p)) s.world).1.ret
    · refine .inr (.inr ⟨hc, hr, ?_⟩)
      have hr' : 0 ≤ (scepfs io p (mk (s.rpcRemapName name p)) s).1.ret := hr
      simp only [openCommon, if_pos hc, if_pos hr']
      exact ⟨rfl, rfl, rfl, rfl⟩
    · refine .inr (.inl ⟨hc, hr, ?_⟩)
      have hr' : ¬ 0 ≤ (scepfs io p (mk (s.rpcRemapName name p)) s).1.ret := hr
      simp only [openCommon, if_pos hc, if_neg hr']
      rfl
  · exact .inl ⟨hc, by simp only [openCommon, if_neg hc]⟩

variable (io) in
/-- What a close does: the call, and the removal of the entry when iomanX reports success. -/
theorem closeCommon_spec (mk : CInt → Call) (fd p : CInt) (s : Daemon σ) :
    (closeCommon io mk fd p s).2.toTables =
        (if (io (mk (s.rpcRemapFd fd p)) s.world).1.ret = 0 then s.rpcCommonClose fd p
          else s.toTables) ∧
      (closeCommon io mk fd p s).2.world = (io (mk (s.rpcRemapFd fd p)) s.world).2 ∧
      (closeCommon io mk fd p s).2.calls =
        s.calls ++ [⟨p, mk (s.rpcRemapFd fd p), (io (mk (s.rpcRemapFd fd p)) s.world).1.ret⟩] ∧
      (closeCommon io mk fd p s).2.opened = s.opened := by
  by_cases hr : (io (mk (s.rpcRemapFd fd p)) s.world).1.ret = 0
  · have hr' : (scepfs io p (mk (s.rpcRemapFd fd p)) s).1.ret = 0 := hr
    simp only [closeCommon, if_pos hr', if_pos hr]
    exact ⟨rfl, rfl, rfl, rfl⟩
  · have hr' : ¬ (scepfs io p (mk (s.rpcRemapFd fd p)) s).1.ret = 0 := hr
    simp only [closeCommon, if_neg hr', if_neg hr]
    exact ⟨rfl, rfl, rfl, rfl⟩

variable (io) in
/-- **What a UMOUNT does**: it is refused, or it frees the client's slot.  It makes no call to
iomanX in any case. -/
theorem rpcCommandUmount_cases {p : CInt} (hp : p ≠ 0) (fsname : CStr) (s : Daemon σ) :
    (s.slotOfPrefix fsname p = 32 ∧
      rpcCommandUmount io fsname p s = writeRpcret p (-19) s) ∨
    (s.slotOfPrefix fsname p < 32 ∧ s.inUse (s.slotOfPrefix fsname p) ∧
      rpcCommandUmount io fsname p s = writeRpcret p (-16) s) ∨
    (s.slotOfPrefix fsname p < 32 ∧ ¬ s.inUse (s.slotOfPrefix fsname p) ∧
      rpcCommandUmount io fsname p s =
        (0, { writeSocket p (int32Bytes 0) s with
          toTables := s.umountCleanup (s.slotOfPrefix fsname p) })) := by
  by_cases h32 : s.slotOfPrefix fsname p = 32
  · exact .inl ⟨h32, by simp only [rpcCommandUmount, if_pos h32]⟩
  · have hlt : s.slotOfPrefix fsname p < 32 :=
      Nat.lt_of_le_of_ne (Tables.slotOfPrefix_le fsname p) h32
    by_cases huse : s.inUse (s.slotOfPrefix fsname p)
    · exact .inr (.inl ⟨hlt, huse, by simp only [rpcCommandUmount, if_neg h32, if_pos huse]⟩)
    · have hk : s.otherHolder (s.slotOfPrefix fsname p) = 0 :=
        Tables.otherHolder_eq_zero ((Tables.slotOfPrefix_spec hlt).1.occupied hp)
      refine .inr (.inr ⟨hlt, huse, ?_⟩)
      simp only [rpcCommandUmount, if_neg h32, if_neg huse, hk]
      rfl

variable (io) in
/-- **What a MOUNT does**: after at most some mount calls it replies an error and leaves the
tables alone, or it fills a free slot for the client, under a prefix the client had not used,
with the container `mountDevice` found. -/
theorem rpcCommandMount_cases (fsname devname : CStr) (flag useshm arglen p : CInt)
    (s : Daemon σ) :
    (∃ ret buf t, ret ≠ 0 ∧ Framed s t ∧
      (t = s ∨ mountDevice io fsname (cutAt 44 devname) flag useshm arglen p s
        = ((ret, buf), t)) ∧
      rpcCommandMount io fsname devname flag useshm arglen p s = writeRpcret p ret t) ∨
    (∃ buf t, s.findFreeMountInfo < 32 ∧ 32 ≤ s.slotOfPrefix fsname p ∧ Framed s t ∧
      mountDevice io fsname (cutAt 44 devname) flag useshm arglen p s = ((0, buf), t) ∧
      rpcCommandMount io fsname devname flag useshm arglen p s = writeRpcret p 0 { t with
        toTables := s.fillSlot s.findFreeMountInfo ⟨p, fsname, buf, cutAt 44 devname⟩ }) := by
  have h24 : ¬ (-24 : CInt) = 0 := by decide
  have h16 : ¬ (-16 : CInt) = 0 := by decide
  by_cases hfree : s.findFreeMountInfo < 32
  · by_cases hdup : 32 ≤ s.slotOfPrefix fsname p
    · have hframe : Framed s _ :=
        (mountSteps_mountDevice io fsname (cutAt 44 devname) flag useshm arglen p s).framed
      obtain ⟨⟨⟨ret, buf⟩, t⟩, hm⟩ :
          ∃ x, mountDevice io fsname (cutAt 44 devname) flag useshm arglen p s = x := ⟨_, rfl⟩
      rw [hm] at hframe
      by_cases hr : ret = 0
      · subst hr
        refine .inr ⟨buf, t, hfree, hdup, hframe, hm, ?_⟩
        simp only [rpcCommandMount, if_pos hfree, if_pos hdup, hm]
        have ht : t.toTables = s.toTables := hframe.tables
        rw [if_pos trivial, ← ht]
      · refine .inl ⟨ret, buf, t, hr, hframe, .inr hm, ?_⟩
        simp only [rpcCommandMount, if_pos hfree, if_pos hdup, hm, if_neg hr]
    · refine .inl ⟨-16, fsname, s, h16, Framed.refl s, .inl rfl, ?_⟩
      simp only [rpcCommandMount, if_pos hfree, if_neg hdup, if_neg h16]
  · refine .inl ⟨-24, fsname, s, h24, Framed.refl s, .inl rfl, ?_⟩
    simp only [rpcCommandMount, if_neg hfree, if_neg h24]

/-! ## 5. The slots of the other clients -/

/-- An act for client `p` writes at most one slot, a free one or one of `p`'s, and leaves it
free or `p`'s. -/
theorem Act.items_cases {p : CInt} (hp : p ≠ 0) {s s' : Daemon σ} (h : Act io p s s') :
    s'.gMountlistItems = s.gMountlistItems ∨
    ∃ n item, s'.gMountlistItems = Function.update s.gMountlistItems n item ∧
      ((s.gMountlistItems n).mPid = 0 ∨ (s.gMountlistItems n).mPid = p) ∧
      (item.mPid = 0 ∨ item.mPid = p) := by
  cases h with
  | called hn => exact .inl rfl
  | wrote bytes => exact .inl rfl
  | stored m => exact .inl rfl
  | @opened mk hmk name =>
    rcases openCommon_cases io mk name p s with ⟨-, heq⟩ | ⟨-, -, heq⟩ | ⟨-, -, ht, -⟩
    · rw [heq]; exact .inl rfl
    · rw [heq]; exact .inl rfl
    · rw [ht]; exact .inl rfl
  | @closed mk hmk fd =>
    rw [(closeCommon_spec io mk fd p s).1]
    split <;> exact .inl rfl
  | mounted fsname devname flag useshm arglen =>
    rcases rpcCommandMount_cases io fsname devname flag useshm arglen p s with
      ⟨ret, buf, t, -, hframe, -, heq⟩ | ⟨buf, t, hfree, -, -, -, heq⟩
    · rw [heq]
      exact .inl (congrArg Tables.gMountlistItems hframe.tables)
    · rw [heq]
      exact .inr ⟨_, _, rfl, .inl (Tables.findFreeMountInfo_spec hfree), .inr rfl⟩
  | unmounted fsname =>
    rcases rpcCommandUmount_cases io hp fsname s with ⟨-, heq⟩ | ⟨-, -, heq⟩ |
      ⟨hlt, -, heq⟩
    · rw [heq]; exact .inl rfl
    · rw [heq]; exact .inl rfl
    · rw [heq]
      exact .inr ⟨_, _, rfl, .inr (Tables.slotOfPrefix_spec hlt).1.2, .inl rfl⟩

/-- **The slots of another client stay as they are**, and none is added to them. -/
theorem Act.item_eq {p q : CInt} (hp : p ≠ 0) (hq : q ≠ 0) (hne : q ≠ p) {s s' : Daemon σ}
    (h : Act io p s s') {i : ℕ}
    (hi : (s.gMountlistItems i).mPid = q ∨ (s'.gMountlistItems i).mPid = q) :
    s'.gMountlistItems i = s.gMountlistItems i := by
  rcases h.items_cases hp with heq | ⟨n, item, heq, hbefore, hafter⟩
  · rw [heq]
  · rw [heq] at hi ⊢
    refine Function.update_of_ne ?_ _ _
    rintro rfl
    rw [Function.update_self] at hi
    rcases hi with rfl | rfl
    · exact hbefore.elim hq hne
    · exact hafter.elim hq hne

/-- Acts for other clients leave the slot alone. -/
theorem Acts.item_eq {p q : CInt} (hp : p ≠ 0) (hq : q ≠ 0) (hne : p ≠ q)
    {s s' : Daemon σ} (h : Acts io q s s') {n : ℕ} (hn : (s.gMountlistItems n).mPid = p) :
    s'.gMountlistItems n = s.gMountlistItems n := by
  induction h with
  | refl => rfl
  | tail _ hact ih =>
    rw [← ih]
    exact hact.item_eq hq hp hne (.inl (by rw [ih]; exact hn))

end Requests

end PfsShell.Pfsd
