/-
# The open-file table

`g_openfile_items` is filled by OPEN and DOPEN, closed up by CLOSE and DCLOSE, and each entry
refers by index to the mount slot its name was translated under.  `OpenInv` says that the table
is exact: it holds the descriptors iomanX has open for pfsd, each once, and every index is 32
or a slot that still belongs to the entry's client and has not changed since the open.

Two things keep the second half true.  A slot in use is not freed (`rpc_command_umount`
refuses), and a slot that is filled was free, so it is the slot of no entry.  `rpc_common_close`
decrements the count even when nothing matched; it is reached only after `iomanX_close`
succeeded, hence on a descriptor the client has an entry for.
-/
import PfsShell.Pfsd.Iomanx
import PfsShell.Pfsd.Tables

namespace PfsShell.Pfsd

open PfsShell.Lib

variable {σ : Type}

/-! ## 1. The invariant -/

/-- The entry goes back to the newest successful open of its descriptor: same client, same
slot, and the slot still holds what it held then. -/
def Tables.RecordedAs (t : Tables) (e : OpenfileItem) (o : Opened) : Prop :=
  o.pid = e.mPid ∧ o.slot = e.mMountlistIndex ∧
    (o.slot < 32 → t.gMountlistItems o.slot = o.item)

/-- The record of an open is what `rpc_remap_name` made of the name and what the daemon then
passed to iomanX: under a slot of the client whose prefix begins the name, the container and
the rest of the name. -/
structure Opened.Translated (calls : List CallRecord) (o : Opened) : Prop where
  slot_le : o.slot ≤ 32
  under : o.slot < 32 → o.item.mPid = o.pid ∧ o.item.mStrFsPrefix <+: o.name ∧
    o.path = o.item.mStrContainerPath ++ o.name.drop o.item.mStrFsPrefix.length
  called : ∃ c : Call, c.Opens ∧ c.paths = [o.path] ∧ ⟨o.pid, c, o.fd⟩ ∈ calls

/-- **The open-file table invariant.** -/
structure OpenInv (fds : σ → Set CInt) (s : Daemon σ) : Prop where
  count_nonneg : 0 ≤ s.gOpenfileCount
  count_le : s.gOpenfileCount ≤ 32
  nodup : (s.openfiles.map OpenfileItem.mFd).Nodup
  exact : ∀ fd, fd ∈ fds s.world ↔ ∃ e ∈ s.openfiles, e.mFd = fd
  nonneg : ∀ e ∈ s.openfiles, 0 ≤ e.mFd
  pid : ∀ e ∈ s.openfiles, e.mPid ≠ 0
  slot : ∀ e ∈ s.openfiles, e.mMountlistIndex = 32 ∨ s.OwnedBy e.mPid e.mMountlistIndex
  recorded : ∀ e ∈ s.openfiles, ∃ o,
    s.opened.find? (fun o => o.fd = e.mFd) = some o ∧ s.RecordedAs e o
  translated : ∀ o ∈ s.opened, o.Translated s.calls

/-! ## 2. Lists without two equal keys -/

section Lists

variable {α β : Type*} {f : α → β} {l : List α} {p : α → Bool}

/-- Erasing the first match of a list without equal keys removes that key. -/
theorem key_ne_of_mem_eraseP (hn : (l.map f).Nodup) {k : β} (hk : ∀ x, p x = true → f x = k)
    (hex : ∃ x ∈ l, p x = true) : ∀ x ∈ l.eraseP p, f x ≠ k := by
  obtain ⟨a, ha, hpa⟩ := hex
  obtain ⟨b, l₁, l₂, -, hpb, rfl, herase⟩ := List.exists_of_eraseP ha hpa
  rw [herase]
  rw [List.map_append, List.map_cons, List.nodup_append] at hn
  obtain ⟨-, hn₂, hdisj⟩ := hn
  intro x hx hfx
  have hfb : f b = k := hk b hpb
  rcases List.mem_append.mp hx with h | h
  · exact hdisj _ (List.mem_map_of_mem h) _ List.mem_cons_self (hfx.trans hfb.symm)
  · exact (List.nodup_cons.mp hn₂).1 (hfb ▸ hfx ▸ List.mem_map_of_mem h)

theorem mem_eraseP_iff_of_key (hn : (l.map f).Nodup) {k : β} (hk : ∀ x, p x = true → f x = k)
    (hex : ∃ x ∈ l, p x = true) (x : α) : x ∈ l.eraseP p ↔ x ∈ l ∧ f x ≠ k := by
  constructor
  · exact fun hx => ⟨List.mem_of_mem_eraseP hx, key_ne_of_mem_eraseP hn hk hex x hx⟩
  · rintro ⟨hx, hne⟩
    exact (List.mem_eraseP_of_neg fun hp => hne (hk x hp)).mpr hx

end Lists

/-! ## 3. The acts preserve it -/

section Preserved

variable {io : IomanX σ} {fds : σ → Set CInt} {s s' : Daemon σ}

/-- Nothing of what the invariant reads changed. -/
theorem OpenInv.congr (h : OpenInv fds s) (ht : s'.toTables = s.toTables)
    (hw : fds s'.world = fds s.world) (hc : ∃ news, s'.calls = s.calls ++ news)
    (ho : s'.opened = s.opened) : OpenInv fds s' := by
  obtain ⟨news, hc⟩ := hc
  constructor
  · rw [ht]; exact h.count_nonneg
  · rw [ht]; exact h.count_le
  · rw [ht]; exact h.nodup
  · rw [ht, hw]; exact h.exact
  · rw [ht]; exact h.nonneg
  · rw [ht]; exact h.pid
  · rw [ht]; exact h.slot
  · rw [ht, ho]; exact h.recorded
  · intro o hm
    rw [ho] at hm
    obtain ⟨hle, hunder, c, h₁, h₂, h₃⟩ := h.translated o hm
    exact ⟨hle, hunder, c, h₁, h₂, by rw [hc]; exact List.mem_append_left _ h₃⟩

/-- A new entry for a descriptor that was not open. -/
theorem OpenInv.push (h : OpenInv fds s) {p fd : CInt} {name : CStr} {c : Call} (hp : p ≠ 0)
    (hlt : s.gOpenfileCount < 32) (hfd : 0 ≤ fd) (hfresh : fd ∉ fds s.world)
    (hopens : c.Opens) (hpaths : c.paths = [s.rpcRemapName name p])
    (ht : s'.toTables = s.rpcCommonOpen fd p name)
    (hw : fds s'.world = insert fd (fds s.world)) (hc : s'.calls = s.calls ++ [⟨p, c, fd⟩])
    (ho : s'.opened = ⟨fd, p, name, s.rpcRemapName name p, s.remapSlot name p,
      s.gMountlistItems (s.remapSlot name p)⟩ :: s.opened) : OpenInv fds s' := by
  have hfiles : s'.openfiles = s.openfiles ++ [⟨fd, p, s.remapSlot name p⟩] := by
    rw [ht]
    exact Tables.openfiles_rpcCommonOpen fd p name h.count_nonneg
  have hcount : s'.gOpenfileCount = s.gOpenfileCount + 1 := by rw [ht]; rfl
  have hitems : s'.gMountlistItems = s.gMountlistItems := by rw [ht]; rfl
  have hnew : ∀ e ∈ s.openfiles, e.mFd ≠ fd := fun e he heq =>
    hfresh ((h.exact fd).mpr ⟨e, he, heq⟩)
  have hcases : ∀ e ∈ s'.openfiles, e ∈ s.openfiles ∨ e = ⟨fd, p, s.remapSlot name p⟩ := by
    intro e he
    rw [hfiles] at he
    rcases List.mem_append.mp he with he | he
    · exact .inl he
    · exact .inr (List.mem_singleton.mp he)
  constructor
  · have := h.count_nonneg
    omega
  · omega
  · rw [hfiles, List.map_append, List.nodup_append]
    refine ⟨h.nodup, by simp, fun a ha b hb => ?_⟩
    obtain ⟨e, he, rfl⟩ := List.mem_map.mp ha
    rw [List.mem_singleton.mp hb]
    exact hnew e he
  · intro x
    rw [hw, Set.mem_insert_iff, h.exact x, hfiles]
    constructor
    · rintro (rfl | ⟨e, he, rfl⟩)
      · exact ⟨_, List.mem_append_right _ List.mem_cons_self, rfl⟩
      · exact ⟨e, List.mem_append_left _ he, rfl⟩
    · rintro ⟨e, he, rfl⟩
      rcases List.mem_append.mp he with he | he
      · exact .inr ⟨e, he, rfl⟩
      · exact .inl (by rw [List.mem_singleton.mp he])
  · intro e he
    rcases hcases e he with he | rfl
    · exact h.nonneg e he
    · exact hfd
  · intro e he
    rcases hcases e he with he | rfl
    · exact h.pid e he
    · exact hp
  · intro e he
    simp only [Tables.OwnedBy, hitems]
    rcases hcases e he with he | rfl
    · exact h.slot e he
    · rcases Nat.lt_or_ge (s.remapSlot name p) 32 with hlt | hge
      · exact .inr ⟨hlt, (Tables.remapSlot_spec hlt).1⟩
      · exact .inl (Nat.le_antisymm (Tables.remapSlot_le name p) hge)
  · intro e he
    simp only [Tables.RecordedAs, hitems, ho]
    rcases hcases e he with he | rfl
    · obtain ⟨o, hfind, hrec⟩ := h.recorded e he
      refine ⟨o, ?_, hrec⟩
      rw [List.find?_cons_of_neg (by simpa using (hnew e he).symm)]
      exact hfind
    · exact ⟨_, List.find?_cons_of_pos (by simp), rfl, rfl, fun _ => rfl⟩
  · intro o hm
    rw [ho] at hm
    rw [hc]
    rcases List.mem_cons.mp hm with rfl | hm
    · refine ⟨Tables.remapSlot_le name p, fun hlt => ?_, c, hopens, hpaths,
        List.mem_append_right _ List.mem_cons_self⟩
      obtain ⟨hpid, hpre⟩ := Tables.remapSlot_spec hlt
      exact ⟨hpid, hpre, Tables.rpcRemapName_of_lt hlt⟩
    · obtain ⟨hle, hunder, c', h₁, h₂, h₃⟩ := h.translated o hm
      exact ⟨hle, hunder, c', h₁, h₂, List.mem_append_left _ h₃⟩

/-- The removal of the client's entry for a descriptor that was closed. -/
theorem OpenInv.pop (h : OpenInv fds s) {p fd : CInt}
    (hex : ∃ e ∈ s.openfiles, Tables.Matches fd p e = true)
    (ht : s'.toTables = s.rpcCommonClose fd p) (hw : fds s'.world = fds s.world \ {fd})
    (hc : ∃ news, s'.calls = s.calls ++ news) (ho : s'.opened = s.opened) :
    OpenInv fds s' := by
  have hfiles : s'.openfiles = s.openfiles.eraseP (Tables.Matches fd p) := by
    rw [ht]
    exact Tables.openfiles_rpcCommonClose hex
  have hmem : ∀ e, e ∈ s'.openfiles ↔ e ∈ s.openfiles ∧ e.mFd ≠ fd := by
    intro e
    rw [hfiles]
    exact mem_eraseP_iff_of_key h.nodup (fun x hx => (Tables.matches_iff.mp hx).1) hex e
  have hpos : 0 < s.gOpenfileCount := by
    obtain ⟨e, he, -⟩ := hex
    obtain ⟨i, hi, -⟩ := Tables.mem_openfiles.mp he
    omega
  have hcount : s'.gOpenfileCount = s.gOpenfileCount - 1 := by rw [ht]; rfl
  have hitems : s'.gMountlistItems = s.gMountlistItems := by rw [ht]; rfl
  obtain ⟨news, hc⟩ := hc
  constructor
  · omega
  · have := h.count_le
    omega
  · rw [hfiles]
    exact h.nodup.sublist (List.eraseP_sublist.map _)
  · intro x
    rw [hw, Set.mem_sdiff, Set.mem_singleton_iff, h.exact x]
    constructor
    · rintro ⟨⟨e, he, rfl⟩, hne⟩
      exact ⟨e, (hmem e).mpr ⟨he, hne⟩, rfl⟩
    · rintro ⟨e, he, rfl⟩
      exact ⟨⟨e, ((hmem e).mp he).1, rfl⟩, ((hmem e).mp he).2⟩
  · exact fun e he => h.nonneg e ((hmem e).mp he).1
  · exact fun e he => h.pid e ((hmem e).mp he).1
  · intro e he
    simp only [Tables.OwnedBy, hitems]
    exact h.slot e ((hmem e).mp he).1
  · intro e he
    simp only [Tables.RecordedAs, hitems, ho]
    exact h.recorded e ((hmem e).mp he).1
  · intro o hm
    rw [ho] at hm
    obtain ⟨hle, hunder, c, h₁, h₂, h₃⟩ := h.translated o hm
    exact ⟨hle, hunder, c, h₁, h₂, by rw [hc]; exact List.mem_append_left _ h₃⟩

/-- A change of the mount table that leaves the slots of the open files alone. -/
theorem OpenInv.remount (h : OpenInv fds s)
    (hfiles : s'.gOpenfileItems = s.gOpenfileItems) (hcount : s'.gOpenfileCount = s.gOpenfileCount)
    (hitems : ∀ e ∈ s.openfiles, e.mMountlistIndex < 32 →
      s'.gMountlistItems e.mMountlistIndex = s.gMountlistItems e.mMountlistIndex)
    (hw : fds s'.world = fds s.world) (hc : ∃ news, s'.calls = s.calls ++ news)
    (ho : s'.opened = s.opened) : OpenInv fds s' := by
  have hopen : s'.openfiles = s.openfiles := by
    simp only [Tables.openfiles, hfiles, hcount]
  obtain ⟨news, hc⟩ := hc
  constructor
  · rw [hcount]; exact h.count_nonneg
  · rw [hcount]; exact h.count_le
  · rw [hopen]; exact h.nodup
  · rw [hopen, hw]; exact h.exact
  · rw [hopen]; exact h.nonneg
  · rw [hopen]; exact h.pid
  · intro e he
    rw [hopen] at he
    rcases h.slot e he with h32 | hown
    · exact .inl h32
    · exact .inr ⟨hown.1, by rw [hitems e he hown.1]; exact hown.2⟩
  · intro e he
    rw [hopen] at he
    obtain ⟨o, hfind, hpid, hslot, hitem⟩ := h.recorded e he
    refine ⟨o, by rw [ho]; exact hfind, hpid, hslot, fun hlt => ?_⟩
    rw [hslot] at hlt
    rw [← hitem (hslot ▸ hlt), hslot, hitems e he hlt]
  · intro o hm
    rw [ho] at hm
    obtain ⟨hle, hunder, c, h₁, h₂, h₃⟩ := h.translated o hm
    exact ⟨hle, hunder, c, h₁, h₂, by rw [hc]; exact List.mem_append_left _ h₃⟩

/-- **Every act preserves the open-file table invariant.** -/
theorem OpenInv.act (laws : FdLaws io fds) {p : CInt} (hp : p ≠ 0) (h : OpenInv fds s)
    (hact : Act io p s s') : OpenInv fds s' := by
  cases hact with
  | called hn => exact h.congr rfl (laws.others _ _ hn.1 hn.2.1) ⟨_, rfl⟩ rfl
  | wrote bytes => exact h.congr rfl rfl ⟨[], by simp [writeSocket]⟩ rfl
  | stored m => exact h.congr rfl rfl ⟨[], by simp⟩ rfl
  | @opened mk hmk name =>
    rcases openCommon_cases io mk name p s with ⟨-, heq⟩ | ⟨-, hneg, heq⟩ |
      ⟨hlt, hret, ht, hw, hc, ho⟩
    · rw [heq]
      exact h.congr rfl rfl ⟨[], by simp [writeRpcret, writeSocket]⟩ rfl
    · rw [heq]
      rcases laws.opens _ s.world (hmk.opens (s.rpcRemapName name p)) with ⟨h0, -⟩ | ⟨-, hfds⟩
      · exact absurd h0 hneg
      · exact h.congr rfl hfds ⟨_, rfl⟩ rfl
    · rcases laws.opens _ s.world (hmk.opens (s.rpcRemapName name p)) with
        ⟨-, hfresh, hfds⟩ | ⟨hneg, -⟩
      · exact h.push hp hlt hret hfresh (hmk.opens _) (hmk.paths _) ht (by rw [hw]; exact hfds)
          hc ho
      · exact absurd hneg (Int32.not_lt.mpr hret)
  | @closed mk hmk fd =>
    obtain ⟨ht, hw, hc, ho⟩ := closeCommon_spec io mk fd p s
    rcases laws.closes _ _ s.world (hmk.closes (s.rpcRemapFd fd p)) with
      ⟨h0, hopen, hfds⟩ | ⟨hne, hfds⟩
    · rw [if_pos h0] at ht
      rcases Tables.rpcRemapFd_cases s.toTables fd p with ⟨hfd, hex⟩ | ⟨hfd, -⟩
      · exact h.pop hex ht (by rw [hw, hfds, hfd]) ⟨_, hc⟩ ho
      · rw [hfd] at hopen
        obtain ⟨e, he, hm1⟩ := (h.exact _).mp hopen
        exact absurd (hm1 ▸ h.nonneg e he) (by decide)
    · rw [if_neg hne] at ht
      exact h.congr ht (by rw [hw, hfds]) ⟨_, hc⟩ ho
  | mounted fsname devname flag useshm arglen =>
    have hsteps := mountSteps_mountDevice io fsname (cutAt 44 devname) flag useshm
      arglen p s
    have hg : ∀ f d flag arg len w, fds (io (.scepfsMount f d flag arg len) w).2 = fds w :=
      fun f d flag arg len w => laws.others _ w id rfl
    rcases rpcCommandMount_cases io fsname devname flag useshm arglen p s with
      ⟨ret, buf, t, -, hframe, hcalls, heq⟩ | ⟨buf, t, hfree, -, hframe, hm, heq⟩
    · rw [heq]
      rcases hcalls with rfl | hm
      · exact h.congr rfl rfl ⟨[], by simp [writeRpcret, writeSocket]⟩ rfl
      · rw [hm] at hsteps
        obtain ⟨news, hc, -⟩ := hsteps.calls
        exact h.congr hframe.tables (hsteps.world hg) ⟨news, hc⟩ hframe.opened
    · rw [heq]
      rw [hm] at hsteps
      obtain ⟨news, hc, -⟩ := hsteps.calls
      refine h.remount rfl rfl (fun e he hlt => ?_) (hsteps.world hg) ⟨news, hc⟩ hframe.opened
      have hne : e.mMountlistIndex ≠ s.findFreeMountInfo := by
        intro hi
        rcases h.slot e he with h32 | hown
        · omega
        · have hzero := hown.2
          rw [hi, Tables.findFreeMountInfo_spec hfree] at hzero
          exact h.pid e he hzero.symm
      exact (Tables.item_fillSlot _ _ _).trans (if_neg hne)
  | unmounted fsname =>
    rcases rpcCommandUmount_cases io hp fsname s with ⟨-, heq⟩ | ⟨-, -, heq⟩ |
      ⟨hlt, huse, heq⟩
    · rw [heq]
      exact h.congr rfl rfl ⟨[], by simp [writeRpcret, writeSocket]⟩ rfl
    · rw [heq]
      exact h.congr rfl rfl ⟨[], by simp [writeRpcret, writeSocket]⟩ rfl
    · rw [heq]
      refine h.remount rfl rfl (fun e he _ => ?_) rfl ⟨[], by simp [writeSocket]⟩ rfl
      exact Tables.item_umountCleanup_of_ne fun hi => huse ⟨e, he, hi⟩

theorem openInv_start (socketFd : CInt) (shm : Mem) {w : σ} (hw : fds w = ∅) :
    OpenInv fds (start socketFd shm w) := by
  have hnil : (start socketFd shm w).openfiles = [] := rfl
  have hnone : ∀ {P : OpenfileItem → Prop}, ∀ e ∈ (start socketFd shm w).openfiles, P e :=
    fun e he => absurd he (hnil ▸ List.not_mem_nil)
  constructor
  · exact Int.le_refl 0
  · exact Int.zero_le_ofNat 32
  · rw [hnil]; exact List.nodup_nil
  · intro fd
    have hfds : fds (start socketFd shm w).world = ∅ := hw
    simp [hnil, hfds]
  · exact hnone
  · exact hnone
  · exact hnone
  · exact hnone
  · exact fun o ho => absurd ho List.not_mem_nil

theorem Reachable.openInv (laws : FdLaws io fds) {w : σ} (hw : fds w = ∅)
    (h : Reachable io w s) : OpenInv fds s :=
  h.preserves (fun fd shm => openInv_start fd shm hw)
    (fun p _ _ hp hs hact => hs.act laws (Int32.ne_of_lt hp).symm hact)
    (fun _ _ hs => hs.congr rfl rfl ⟨[], by simp⟩ rfl)

/-! ## 4. The table in every reachable state -/

/-- **The open-file table is exact in every reachable state**: the count is within the array,
the entries hold the descriptors that are open in iomanX, each once, and each entry's index is
32 or an occupied slot of the entry's client: the slot its name was translated under when it
was opened, which still holds what it held then. -/
theorem openfiles_of_reachable (laws : FdLaws io fds) {w : σ} (hw : fds w = ∅)
    (h : Reachable io w s) :
    0 ≤ s.gOpenfileCount ∧ s.gOpenfileCount ≤ 32 ∧
      (s.openfiles.map OpenfileItem.mFd).Nodup ∧
      fds s.world = {fd | ∃ e ∈ s.openfiles, e.mFd = fd} ∧
      ∀ e ∈ s.openfiles, ∃ o, s.opened.find? (fun o => o.fd = e.mFd) = some o ∧
        o.Translated s.calls ∧ o.pid = e.mPid ∧ o.slot = e.mMountlistIndex ∧
        (e.mMountlistIndex = 32 ∨ (s.Occupied e.mMountlistIndex ∧
          (s.gMountlistItems e.mMountlistIndex).mPid = e.mPid ∧
          s.gMountlistItems e.mMountlistIndex = o.item)) := by
  have hinv := h.openInv laws hw
  refine ⟨hinv.count_nonneg, hinv.count_le, hinv.nodup, Set.ext hinv.exact, fun e he => ?_⟩
  obtain ⟨o, hfind, hpid, hslot, hitem⟩ := hinv.recorded e he
  refine ⟨o, hfind, hinv.translated o (List.mem_of_find?_eq_some hfind), hpid, hslot, ?_⟩
  rcases hinv.slot e he with h32 | hown
  · exact .inl h32
  · refine .inr ⟨hown.occupied (hinv.pid e he), hown.2, ?_⟩
    rw [← hslot]
    exact hitem (hslot ▸ hown.1)

end Preserved

/-- Client 5 mounts a partition and opens a file on it. -/
def mountAndOpen : List Event :=
  [.connect ⟨5, 9, 0, 0x20000⟩,
    .request 0 {} (some (.pfsdReqMount (pfsUnit 0) (ascii ['A']) 0 0 0)),
    .request 0 {} (some (.pfsdReqOpen (pfsUnit 0 ++ ascii ['/', 'f']) 0 0))]

theorem openfiles_of_reachable_one : ∃ s : Daemon (SmallWorld CStr),
    run (handle (smallIomanx id)) mountAndOpen (start 4 [] {}) = some s ∧
      s.gOpenfileCount = 1 ∧ s.gOpenfileCount ≤ 32 ∧
      s.world.fdSet = {fd | ∃ e ∈ s.openfiles, e.mFd = fd} := by
  obtain ⟨s, hs⟩ : ∃ s, run (handle (smallIomanx id)) mountAndOpen (start 4 [] {}) = some s :=
    ⟨_, rfl⟩
  have h := openfiles_of_reachable (smallIomanx_fdLaws id) (by simp [SmallWorld.fdSet])
    ⟨4, [], mountAndOpen, hs⟩
  refine ⟨s, hs, ?_, h.2.1, h.2.2.2.1⟩
  rw [← Option.some.inj hs]
  rfl

end PfsShell.Pfsd
