/-
# What one client's events leave alone

Every client's files and mounts are in two arrays that all clients share.  Nothing an event of
one client does can be seen by another through them: its files, in order, its slots, what its
descriptors and its names are translated to (`AgreeFor`).

The open-file table is compacted by `rpc_common_close` from the first entry that matches, or,
when none does, from the end, where the entry of anybody may be.  The second case is excluded
by iomanX: the descriptor passed to it then is -1, which it never closes.
-/
import PfsShell.Pfsd.Iomanx
import PfsShell.Pfsd.Tables

namespace PfsShell.Pfsd

open PfsShell.Lib

variable {σ : Type} {io : IomanX σ} {s s' : Daemon σ}

/-! ## 1. What an act does to the open-file table -/

/-- An act for client `p` leaves the open files alone, appends an entry of `p`, or removes the
first entry of `p` for some descriptor. -/
theorem Act.files_cases (hclose : ClosesNoMinusOne io) {p : CInt} (hp : p ≠ 0)
    (h : Act io p s s') (hcount : 0 ≤ s.gOpenfileCount) :
    (s'.gOpenfileCount = s.gOpenfileCount ∧ s'.openfiles = s.openfiles) ∨
    (∃ fd i, s'.gOpenfileCount = s.gOpenfileCount + 1 ∧
      s'.openfiles = s.openfiles ++ [⟨fd, p, i⟩]) ∨
    (∃ fd, s'.gOpenfileCount = s.gOpenfileCount - 1 ∧
      (∃ e ∈ s.openfiles, Tables.Matches fd p e = true) ∧
      s'.openfiles = s.openfiles.eraseP (Tables.Matches fd p)) := by
  cases h with
  | called hn => exact .inl ⟨rfl, rfl⟩
  | wrote bytes => exact .inl ⟨rfl, rfl⟩
  | stored m => exact .inl ⟨rfl, rfl⟩
  | @opened mk hmk name =>
    rcases openCommon_cases io mk name p s with ⟨-, heq⟩ | ⟨-, -, heq⟩ | ⟨-, -, ht, -⟩
    · rw [heq]; exact .inl ⟨rfl, rfl⟩
    · rw [heq]; exact .inl ⟨rfl, rfl⟩
    · rw [ht]
      exact .inr (.inl ⟨_, _, Tables.gOpenfileCount_rpcCommonOpen _ _ _,
        Tables.openfiles_rpcCommonOpen _ _ _ hcount⟩)
  | @closed mk hmk fd =>
    obtain ⟨ht, -⟩ := closeCommon_spec io mk fd p s
    rw [ht]
    split
    · rename_i h0
      rcases Tables.rpcRemapFd_cases s.toTables fd p with ⟨-, hex⟩ | ⟨hfd, -⟩
      · exact .inr (.inr ⟨fd, Tables.gOpenfileCount_rpcCommonClose _ _, hex,
          Tables.openfiles_rpcCommonClose hex⟩)
      · rw [hfd] at h0
        exact absurd h0 (hclose _ _ (hmk.closes _))
    · exact .inl ⟨rfl, rfl⟩
  | mounted fsname devname flag useshm arglen =>
    rcases rpcCommandMount_cases io fsname devname flag useshm arglen p s with
      ⟨ret, buf, t, -, hframe, -, heq⟩ | ⟨buf, t, -, -, -, -, heq⟩
    · rw [heq]
      exact .inl ⟨congrArg Tables.gOpenfileCount hframe.tables,
        congrArg Tables.openfiles hframe.tables⟩
    · rw [heq]; exact .inl ⟨rfl, rfl⟩
  | unmounted fsname =>
    rcases rpcCommandUmount_cases io hp fsname s with ⟨-, heq⟩ | ⟨-, -, heq⟩ | ⟨-, -, heq⟩ <;>
      rw [heq] <;> exact .inl ⟨rfl, rfl⟩

theorem count_pos_of_mem {t : Tables} {e : OpenfileItem} (h : e ∈ t.openfiles) :
    0 < t.gOpenfileCount := by
  obtain ⟨i, hi, -⟩ := Tables.mem_openfiles.mp h
  omega

theorem Act.count_nonneg (hclose : ClosesNoMinusOne io) {p : CInt} (hp : p ≠ 0)
    (h : Act io p s s') (hcount : 0 ≤ s.gOpenfileCount) : 0 ≤ s'.gOpenfileCount := by
  rcases h.files_cases hclose hp hcount with ⟨hc, -⟩ | ⟨fd, i, hc, -⟩ | ⟨fd, hc, ⟨e, he, -⟩, -⟩
  · omega
  · omega
  · have := count_pos_of_mem he
    omega

theorem Reachable.count_nonneg (hclose : ClosesNoMinusOne io) {w : σ} (h : Reachable io w s) :
    0 ≤ s.gOpenfileCount :=
  h.preserves (I := fun s => 0 ≤ s.gOpenfileCount) (fun _ _ => Int.le_refl 0)
    (fun _ _ _ hp hs hact => hact.count_nonneg hclose (Int32.ne_of_lt hp).symm hs)
    (fun _ _ hs => hs)

/-! ## 2. Tables that are the same to a client -/

/-- Client `q` has the same files, in order, and the same slots. -/
structure AgreeFor (q : CInt) (t t' : Tables) : Prop where
  files : t'.openfiles.filter (·.mPid = q) = t.openfiles.filter (·.mPid = q)
  slots : ∀ i, t.OwnedBy q i ∨ t'.OwnedBy q i → t'.gMountlistItems i = t.gMountlistItems i

theorem AgreeFor.refl (q : CInt) (t : Tables) : AgreeFor q t t := ⟨rfl, fun _ _ => rfl⟩

/-- The slots are the client's in both tables. -/
theorem AgreeFor.ownedBy_iff {q : CInt} {t t' : Tables} (h : AgreeFor q t t') (i : ℕ) :
    t'.OwnedBy q i ↔ t.OwnedBy q i := by
  constructor
  · intro hi
    exact ⟨hi.1, by rw [← h.slots i (.inr hi)]; exact hi.2⟩
  · intro hi
    exact ⟨hi.1, by rw [h.slots i (.inl hi)]; exact hi.2⟩

theorem AgreeFor.trans {q : CInt} {t t' t'' : Tables} (h : AgreeFor q t t')
    (h' : AgreeFor q t' t'') : AgreeFor q t t'' := by
  refine ⟨h'.files.trans h.files, fun i hi => ?_⟩
  have hmid : t'.OwnedBy q i := by
    rcases hi with hi | hi
    · exact (h.ownedBy_iff i).mpr hi
    · exact (h'.ownedBy_iff i).mp hi
  rw [h'.slots i (.inl hmid), h.slots i (.inr hmid)]

theorem AgreeFor.rpcRemapFd {q : CInt} {t t' : Tables} (h : AgreeFor q t t') (fd : CInt) :
    t'.rpcRemapFd fd q = t.rpcRemapFd fd q := by
  have hmem : ∀ {e}, e.mPid = q → (e ∈ t'.openfiles ↔ e ∈ t.openfiles) := by
    intro e he
    have hiff := congrArg (e ∈ ·) h.files
    simpa [he] using hiff
  rcases Tables.rpcRemapFd_cases t fd q with ⟨heq, e, he, hm⟩ | ⟨heq, hnone⟩
  · rcases Tables.rpcRemapFd_cases t' fd q with ⟨heq', -⟩ | ⟨-, hnone'⟩
    · rw [heq, heq']
    · exact absurd hm (hnone' e ((hmem (Tables.matches_iff.mp hm).2).mpr he))
  · rcases Tables.rpcRemapFd_cases t' fd q with ⟨-, e, he, hm⟩ | ⟨heq', -⟩
    · exact absurd hm (hnone e ((hmem (Tables.matches_iff.mp hm).2).mp he))
    · rw [heq, heq']

theorem AgreeFor.remapSlot {q : CInt} {t t' : Tables} (h : AgreeFor q t t') (name : CStr) :
    t'.remapSlot name q = t.remapSlot name q := by
  refine scan_congr fun i hi => ?_
  constructor
  · rintro ⟨hq, hpre⟩
    have hitem := h.slots i (.inr ⟨hi, hq⟩)
    rw [hitem] at hq hpre
    exact ⟨hq, hpre⟩
  · rintro ⟨hq, hpre⟩
    rw [h.slots i (.inl ⟨hi, hq⟩)]
    exact ⟨hq, hpre⟩

/-- A name that begins with one of the client's prefixes is translated the same. -/
theorem AgreeFor.rpcRemapName {q : CInt} {t t' : Tables} (h : AgreeFor q t t') {name : CStr}
    (hname : ∃ i, t.OwnedBy q i ∧ (t.gMountlistItems i).mStrFsPrefix <+: name) :
    t'.rpcRemapName name q = t.rpcRemapName name q := by
  have hlt : t.remapSlot name q < 32 := Tables.remapSlot_lt_iff.mpr hname
  have hlt' : t'.remapSlot name q < 32 := by rw [h.remapSlot]; exact hlt
  rw [Tables.rpcRemapName_of_lt hlt', Tables.rpcRemapName_of_lt hlt, h.remapSlot,
    h.slots _ (.inl ⟨hlt, (Tables.remapSlot_spec hlt).1⟩)]

/-! ## 3. One client's acts, seen by another -/

/-- Erasing an element that a filter drops. -/
theorem filter_eraseP_of_not {α : Type*} {f g : α → Bool} (h : ∀ x, g x = true → f x = false) :
    ∀ l : List α, (l.eraseP g).filter f = l.filter f
  | [] => rfl
  | x :: l => by
    cases hg : g x with
    | true => rw [List.eraseP_cons_of_pos hg, List.filter_cons_of_neg (by simp [h x hg])]
    | false =>
      rw [List.eraseP_cons_of_neg (by simp [hg]), List.filter_cons, List.filter_cons,
        filter_eraseP_of_not h l]

theorem Act.agreeFor (hclose : ClosesNoMinusOne io) {p q : CInt} (hp : p ≠ 0) (hq : q ≠ 0)
    (hne : q ≠ p) (h : Act io p s s') (hcount : 0 ≤ s.gOpenfileCount) :
    AgreeFor q s.toTables s'.toTables := by
  constructor
  · rcases h.files_cases hclose hp hcount with ⟨-, heq⟩ | ⟨fd, i, -, heq⟩ | ⟨fd, -, -, heq⟩
    · rw [heq]
    · rw [heq, List.filter_append, List.filter_singleton]
      simp [hne.symm]
    · rw [heq]
      refine filter_eraseP_of_not (fun e he => ?_) _
      have hpid := (Tables.matches_iff.mp he).2
      simp [hpid, hne.symm]
  · exact fun i hi => h.item_eq hp hq hne (hi.imp And.right And.right)

/-- Run lemma for the acts of one event. -/
theorem Acts.agreeFor (hclose : ClosesNoMinusOne io) {p q : CInt} (hp : p ≠ 0) (hq : q ≠ 0)
    (hne : q ≠ p) (h : Acts io p s s') (hcount : 0 ≤ s.gOpenfileCount) :
    AgreeFor q s.toTables s'.toTables := by
  have hboth : 0 ≤ s'.gOpenfileCount ∧ AgreeFor q s.toTables s'.toTables := by
    refine h.preserves (I := fun t => 0 ≤ t.gOpenfileCount ∧ AgreeFor q s.toTables t.toTables)
      ⟨hcount, AgreeFor.refl q _⟩ fun t t' ht hact => ?_
    exact ⟨hact.count_nonneg hclose hp ht.1,
      ht.2.trans (hact.agreeFor hclose hp hq hne ht.1)⟩
  exact hboth.2

/-! ## 4. Non-interference -/

/-- The client an event is a request or the end of. -/
def Event.client (c : Conns) : Event → Option CInt
  | .connect _ => none
  | .request pfd _ _ => some (c.gConnectionPollfds pfd)
  | .hangup pfd _ => some (c.gConnectionPollfds pfd)

/-- **Non-interference.**  A request or the end of client `p` leaves the files and the slots of
every other client as they are, and the translation of its descriptors and of the names that
begin with one of its prefixes. -/
theorem noninterference (hclose : ClosesNoMinusOne io) {w : σ} (h : Reachable io w s)
    {e : Event} {p q : CInt} (hp : e.client s.toConns = some p) (he : handle io e s = some s')
    (hq : 0 < q) (hne : q ≠ p) :
    s'.openfiles.filter (·.mPid = q) = s.openfiles.filter (·.mPid = q) ∧
    (∀ i, s.OwnedBy q i ∨ s'.OwnedBy q i → s'.gMountlistItems i = s.gMountlistItems i) ∧
    (∀ fd, s'.rpcRemapFd fd q = s.rpcRemapFd fd q) ∧
    ∀ name, (∃ i, s.OwnedBy q i ∧ (s.gMountlistItems i).mStrFsPrefix <+: name) →
      s'.rpcRemapName name q = s.rpcRemapName name q := by
  have hcount := h.count_nonneg hclose
  have hagree : AgreeFor q s.toTables s'.toTables := by
    have hq0 : q ≠ 0 := (Int32.ne_of_lt hq).symm
    have hp0 : ∀ pfd, pfd < s.gCurrentClientCount → s.gConnectionPollfds pfd ≠ 0 :=
      fun pfd hlt => (Int32.ne_of_lt (h.ok.pos _ (Conns.mem_clients hlt))).symm
    rcases handle_cases he with ⟨a, rfl, -, -⟩ | ⟨pfd, choice, req, rfl, hlt, -, hacts⟩ |
      ⟨pfd, fuel, t, rfl, hlt, hacts, rfl⟩
    · cases hp
    · obtain rfl := Option.some.inj hp
      exact hacts.agreeFor hclose (hp0 pfd hlt) hq0 hne hcount
    · obtain rfl := Option.some.inj hp
      have ht := hacts.acts.agreeFor hclose (hp0 pfd hlt) hq0 hne hcount
      exact ⟨ht.files, ht.slots⟩
  exact ⟨hagree.files, hagree.slots, hagree.rpcRemapFd, fun _ => hagree.rpcRemapName⟩

/-- Clients 5 and 6 mount one partition, and client 5 opens a file on it. -/
def twoClients : List Event :=
  [.connect ⟨5, 9, 0, 0x20000⟩, .connect ⟨6, 9, 0, 0x20000⟩,
    .request 0 {} (some (.pfsdReqMount (pfsUnit 1) (ascii ['A']) 0 0 0)),
    .request 0 {} (some (.pfsdReqOpen (pfsUnit 1 ++ ascii ['/', 'x']) 0 0)),
    .request 1 {} (some (.pfsdReqMount (pfsUnit 0) (ascii ['A']) 0 0 0))]

/-- The daemon of the small iomanX after that. -/
def afterTwoClients : Daemon (SmallWorld CStr) :=
  (run (handle (smallIomanx id)) twoClients (start 4 [] {})).getD (start 4 [] {})

/-- Client 5 hangs up, and client 6 keeps its slot. -/
theorem noninterference_hangup : ∃ s', handle (smallIomanx id) (.hangup 0 9) afterTwoClients
      = some s' ∧ afterTwoClients.gOpenfileCount = 1 ∧ s'.gOpenfileCount = 0 ∧
    s'.rpcRemapName (pfsUnit 0 ++ ascii ['/', 'x']) 6
      = afterTwoClients.rpcRemapName (pfsUnit 0 ++ ascii ['/', 'x']) 6 := by
  have hreach : Reachable (smallIomanx id) {} afterTwoClients := ⟨4, [], twoClients, rfl⟩
  obtain ⟨s', hs'⟩ : ∃ s', handle (smallIomanx id) (.hangup 0 9) afterTwoClients = some s' :=
    ⟨_, rfl⟩
  have h := noninterference (smallIomanx_closesNoMinusOne id) hreach (p := 5) (q := 6) rfl hs'
    (by decide) (by decide)
  refine ⟨s', hs', rfl, ?_, h.2.2.2 _ ⟨1, ⟨by decide, by decide⟩, by decide⟩⟩
  rw [← Option.some.inj hs']
  decide

end PfsShell.Pfsd
