/-
# What a cleanup leaves, and when it ends

`cleanup_client` closes the files of a client that is gone and then frees its mount slots, both
through the ordinary request handlers.

* The loop over the files looks at the same entry again after each close.  It ends exactly when
  each of the client's descriptors, asked to be closed again and again after the ones before it,
  is closed at some time (`cleanup_ends_iff`).  An error that persists keeps it where it is
  (`cleanup_never_ends`).
* When it ends, it has taken every entry of the client; no open file then refers to a slot of the
  client, so none of its slots is refused.  Nothing of the client is left (`cleanup_complete`), and
  what the tables hold is always some connected client's (`Reachable.owned`).
-/
import Mathlib.Data.List.Nodup
import PfsShell.Pfsd.OpenFiles

namespace PfsShell.Pfsd

open PfsShell.Lib

variable {σ : Type} {io : IomanX σ} {fds : σ → Set CInt} {s s' t : Daemon σ} {p : CInt}

/-! ## 1. Closing one descriptor after the other -/

/-- The descriptors of client `p`'s entries from entry `i` on, in the order of the table. -/
def Tables.filesFrom (t : Tables) (p : CInt) (i : ℕ) : List CInt :=
  ((t.openfiles.drop i).filter (fun e => e.mPid = p)).map OpenfileItem.mFd

/-- iomanX after `n` calls of `iomanX_close(fd)`. -/
def closing (io : IomanX σ) (fd : CInt) (n : ℕ) (w : σ) : σ :=
  (fun w => (io (.scepfsClose fd) w).2)^[n] w

/-- Each descriptor is closed with result 0 at some time, when `iomanX_close` is called on it
again and again after the ones before it are closed. -/
def ClosedInTurn (io : IomanX σ) : List CInt → σ → Prop
  | [], _ => True
  | fd :: fds, w => ∃ n,
    (∀ m < n, (io (.scepfsClose fd) (closing io fd m w)).1.ret ≠ 0) ∧
    (io (.scepfsClose fd) (closing io fd n w)).1.ret = 0 ∧
    ClosedInTurn io fds (closing io fd (n + 1) w)

theorem closing_succ (fd : CInt) (n : ℕ) (w : σ) :
    closing io fd (n + 1) w = closing io fd n (io (.scepfsClose fd) w).2 := rfl

theorem closing_succ' (fd : CInt) (n : ℕ) (w : σ) :
    closing io fd (n + 1) w = (io (.scepfsClose fd) (closing io fd n w)).2 :=
  Function.iterate_succ_apply' (fun w => (io (.scepfsClose fd) w).2) n w

/-- A close that succeeds goes on to the next descriptor. -/
theorem closedInTurn_of_zero {fd : CInt} {l : List CInt} {w : σ}
    (h : (io (.scepfsClose fd) w).1.ret = 0) :
    ClosedInTurn io (fd :: l) w ↔ ClosedInTurn io l (io (.scepfsClose fd) w).2 := by
  constructor
  · rintro ⟨n, hfail, -, hrest⟩
    cases n with
    | zero => exact hrest
    | succ n => exact absurd h (hfail 0 (Nat.succ_pos n))
  · intro hrest
    exact ⟨0, fun m hm => absurd hm (Nat.not_lt_zero m), h, hrest⟩

/-- A close that fails stays with the descriptor. -/
theorem closedInTurn_of_ne {fd : CInt} {l : List CInt} {w : σ}
    (h : (io (.scepfsClose fd) w).1.ret ≠ 0) :
    ClosedInTurn io (fd :: l) w ↔ ClosedInTurn io (fd :: l) (io (.scepfsClose fd) w).2 := by
  constructor
  · rintro ⟨n, hfail, hzero, hrest⟩
    cases n with
    | zero => exact absurd hzero h
    | succ n => exact ⟨n, fun m hm => hfail (m + 1) (Nat.succ_lt_succ hm), hzero, hrest⟩
  · rintro ⟨n, hfail, hzero, hrest⟩
    refine ⟨n + 1, fun m hm => ?_, hzero, hrest⟩
    cases m with
    | zero => exact h
    | succ m => exact hfail m (Nat.lt_of_succ_lt_succ hm)

/-- Descriptors that are open are closed in turn when a close of an open one succeeds. -/
theorem closedInTurn_of_open (laws : FdLaws io fds)
    (hcloses : ∀ fd w, fd ∈ fds w → (io (.scepfsClose fd) w).1.ret = 0) :
    ∀ {l : List CInt} {w : σ}, l.Nodup → (∀ fd ∈ l, fd ∈ fds w) → ClosedInTurn io l w
  | [], _, _, _ => trivial
  | fd :: l, w, hnodup, hopen => by
    obtain ⟨hnew, hnodup⟩ := List.nodup_cons.mp hnodup
    have hzero := hcloses fd w (hopen fd List.mem_cons_self)
    refine (closedInTurn_of_zero hzero).mpr (closedInTurn_of_open laws hcloses hnodup ?_)
    intro fd' hfd'
    rcases laws.closes (.scepfsClose fd) fd w rfl with ⟨-, -, hfds⟩ | ⟨hne, -⟩
    · rw [hfds]
      refine ⟨hopen fd' (List.mem_cons_of_mem _ hfd'), ?_⟩
      rintro rfl
      exact hnew hfd'
    · exact absurd hzero hne

/-! ## 2. One step of the loop over the files -/

theorem length_openfiles {t : Tables} : t.openfiles.length = t.gOpenfileCount.toNat :=
  length_live _ _

theorem getElem_openfiles {t : Tables} {i : ℕ} (hi : i < t.openfiles.length) :
    t.openfiles[i] = t.gOpenfileItems i := by
  simp [Tables.openfiles, live]

theorem Tables.drop_openfiles {t : Tables} {i : ℕ} (hi : i < t.openfiles.length) :
    t.openfiles.drop i = t.gOpenfileItems i :: t.openfiles.drop (i + 1) := by
  rw [List.drop_eq_getElem_cons hi, getElem_openfiles]

theorem Tables.filesFrom_of_own {t : Tables} {i : ℕ} (hi : i < t.openfiles.length)
    (hown : (t.gOpenfileItems i).mPid = p) :
    t.filesFrom p i = (t.gOpenfileItems i).mFd :: t.filesFrom p (i + 1) := by
  rw [filesFrom, drop_openfiles hi, List.filter_cons_of_pos (by simpa using hown)]
  rfl

theorem Tables.filesFrom_of_other {t : Tables} {i : ℕ} (hi : i < t.openfiles.length)
    (hown : (t.gOpenfileItems i).mPid ≠ p) : t.filesFrom p i = t.filesFrom p (i + 1) := by
  rw [filesFrom, drop_openfiles hi, List.filter_cons_of_neg (by simpa using hown)]
  rfl

theorem Tables.filesFrom_of_ge {t : Tables} {i : ℕ} (hi : t.openfiles.length ≤ i) :
    t.filesFrom p i = [] := by
  rw [filesFrom, List.drop_eq_nil_of_le hi]
  rfl

/-- No entry before entry `i` is client `p`'s: where the loop stands. -/
def Tables.PassedFiles (t : Tables) (p : CInt) (i : ℕ) : Prop :=
  ∀ j < i, (t.gOpenfileItems j).mPid ≠ p

variable (io) in
/-- **A close in the loop**: it is made on the entry's descriptor; when it succeeds, it is that
entry that goes, and otherwise the tables stay. -/
theorem rpcCommandClose_own {i : ℕ} (hi : i < s.openfiles.length)
    (hown : (s.gOpenfileItems i).mPid = p) (hpassed : s.PassedFiles p i) :
    (rpcCommandClose io (s.gOpenfileItems i).mFd p s).2.world =
        (io (.scepfsClose (s.gOpenfileItems i).mFd) s.world).2 ∧
      if (io (.scepfsClose (s.gOpenfileItems i).mFd) s.world).1.ret = 0 then
        (rpcCommandClose io (s.gOpenfileItems i).mFd p s).2.openfiles = s.openfiles.eraseIdx i ∧
        (rpcCommandClose io (s.gOpenfileItems i).mFd p s).2.PassedFiles p i
      else (rpcCommandClose io (s.gOpenfileItems i).mFd p s).2.toTables = s.toTables := by
  obtain ⟨htables, hworld, -, -⟩ := closeCommon_spec io .scepfsClose (s.gOpenfileItems i).mFd p s
  have hi' : i < s.gOpenfileCount.toNat := length_openfiles ▸ hi
  have hscan : scan (fun j => Tables.Matches (s.gOpenfileItems i).mFd p (s.gOpenfileItems j) = true)
      s.gOpenfileCount.toNat = i := by
    refine scan_eq_of_first hi' (Tables.matches_iff.mpr ⟨rfl, hown⟩) fun j hj hm => ?_
    exact hpassed j hj (Tables.matches_iff.mp hm).2
  have hfd : s.rpcRemapFd (s.gOpenfileItems i).mFd p = (s.gOpenfileItems i).mFd := by
    simp only [Tables.rpcRemapFd, hscan, if_pos hi']
  rw [hfd] at htables hworld
  refine ⟨hworld, ?_⟩
  split
  · rename_i hzero
    rw [if_pos hzero] at htables
    have hitems : (s.rpcCommonClose (s.gOpenfileItems i).mFd p).gOpenfileItems =
        shiftDown s.gOpenfileItems i (s.gOpenfileCount.toNat - 1 - i) := by
      simp only [Tables.rpcCommonClose, hscan]
    have hcount : (s.rpcCommonClose (s.gOpenfileItems i).mFd p).gOpenfileCount.toNat =
        s.gOpenfileCount.toNat - 1 := by
      simp only [Tables.rpcCommonClose]
      omega
    constructor
    · exact (congrArg Tables.openfiles htables).trans
        (by rw [Tables.openfiles, hitems, hcount]; exact live_shiftDown hi')
    · intro j hj
      have hitem : (rpcCommandClose io (s.gOpenfileItems i).mFd p s).2.gOpenfileItems j =
          s.gOpenfileItems j := by
        refine (congrFun (congrArg Tables.gOpenfileItems htables) j).trans ?_
        rw [hitems, shiftDown_apply, if_neg (by omega)]
      rw [hitem]
      exact hpassed j hj
  · rename_i hne
    rw [if_neg hne] at htables
    exact htables

/-- What is left to close after a close that succeeded. -/
theorem filesFrom_eraseIdx {t t' : Tables} {i : ℕ} (hi : i < t.openfiles.length)
    (h : t'.openfiles = t.openfiles.eraseIdx i) : t'.filesFrom p i = t.filesFrom p (i + 1) := by
  have hdrop : (t.openfiles.eraseIdx i).drop i = t.openfiles.drop (i + 1) := by
    rw [List.eraseIdx_eq_take_drop_succ, List.drop_append_of_le_length (by simp; omega),
      List.drop_eq_nil_of_le (by simp), List.nil_append]
  rw [Tables.filesFrom, h, hdrop]
  rfl

theorem Tables.PassedFiles.succ {t : Tables} {i : ℕ} (h : t.PassedFiles p i)
    (hown : (t.gOpenfileItems i).mPid ≠ p) : t.PassedFiles p (i + 1) := by
  intro j hj
  rcases Nat.lt_succ_iff_lt_or_eq.mp hj with hj | rfl
  · exact h j hj
  · exact hown

variable (io p) in
theorem rpcCommandClose_conns (fd : CInt) (s : Daemon σ) :
    (rpcCommandClose io fd p s).2.toConns = s.toConns :=
  (CleanupAct.closed fd).act.conns

/-! ## 3. The loop over the files -/

section Files

variable {inClientId : ℕ}

theorem cleanupFiles_of_own {i fuel : ℕ} (hp : s.gConnectionPollfds inClientId = p)
    (hi : i < s.openfiles.length) (hown : (s.gOpenfileItems i).mPid = p) :
    cleanupFiles io inClientId (fuel + 1) i s =
      cleanupFiles io inClientId fuel i (rpcCommandClose io (s.gOpenfileItems i).mFd p s).2 := by
  have hlt : (i : ℤ) < s.gOpenfileCount := by
    rw [length_openfiles] at hi
    omega
  rw [cleanupFiles, if_pos hlt, if_pos (hown.trans hp.symm), hown]

theorem cleanupFiles_of_other {i fuel : ℕ} (hp : s.gConnectionPollfds inClientId = p)
    (hi : i < s.openfiles.length) (hown : (s.gOpenfileItems i).mPid ≠ p) :
    cleanupFiles io inClientId (fuel + 1) i s = cleanupFiles io inClientId fuel (i + 1) s := by
  have hlt : (i : ℤ) < s.gOpenfileCount := by
    rw [length_openfiles] at hi
    omega
  rw [cleanupFiles, if_pos hlt, if_neg (hp ▸ hown)]

theorem cleanupFiles_of_ge {i fuel : ℕ} (hi : s.openfiles.length ≤ i) :
    cleanupFiles io inClientId (fuel + 1) i s = some s := by
  have hlt : ¬ (i : ℤ) < s.gOpenfileCount := by
    rw [length_openfiles] at hi
    omega
  rw [cleanupFiles, if_neg hlt]

/-- When the loop ends, the descriptors were closed in turn, and no entry of the client is
left. -/
theorem cleanupFiles_closed : ∀ {fuel i : ℕ} {s t : Daemon σ},
    s.gConnectionPollfds inClientId = p → s.PassedFiles p i →
    cleanupFiles io inClientId fuel i s = some t →
    ClosedInTurn io (s.filesFrom p i) s.world ∧ t.PassedFiles p t.openfiles.length
  | 0, i, s, t, _, _, h => by cases h
  | fuel + 1, i, s, t, hp, hpassed, h => by
    by_cases hi : i < s.openfiles.length
    · by_cases hown : (s.gOpenfileItems i).mPid = p
      · rw [cleanupFiles_of_own hp hi hown] at h
        have hconns := rpcCommandClose_conns io p (s.gOpenfileItems i).mFd s
        obtain ⟨hworld, htables⟩ := rpcCommandClose_own io hi hown hpassed
        rw [Tables.filesFrom_of_own hi hown]
        split at htables
        · rename_i hzero
          obtain ⟨hclosed, hdone⟩ := cleanupFiles_closed (hconns ▸ hp) htables.2 h
          rw [hworld, filesFrom_eraseIdx hi htables.1] at hclosed
          exact ⟨(closedInTurn_of_zero hzero).mpr hclosed, hdone⟩
        · rename_i hne
          obtain ⟨hclosed, hdone⟩ :=
            cleanupFiles_closed (hconns ▸ hp) (by rw [htables]; exact hpassed) h
          rw [hworld, htables, Tables.filesFrom_of_own hi hown] at hclosed
          exact ⟨(closedInTurn_of_ne hne).mpr hclosed, hdone⟩
      · rw [cleanupFiles_of_other hp hi hown] at h
        rw [Tables.filesFrom_of_other hi hown]
        exact cleanupFiles_closed hp (hpassed.succ hown) h
    · rw [cleanupFiles_of_ge (Nat.not_lt.mp hi)] at h
      obtain rfl := Option.some.inj h
      rw [Tables.filesFrom_of_ge (Nat.not_lt.mp hi)]
      exact ⟨trivial, fun j hj => hpassed j (hj.trans_le (Nat.not_lt.mp hi))⟩

/-- Closes that fail leave the loop where it is. -/
theorem cleanupFiles_retries {i : ℕ} : ∀ {n : ℕ} {s : Daemon σ},
    s.gConnectionPollfds inClientId = p → i < s.openfiles.length →
    (s.gOpenfileItems i).mPid = p → s.PassedFiles p i →
    (∀ m < n, (io (.scepfsClose (s.gOpenfileItems i).mFd)
      (closing io (s.gOpenfileItems i).mFd m s.world)).1.ret ≠ 0) →
    ∃ t : Daemon σ, t.toTables = s.toTables ∧ t.toConns = s.toConns ∧
      t.world = closing io (s.gOpenfileItems i).mFd n s.world ∧
      ∀ fuel, cleanupFiles io inClientId (fuel + n) i s = cleanupFiles io inClientId fuel i t
  | 0, s, _, _, _, _, _ => ⟨s, rfl, rfl, rfl, fun _ => rfl⟩
  | n + 1, s, hp, hi, hown, hpassed, hfail => by
    have hconns := rpcCommandClose_conns io p (s.gOpenfileItems i).mFd s
    obtain ⟨hworld, htables⟩ := rpcCommandClose_own io hi hown hpassed
    have hfirst : (io (.scepfsClose (s.gOpenfileItems i).mFd) s.world).1.ret ≠ 0 :=
      hfail 0 (Nat.succ_pos n)
    rw [if_neg hfirst] at htables
    obtain ⟨t, ht, hc, hw, hrest⟩ := cleanupFiles_retries (n := n) (hconns ▸ hp)
      (by rw [htables]; exact hi) (by rw [htables]; exact hown)
      (by rw [htables]; exact hpassed) fun m hm => by
        rw [htables, hworld]
        exact hfail (m + 1) (Nat.succ_lt_succ hm)
    refine ⟨t, ht.trans htables, hc.trans hconns, ?_, fun fuel => ?_⟩
    · rw [hw, htables, hworld, closing_succ]
    · rw [← hrest fuel, ← Nat.add_assoc, cleanupFiles_of_own hp hi hown]

/-- When the descriptors are closed in turn, the loop ends: the number of its tests is bounded. -/
theorem cleanupFiles_ends : ∀ {k i : ℕ} {s : Daemon σ},
    s.gConnectionPollfds inClientId = p → s.openfiles.length ≤ i + k → s.PassedFiles p i →
    ClosedInTurn io (s.filesFrom p i) s.world →
    ∃ bound t, ∀ fuel, bound ≤ fuel → cleanupFiles io inClientId fuel i s = some t
  | 0, i, s, _, hk, _, _ => by
    refine ⟨1, s, fun fuel hfuel => ?_⟩
    obtain ⟨fuel, rfl⟩ := Nat.exists_eq_add_of_le' hfuel
    exact cleanupFiles_of_ge hk
  | k + 1, i, s, hp, hk, hpassed, hclosed => by
    by_cases hi : i < s.openfiles.length
    · by_cases hown : (s.gOpenfileItems i).mPid = p
      · rw [Tables.filesFrom_of_own hi hown] at hclosed
        obtain ⟨n, hfail, hzero, hrest⟩ := hclosed
        obtain ⟨t, ht, hc, hw, hsame⟩ := cleanupFiles_retries hp hi hown hpassed hfail
        have hp' : t.gConnectionPollfds inClientId = p := hc ▸ hp
        have hi' : i < t.openfiles.length := ht ▸ hi
        have hown' : (t.gOpenfileItems i).mPid = p := by rw [ht]; exact hown
        obtain ⟨hworld, htables⟩ :=
          rpcCommandClose_own io hi' hown' (by rw [ht]; exact hpassed)
        rw [ht, hw] at hworld htables
        rw [if_pos hzero] at htables
        have hconns := rpcCommandClose_conns io p (s.gOpenfileItems i).mFd t
        obtain ⟨bound, u, hu⟩ := cleanupFiles_ends (k := k) (hconns ▸ hp')
          (by rw [htables.1, List.length_eraseIdx, if_pos hi]; omega) htables.2
          (by rw [filesFrom_eraseIdx hi htables.1, hworld, ← closing_succ']; exact hrest)
        refine ⟨bound + 1 + n, u, fun fuel hfuel => ?_⟩
        obtain ⟨fuel, rfl⟩ := Nat.exists_eq_add_of_le' hfuel
        rw [show fuel + (bound + 1 + n) = fuel + bound + 1 + n by omega, hsame,
          cleanupFiles_of_own hp' hi' hown', ht]
        exact hu _ (Nat.le_add_left bound fuel)
      · rw [Tables.filesFrom_of_other hi hown] at hclosed
        obtain ⟨bound, t, ht⟩ :=
          cleanupFiles_ends (k := k) hp (by omega) (hpassed.succ hown) hclosed
        refine ⟨bound + 1, t, fun fuel hfuel => ?_⟩
        obtain ⟨fuel, rfl⟩ := Nat.exists_eq_add_of_le' hfuel
        rw [← Nat.add_assoc, cleanupFiles_of_other hp hi hown]
        exact ht _ (Nat.le_add_left bound fuel)
    · refine ⟨1, s, fun fuel hfuel => ?_⟩
      obtain ⟨fuel, rfl⟩ := Nat.exists_eq_add_of_le' hfuel
      exact cleanupFiles_of_ge (Nat.not_lt.mp hi)

end Files

/-- **A cleanup ends exactly when the client's descriptors are closed in turn.**  The fuel is the
number of tests of the loop, so the visits of each entry are bounded then. -/
theorem cleanup_ends_iff (io : IomanX σ) (pfd : ℕ) (s : Daemon σ) :
    (∃ bound t, ∀ fuel, bound ≤ fuel → cleanupClient io fuel pfd s = some t) ↔
      ClosedInTurn io (s.filesFrom (s.gConnectionPollfds pfd) 0) s.world := by
  have hpassed : s.PassedFiles (s.gConnectionPollfds pfd) 0 :=
    fun j hj => absurd hj (Nat.not_lt_zero j)
  constructor
  · rintro ⟨bound, t, ht⟩
    obtain ⟨u, hu, -⟩ := Option.map_eq_some_iff.mp (ht bound (Nat.le_refl bound))
    exact (cleanupFiles_closed rfl hpassed hu).1
  · intro hclosed
    obtain ⟨bound, t, ht⟩ : ∃ bound t, ∀ fuel, bound ≤ fuel →
        cleanupFiles io pfd fuel 0 s = some t :=
      cleanupFiles_ends rfl (Nat.le_add_left _ 0) hpassed hclosed
    exact ⟨bound, _, fun fuel hfuel => by rw [cleanupClient, ht fuel hfuel]; rfl⟩

/-- An iomanX in which every `iomanX_close` fails. -/
def stubborn (io : IomanX σ) : IomanX σ := fun c w =>
  if c.closes.isSome then ({ ret := -5 }, w) else io c w

/-- **A close that keeps failing is made for ever**, for a client that has a file open. -/
theorem cleanup_never_ends : ∃ s : Daemon (SmallWorld CStr),
    run (handle (stubborn (smallIomanx id))) mountAndOpen (start 4 [] {}) = some s ∧
      0 < s.gCurrentClientCount ∧
      ∀ fuel, cleanupClient (stubborn (smallIomanx id)) fuel 0 s = none := by
  obtain ⟨s, hs⟩ : ∃ s, run (handle (stubborn (smallIomanx id))) mountAndOpen (start 4 [] {})
      = some s := ⟨_, rfl⟩
  have hcount : 0 < s.gCurrentClientCount := by
    rw [← Option.some.inj hs]
    decide
  have hfiles : s.filesFrom (s.gConnectionPollfds 0) 0 = [0] := by
    rw [← Option.some.inj hs]
    decide
  refine ⟨s, hs, hcount, fun fuel => ?_⟩
  rw [cleanupClient, Option.map_eq_none_iff]
  by_contra hends
  obtain ⟨t, ht⟩ := Option.ne_none_iff_exists'.mp hends
  have hclosed :=
    (cleanupFiles_closed rfl (fun j hj => absurd hj (Nat.not_lt_zero j)) ht).1
  rw [hfiles] at hclosed
  obtain ⟨n, -, hzero, -⟩ := hclosed
  have hfails : ∀ w : SmallWorld CStr,
      (stubborn (smallIomanx id) (.scepfsClose 0) w).1.ret = -5 := fun w => rfl
  rw [hfails] at hzero
  exact absurd hzero (by decide)

/-! ## 4. The loop over the mounts -/

/-- Closing adds no entry, and unmounting leaves the entries alone. -/
theorem CleanupAct.openfiles_sublist (hp : p ≠ 0) (h : CleanupAct io p s s') :
    s'.openfiles.Sublist s.openfiles := by
  cases h with
  | closed fd =>
    have htables := (closeCommon_spec io .scepfsClose fd p s).1
    have hfiles := congrArg Tables.openfiles htables
    split at hfiles
    · exact hfiles ▸ Tables.openfiles_rpcCommonClose_sublist fd p
    · exact hfiles ▸ List.Sublist.refl _
  | unmounted fsname =>
    rcases rpcCommandUmount_cases io hp fsname s with ⟨-, heq⟩ | ⟨-, -, heq⟩ | ⟨-, -, heq⟩ <;>
      rw [heq] <;> exact List.Sublist.refl _

theorem CleanupActs.openfiles_sublist (hp : p ≠ 0) (h : CleanupActs io p s s') :
    s'.openfiles.Sublist s.openfiles := by
  induction h with
  | refl => exact List.Sublist.refl _
  | tail _ hact ih => exact (hact.openfiles_sublist hp).trans ih

variable (io) in
/-- **A umount in the loop** frees the slot it is made for: the client's slots before it are free
and no open file is the client's. -/
theorem rpcCommandUmount_own (hp : p ≠ 0) (hinv : OpenInv fds s) {i : ℕ} (hi : i < 32)
    (hown : (s.gMountlistItems i).mPid = p) (hpassed : ∀ j < i, (s.gMountlistItems j).mPid ≠ p)
    (hfiles : ∀ e ∈ s.openfiles, e.mPid ≠ p) :
    (rpcCommandUmount io (s.gMountlistItems i).mStrFsPrefix p s).2.toTables =
      s.umountCleanup i := by
  have hslot : s.slotOfPrefix (s.gMountlistItems i).mStrFsPrefix p = i :=
    scan_eq_of_first hi ⟨hown, rfl⟩ fun j hj hm => hpassed j hj hm.1
  have hfree : ¬ s.inUse i := by
    rintro ⟨e, he, rfl⟩
    rcases hinv.slot e he with h32 | hown'
    · omega
    · exact hfiles e he (hown'.2.symm.trans hown)
  rcases rpcCommandUmount_cases io hp (s.gMountlistItems i).mStrFsPrefix s with
    ⟨hnone, -⟩ | ⟨-, huse, -⟩ | ⟨-, -, heq⟩
  · omega
  · rw [hslot] at huse
    exact absurd huse hfree
  · rw [heq, hslot]

/-- **The loop over the mounts frees every slot of the client.** -/
theorem cleanupMounts_complete (laws : FdLaws io fds) {inClientId : ℕ} (hp : p ≠ 0) :
    ∀ {k i : ℕ} {s : Daemon σ}, s.gConnectionPollfds inClientId = p → i + k = 32 →
      OpenInv fds s → (∀ e ∈ s.openfiles, e.mPid ≠ p) →
      (∀ j < i, (s.gMountlistItems j).mPid ≠ p) →
      ∀ j < 32, ((cleanupMounts io inClientId k i s).gMountlistItems j).mPid ≠ p
  | 0, i, s, _, hk, _, _, hpassed => fun j hj => hpassed j (by omega)
  | k + 1, i, s, hconn, hk, hinv, hfiles, hpassed => by
    rw [cleanupMounts, hconn]
    by_cases hown : (s.gMountlistItems i).mPid = p
    · rw [if_pos hown, hown]
      have hact : CleanupAct io p s
          (rpcCommandUmount io (s.gMountlistItems i).mStrFsPrefix p s).2 := .unmounted _
      have htables := rpcCommandUmount_own io hp hinv (by omega) hown hpassed hfiles
      refine cleanupMounts_complete laws hp (k := k) (by rw [hact.act.conns]; exact hconn)
        (by omega) (hinv.act laws hp hact.act)
        (fun e he => hfiles e ((hact.openfiles_sublist hp).subset he)) fun j hj => ?_
      rw [htables]
      rcases Nat.lt_succ_iff_lt_or_eq.mp hj with hj | rfl
      · rw [Tables.item_umountCleanup_of_ne (Nat.ne_of_lt hj)]
        exact hpassed j hj
      · simp only [Tables.umountCleanup, Function.update_self]
        exact hp.symm
    · rw [if_neg hown]
      refine cleanupMounts_complete laws hp (k := k) hconn (by omega) hinv hfiles fun j hj => ?_
      rcases Nat.lt_succ_iff_lt_or_eq.mp hj with hj | rfl
      · exact hpassed j hj
      · exact hown

/-! ## 5. What is left -/

/-- Nothing in the tables is client `p`'s. -/
structure Tables.Without (t : Tables) (p : CInt) : Prop where
  files : ∀ e ∈ t.openfiles, e.mPid ≠ p
  slots : ∀ i, t.Occupied i → (t.gMountlistItems i).mPid ≠ p

/-- **A cleanup that ends leaves nothing of the client in the tables.** -/
theorem cleanupClient_without (laws : FdLaws io fds) (hinv : OpenInv fds s) {fuel pfd : ℕ}
    (hp : s.gConnectionPollfds pfd ≠ 0) (h : cleanupClient io fuel pfd s = some t) :
    t.Without (s.gConnectionPollfds pfd) := by
  obtain ⟨u, hu, rfl⟩ := Option.map_eq_some_iff.mp h
  have hacts := cleanupFiles_acts fuel 0 s u rfl hu
  have hdone := (cleanupFiles_closed rfl (fun j hj => absurd hj (Nat.not_lt_zero j)) hu).2
  have hfiles : ∀ e ∈ u.openfiles, e.mPid ≠ s.gConnectionPollfds pfd := by
    intro e he
    obtain ⟨i, hi, rfl⟩ := Tables.mem_openfiles.mp he
    exact hdone i (by rw [length_openfiles]; exact hi)
  have hconns : u.gConnectionPollfds pfd = s.gConnectionPollfds pfd := by
    rw [hacts.acts.conns]
  have hinv' : OpenInv fds u :=
    hacts.acts.preserves hinv fun _ _ hs hact => hs.act laws hp hact
  have hmounts : CleanupActs io (s.gConnectionPollfds pfd) u (cleanupMounts io pfd 32 0 u) :=
    cleanupMounts_acts 32 0 u hconns
  have hsub := hmounts.openfiles_sublist hp
  have hslots := cleanupMounts_complete laws hp hconns (Nat.zero_add 32) hinv' hfiles
    fun j hj => absurd hj (Nat.not_lt_zero j)
  generalize cleanupMounts io pfd 32 0 u = v at hsub hslots
  exact ⟨fun e he => hfiles e (hsub.subset he), fun i hi => hslots i hi.1⟩

/-- What the tables hold is some connected client's. -/
structure Owned (s : Daemon σ) : Prop where
  files : ∀ e ∈ s.openfiles, e.mPid ∈ s.clients
  slots : ∀ i, s.Occupied i → (s.gMountlistItems i).mPid ∈ s.clients

/-- A socket that no client has owns nothing. -/
theorem Owned.without (h : Owned s) (hp : p ∉ s.clients) : s.Without p :=
  ⟨fun e he heq => hp (heq ▸ h.files e he), fun i hi heq => hp (heq ▸ h.slots i hi)⟩

/-- An act for client `p` adds no entry but one of `p`'s. -/
theorem Act.mem_files (hp : p ≠ 0) (h : Act io p s s') {e : OpenfileItem}
    (he : e ∈ s'.openfiles) : e ∈ s.openfiles ∨ e.mPid = p := by
  cases h with
  | called hn => exact .inl he
  | wrote bytes => exact .inl he
  | stored m => exact .inl he
  | @opened mk hmk name =>
    rcases openCommon_cases io mk name p s with ⟨-, heq⟩ | ⟨-, -, heq⟩ | ⟨-, -, ht, -⟩
    · rw [heq] at he; exact .inl he
    · rw [heq] at he; exact .inl he
    · rw [ht] at he
      rcases List.mem_append.mp ((Tables.openfiles_rpcCommonOpen_sublist _ _ _).subset he) with
        he | he
      · exact .inl he
      · exact .inr (by rw [List.mem_singleton.mp he])
  | @closed mk hmk fd =>
    rw [(closeCommon_spec io mk fd p s).1] at he
    split at he
    · exact .inl ((Tables.openfiles_rpcCommonClose_sublist fd p).subset he)
    · exact .inl he
  | mounted fsname devname flag useshm arglen =>
    rcases rpcCommandMount_cases io fsname devname flag useshm arglen p s with
      ⟨ret, buf, t, -, hframe, -, heq⟩ | ⟨buf, t, -, -, hframe, -, heq⟩
    · rw [heq] at he
      exact .inl (hframe.tables ▸ he)
    · rw [heq] at he
      exact .inl he
  | unmounted fsname => exact .inl (((CleanupAct.unmounted fsname).openfiles_sublist hp).subset he)

/-- An act for a connected client. -/
theorem Owned.act (hp : p ≠ 0) (hmem : p ∈ s.clients) (h : Owned s) (hact : Act io p s s') :
    Owned s' := by
  have hclients : s'.clients = s.clients := congrArg Conns.clients hact.conns
  constructor
  · intro e he
    rw [hclients]
    rcases hact.mem_files hp he with he | heq
    · exact h.files e he
    · exact heq ▸ hmem
  · intro i hi
    rw [hclients]
    rcases hact.items_cases hp with heq | ⟨n, item, heq, hbefore, hafter⟩
    · rw [heq]
      exact h.slots i (by simpa only [Tables.Occupied, heq] using hi)
    · by_cases hin : i = n
      · subst hin
        have hitem : s'.gMountlistItems i = item := by rw [heq, Function.update_self]
        rw [hitem]
        rcases hafter with hzero | hown
        · exact absurd (hitem ▸ hzero) hi.2
        · exact hown ▸ hmem
      · have hitem : s'.gMountlistItems i = s.gMountlistItems i := by
          rw [heq, Function.update_of_ne hin]
        rw [hitem]
        exact h.slots i ⟨hi.1, hitem ▸ hi.2⟩

/-- **Step lemma.**  A client that connects is in the table, and one that is gone has left nothing
behind. -/
theorem Owned.step (laws : FdLaws io fds) (hok : s.Ok) (hinv : OpenInv fds s) {e : Event}
    (h : Owned s) (he : handle io e s = some s') : Owned s' := by
  rcases handle_cases he with ⟨a, rfl, -, rfl⟩ | ⟨pfd, choice, req, rfl, hlt, -, hacts⟩ |
    ⟨pfd, fuel, t, rfl, hlt, hacts, heq⟩
  · have hsub : ∀ q ∈ s.clients, q ∈ (s.addNewClient a).clients := by
      intro q hq
      rcases s.toConns.clients_addNewClient a with heq | ⟨-, heq⟩
      · exact heq ▸ hq
      · exact heq ▸ List.mem_append_left _ hq
    exact ⟨fun e he => hsub _ (h.files e he), fun i hi => hsub _ (h.slots i hi)⟩
  · have hmem := Conns.mem_clients hlt
    have hp := (Int32.ne_of_lt (hok.pos _ hmem)).symm
    refine (hacts.preserves (I := fun t => Owned t ∧ t.clients = s.clients) ⟨h, rfl⟩ ?_).1
    intro t u ht hact
    exact ⟨ht.1.act hp (ht.2 ▸ hmem) hact, (congrArg Conns.clients hact.conns).trans ht.2⟩
  · have hmem := Conns.mem_clients hlt
    have hp := (Int32.ne_of_lt (hok.pos _ hmem)).symm
    have hkept : Owned t := by
      refine (hacts.acts.preserves (I := fun t => Owned t ∧ t.clients = s.clients) ⟨h, rfl⟩ ?_).1
      intro t u ht hact
      exact ⟨ht.1.act hp (ht.2 ▸ hmem) hact, (congrArg Conns.clients hact.conns).trans ht.2⟩
    have hclients : t.clients = s.clients := congrArg Conns.clients hacts.acts.conns
    have hgone : s'.Without (s.gConnectionPollfds pfd) :=
      cleanupClient_without laws hinv hp (by simpa only [handle, if_pos hlt] using he)
    have hleft : ∀ q ∈ s.clients, q ≠ s.gConnectionPollfds pfd → q ∈ s'.clients := by
      intro q hq hne
      subst heq
      show q ∈ (s.removeClient pfd).clients
      rw [Conns.clients_removeClient hlt, List.mem_eraseIdx_iff_getElem?]
      obtain ⟨i, hi, rfl⟩ := mem_live.mp hq
      refine ⟨i, ?_, by simp [Conns.clients, live, hi]⟩
      rintro rfl
      exact hne rfl
    subst heq
    exact ⟨fun e he => hleft _ (hclients ▸ hkept.files e he) (hgone.files e he),
      fun i hi => hleft _ (hclients ▸ hkept.slots i hi) (hgone.slots i hi)⟩

/-- What the tables hold is some connected client's, in every reachable state. -/
theorem Reachable.owned (laws : FdLaws io fds) {w : σ} (hw : fds w = ∅) (h : Reachable io w s) :
    Owned s := by
  obtain ⟨fd, shm, hreach⟩ := h
  have hstart : Owned (start fd shm w) :=
    ⟨fun e he => absurd he List.not_mem_nil, fun i hi => absurd rfl hi.2⟩
  have hall : s.Ok ∧ OpenInv fds s ∧ Owned s := by
    refine hreach.preserves (I := fun s => s.Ok ∧ OpenInv fds s ∧ Owned s)
      ⟨conns_start_ok fd shm w, openInv_start fd shm hw, hstart⟩ ?_
    intro e s s' ⟨hok, hinv, hown⟩ he
    refine ⟨handle_ok hok he, ?_, hown.step laws hok hinv he⟩
    exact handle_preserves (fun p _ _ hp hs hact => hs.act laws (Int32.ne_of_lt hp).symm hact)
      (fun _ _ hs => hs.congr rfl rfl ⟨[], by simp⟩ rfl) hok hinv he
  exact hall.2.2

/-- The whole poll table after `cleanup_client`, with the listening socket behind the clients. -/
theorem Conns.polled_removeClient {pfd : ℕ} {c : Conns} (h : pfd < c.gCurrentClientCount) :
    live (c.removeClient pfd).gConnectionPollfds ((c.removeClient pfd).gCurrentClientCount + 1) =
      (live c.gConnectionPollfds (c.gCurrentClientCount + 1)).eraseIdx pfd := by
  have hcount : (c.removeClient pfd).gCurrentClientCount + 1 = c.gCurrentClientCount + 1 - 1 := by
    simp only [removeClient]
    omega
  have hk : c.gCurrentClientCount - pfd = c.gCurrentClientCount + 1 - 1 - pfd := by omega
  rw [hcount, removeClient, hk]
  exact live_shiftDown (Nat.lt_succ_of_lt h)

/-- **A cleanup is complete.**  When a close of an open descriptor succeeds, the cleanup after a
connected client ends; and then no entry of the two tables is the client's, none of its
descriptors is open in iomanX, the poll table has lost its entry and no other, and a client that
is given the same socket later starts with nothing. -/
theorem cleanup_complete (laws : FdLaws io fds)
    (hcloses : ∀ fd w, fd ∈ fds w → (io (.scepfsClose fd) w).1.ret = 0) {w : σ} (hw : fds w = ∅)
    (h : Reachable io w s) {pfd : ℕ} (hpfd : pfd < s.gCurrentClientCount) :
    ∃ bound t, (∀ fuel, bound ≤ fuel → cleanupClient io fuel pfd s = some t) ∧
      (∀ e ∈ t.openfiles, e.mPid ≠ s.gConnectionPollfds pfd) ∧
      (∀ i, t.Occupied i → (t.gMountlistItems i).mPid ≠ s.gConnectionPollfds pfd) ∧
      (∀ e ∈ s.openfiles, e.mPid = s.gConnectionPollfds pfd → e.mFd ∉ fds t.world) ∧
      live t.gConnectionPollfds (t.gCurrentClientCount + 1) =
        (live s.gConnectionPollfds (s.gCurrentClientCount + 1)).eraseIdx pfd ∧
      ∀ es u a v, run (handle io) es t = some u → a.s = s.gConnectionPollfds pfd →
        handle io (.connect a) u = some v → v.Without (s.gConnectionPollfds pfd) := by
  have hinv := h.openInv laws hw
  have hpos : 0 < s.gConnectionPollfds pfd := h.ok.pos _ (Conns.mem_clients hpfd)
  have hp : s.gConnectionPollfds pfd ≠ 0 := (Int32.ne_of_lt hpos).symm
  have hclosed : ClosedInTurn io (s.filesFrom (s.gConnectionPollfds pfd) 0) s.world := by
    refine closedInTurn_of_open laws hcloses ?_ fun fd hfd => ?_
    · exact hinv.nodup.sublist (List.filter_sublist.map _)
    · obtain ⟨e, he, rfl⟩ := List.mem_map.mp hfd
      exact (hinv.exact _).mpr ⟨e, List.mem_of_mem_filter he, rfl⟩
  obtain ⟨bound, v, hv⟩ : ∃ bound v, ∀ fuel, bound ≤ fuel →
      cleanupFiles io pfd fuel 0 s = some v :=
    cleanupFiles_ends rfl (Nat.le_add_left _ 0) (fun j hj => absurd hj (Nat.not_lt_zero j)) hclosed
  obtain ⟨t, ht⟩ : ∃ t, ∀ fuel, bound ≤ fuel → cleanupClient io fuel pfd s = some t :=
    ⟨_, fun fuel hfuel => by rw [cleanupClient, hv fuel hfuel]; rfl⟩
  have hgone := cleanupClient_without laws hinv hp (ht bound (Nat.le_refl bound))
  have hstep : handle io (.hangup pfd bound) s = some t := by
    rw [handle, if_pos hpfd]
    exact ht bound (Nat.le_refl bound)
  obtain ⟨u, hacts, hu⟩ := cleanupClient_cases (ht bound (Nat.le_refl bound))
  have hinv' : OpenInv fds u :=
    hacts.acts.preserves hinv fun _ _ hs hact => hs.act laws hp hact
  refine ⟨bound, t, ht, hgone.files, hgone.slots, ?_, ?_, ?_⟩
  · intro e he hown hopen
    subst hu
    obtain ⟨e', he', hfd⟩ := (hinv'.exact _).mp hopen
    -- the only entry with this descriptor was the client's
    obtain rfl : e' = e :=
      List.inj_on_of_nodup_map hinv.nodup ((hacts.openfiles_sublist hp).subset he') he hfd
    exact hgone.files e' he' hown
  · subst hu
    exact Conns.polled_removeClient hpfd
  · intro es u a v hes ha hconnect
    have hreach : Reachable io w u := by
      have hrun : run (handle io) (.hangup pfd bound :: es) s = some u :=
        run_cons.mpr ⟨t, hstep, hes⟩
      exact h.run hrun
    simp only [handle] at hconnect
    split at hconnect
    · rename_i hfresh
      obtain rfl := Option.some.inj hconnect
      rw [ha] at hfresh
      have hnot := (hfresh.resolve_left (Int32.not_lt.mpr (Int32.le_of_lt hpos))).2.2
      have hnone := (hreach.owned laws hw).without hnot
      exact ⟨hnone.files, hnone.slots⟩
    · cases hconnect

/-- The small iomanX closes what is open. -/
theorem smallIomanx_closes (fd : CInt) (w : SmallWorld CStr) (h : fd ∈ w.fdSet) :
    (smallIomanx id (.scepfsClose fd) w).1.ret = 0 := by
  have hopen : 0 ≤ fd ∧ fd ∈ w.fds := h
  rw [smallIomanx_close id rfl, if_pos hopen]

/-- The file and the mount of client 5 go with it. -/
theorem cleanup_complete_one : ∃ s t : Daemon (SmallWorld CStr),
    run (handle (smallIomanx id)) mountAndOpen (start 4 [] {}) = some s ∧
      s.openfiles ≠ [] ∧ s.Occupied 0 ∧ (∃ fuel, cleanupClient (smallIomanx id) fuel 0 s = some t) ∧
      (∀ e ∈ t.openfiles, e.mPid ≠ 5) ∧
      live t.gConnectionPollfds (t.gCurrentClientCount + 1) = [4] := by
  obtain ⟨s, hs⟩ : ∃ s, run (handle (smallIomanx id)) mountAndOpen (start 4 [] {}) = some s :=
    ⟨_, rfl⟩
  have hpfd : 0 < s.gCurrentClientCount := by
    rw [← Option.some.inj hs]
    decide
  have hpid : s.gConnectionPollfds 0 = 5 := by
    rw [← Option.some.inj hs]
    rfl
  obtain ⟨bound, t, ht, hfiles, -, -, hpolled, -⟩ :=
    cleanup_complete (smallIomanx_fdLaws id) smallIomanx_closes (by simp [SmallWorld.fdSet])
      ⟨4, [], mountAndOpen, hs⟩ hpfd
  refine ⟨s, t, hs, ?_, ?_, ⟨bound, ht bound (Nat.le_refl bound)⟩, ?_, ?_⟩
  · rw [← Option.some.inj hs]
    decide
  · rw [← Option.some.inj hs]
    decide
  · exact hpid ▸ hfiles
  · rw [hpolled, ← Option.some.inj hs]
    decide

end PfsShell.Pfsd
