/-
# What a backup writes, entry by entry

`visits` are the calls of `tar_c_file` in a backup, each with the state iomanX is in before it,
and `Visit.written` is what the call writes.  Nothing is assumed of iomanX.

* `backup_visits`: the archive is what the calls write, one after the other, and the two blocks of
  zeros;
* `backup_framed`: what a call writes is an entry if and only if the number of blocks iomanX
  delivers is the one the size in the header needs (`Visit.Sound`).  The size is the one `getstat`
  gave, or the `0` of a directory or a link, as far as the name does not run into it.
-/
import PfsShell.Pfs2tar.Entry
import PfsShell.Pfs2tar.Format
import PfsShell.Pfs2tar.Simulation

namespace PfsShell.Pfs2tar

open PfsShell.Lib

variable {σ τ : Type}

/-! ## 1. The calls of `tar_c_file` -/

/-- A call of the callback of a walk: its arguments, and iomanX's state. -/
structure Visit (σ : Type) where
  pi : PathInfo
  inPath : CStr
  st : IoxStat
  before : σ

/-- The callback, with a record of its calls. -/
def recorded (fn : Callback σ τ) : Callback σ (τ × List (Visit σ))
  | pi, inPath, st, (w, t, vs) =>
    (fn pi inPath st (w, t)).map fun (r, w', t') => (r, w', t', vs ++ [⟨pi, inPath, st, w⟩])

/-- `tar_part`, with that record. -/
def recordedPart (io : IomanX σ) (uninit : Uninit) (arg : Option CStr) (fuel : ℕ)
    (s : σ × Tar × List (Visit σ)) : Option (ℤ × σ × Tar × List (Visit σ)) :=
  eachPart io uninit (fun m q => (q.1.say m, q.2)) fioMtRdonly arg
    (fun prefixPath s =>
      (wrappedFtw io uninit fuel prefixPath (mountPoint ++ [slash]) (recorded (tarCFile io fuel))
        s).map Prod.snd)
    fuel s

/-- The calls of `tar_c_file` in a backup. -/
def visits (io : IomanX σ) (uninit : Uninit) (arg : Option CStr) (fuel : ℕ) (w : σ) :
    Option (List (Visit σ)) :=
  (recordedPart io uninit arg fuel (w, {}, [])).map fun r => r.2.2.2

/-- What a call writes to the archive. -/
def Visit.written (io : IomanX σ) (fuel : ℕ) (v : Visit σ) : List UInt8 :=
  ((tarCFile io fuel v.pi v.inPath v.st (v.before, {})).map fun r => r.2.2.tarfile).getD []

/-- The header with the name in it, if the call writes one. -/
def Visit.stored (v : Visit σ) : Option (ℕ → UInt8) :=
  if fioSIsreg v.st.mode ∧ v.st.hisize ≠ 0 then none
  else
    let path := (v.pi.pathPrefix ++ v.inPath.drop v.pi.origLen).take 511
    if path.length = 0 then none
    else
      match storePath path headerStart with
      | .stored b => some b
      | _ => none

/-- What a call has done before its first block: the header, the descriptor of the file, and
iomanX's state. -/
def Visit.opened (io : IomanX σ) (v : Visit σ) (b : ℕ → UInt8) : (ℕ → UInt8) × ℤ × σ :=
  let b := storeStat v.st.mode v.st.mtime b
  if fioSIsreg v.st.mode then
    let (reply, w) := io (.open v.inPath fioORdonly 0) v.before
    (storeChecksum (storeSize v.st.size (storeType '0' b)), reply.ret, w)
  else if fioSIsdir v.st.mode then (storeChecksum (storeType '5' b), -1, v.before)
  else if fioSIslnk v.st.mode then
    let (reply, w) := io (.readlink v.inPath 100) v.before
    (storeChecksum (overlay (storeType '2' b) LINK (reply.data.take 100)), -1, w)
  else (storeChecksum b, -1, v.before)

section Writes

variable {io : IomanX σ} {fuel : ℕ} {v : Visit σ} {b : ℕ → UInt8}

theorem tarCFile_of_none (io : IomanX σ) (fuel : ℕ) (h : v.stored = none) (t : Tar) : ∃ t',
    tarCFile io fuel v.pi v.inPath v.st (v.before, t) = some (0, v.before, t') ∧
      t'.tarfile = t.tarfile := by
  unfold Visit.stored at h
  unfold tarCFile
  simp only at h ⊢
  split at h
  · rename_i htoo
    rw [if_pos htoo]
    exact ⟨_, rfl, rfl⟩
  · rename_i htoo
    rw [if_neg htoo]
    split at h
    · rename_i hnil
      rw [if_pos hnil]
      exact ⟨_, rfl, rfl⟩
    · rename_i hnil
      rw [if_neg hnil]
      cases hpath : storePath ((v.pi.pathPrefix ++ v.inPath.drop v.pi.origLen).take 511)
        headerStart with
      | noSlash => exact ⟨_, rfl, rfl⟩
      | tooLong => exact ⟨_, rfl, rfl⟩
      | stored b =>
        rw [hpath] at h
        cases h

/-- A call that writes a header. -/
theorem tarCFile_of_some (h : v.stored = some b) (t : Tar) :
    tarCFile io fuel v.pi v.inPath v.st (v.before, t) =
      (blockLoop io (v.opened io b).2.1 fuel (v.opened io b).1 END (v.opened io b).2.2
        t.tarfile).map fun r => (0, (io (.close (v.opened io b).2.1) r.1).2,
          { t with tarfile := r.2, archived := t.archived ++ [(v.pi.pathPrefix, v.inPath)] }) := by
  have hbody : tarCFile io fuel v.pi v.inPath v.st (v.before, t) =
      tarBody io fuel v.pi v.inPath v.st (storeStat v.st.mode v.st.mtime b) (v.before, t) := by
    unfold Visit.stored at h
    unfold tarCFile
    simp only at h ⊢
    split at h
    · cases h
    · rename_i htoo
      rw [if_neg htoo]
      split at h
      · cases h
      · rename_i hnil
        rw [if_neg hnil]
        cases hpath : storePath ((v.pi.pathPrefix ++ v.inPath.drop v.pi.origLen).take 511)
          headerStart with
        | noSlash | tooLong =>
          rw [hpath] at h
          cases h
        | stored b' =>
          rw [hpath] at h
          rw [Option.some.inj h]
  rw [hbody]
  simp only [tarBody, Visit.opened]
  split
  · rfl
  · split
    · rfl
    · split
      · rfl
      · rfl

/-- What is in the archive already stays in front. -/
theorem blockLoop_append (io : IomanX σ) (f : ℤ) : ∀ (fuel : ℕ) (b : ℕ → UInt8) (l : ℤ) (w : σ)
    (done tarfile : List UInt8), blockLoop io f fuel b l w (done ++ tarfile) =
      (blockLoop io f fuel b l w tarfile).map fun r => (r.1, done ++ r.2) := by
  intro fuel
  induction fuel with
  | zero => exact fun _ _ _ _ _ => rfl
  | succ fuel ih =>
    intro b l w done tarfile
    simp only [blockLoop, List.append_assoc]
    split
    · split
      · exact ih _ _ _ _ _
      · rfl
    · rfl

/-- A call adds what it writes to the archive. -/
theorem tarCFile_written {pi : PathInfo} {inPath : CStr} {st : IoxStat} {w : σ} {t : Tar} :
    Only (fun r => r.2.2.tarfile = t.tarfile ++ Visit.written io fuel ⟨pi, inPath, st, w⟩)
      (tarCFile io fuel pi inPath st (w, t)) := by
  obtain ⟨v, hv⟩ : ∃ v : Visit σ, v = ⟨pi, inPath, st, w⟩ := ⟨_, rfl⟩
  intro r hr
  have hr' : tarCFile io fuel v.pi v.inPath v.st (v.before, t) = some r := by rw [hv, hr]
  rw [← hv, Visit.written]
  cases hstored : v.stored with
  | none =>
    obtain ⟨t₁, heq₁, htar₁⟩ := tarCFile_of_none io fuel hstored t
    obtain ⟨t₂, heq₂, htar₂⟩ := tarCFile_of_none io fuel hstored {}
    rw [heq₁] at hr'
    rw [← Option.some.inj hr', heq₂, htar₁]
    simp [htar₂]
  | some b =>
    have happend := blockLoop_append io (v.opened io b).2.1 fuel (v.opened io b).1 END
      (v.opened io b).2.2 t.tarfile []
    rw [List.append_nil] at happend
    rw [tarCFile_of_some hstored, happend] at hr'
    rw [tarCFile_of_some hstored]
    cases hloop : blockLoop io (v.opened io b).2.1 fuel (v.opened io b).1 END
      (v.opened io b).2.2 [] with
    | none =>
      rw [hloop] at hr'
      cases hr'
    | some x =>
      rw [hloop] at hr'
      rw [← Option.some.inj hr']
      rfl

/-- The record of a backup: what its calls write is what is in the archive. -/
structure Recorded (io : IomanX σ) (fuel : ℕ) (s : σ × Tar) (q : σ × Tar × List (Visit σ)) :
    Prop where
  world : q.1 = s.1
  tar : q.2.1 = s.2
  tarfile : s.2.tarfile = q.2.2.flatMap (Visit.written io fuel)
  ended : ∀ v ∈ q.2.2, tarCFile io fuel v.pi v.inPath v.st (v.before, {}) ≠ none
  stat : ∀ v ∈ q.2.2, ∃ w, v.st = (io (.getstat v.inPath) w).1.stat

/-- The same call of iomanX, beside the record. -/
theorem followed_recorded : Followed io io (fun _ => False) (Recorded io fuel) where
  lost _ _ _ h := h
  step c w' t' w t h := by
    obtain ⟨rfl, ht, htar, hended, hstat⟩ := h
    exact .inr ⟨rfl, rfl, ht, htar, hended, hstat⟩

/-- Whether a call ends does not depend on the archive. -/
theorem tarCFile_ended {t : Tar} (h : tarCFile io fuel v.pi v.inPath v.st (v.before, t) ≠ none) :
    tarCFile io fuel v.pi v.inPath v.st (v.before, {}) ≠ none := by
  cases hstored : v.stored with
  | none =>
    obtain ⟨t', heq, -⟩ := tarCFile_of_none io fuel hstored {}
    rw [heq]
    exact Option.some_ne_none _
  | some b =>
    have happend := blockLoop_append io (v.opened io b).2.1 fuel (v.opened io b).1 END
      (v.opened io b).2.2 t.tarfile []
    rw [List.append_nil] at happend
    rw [tarCFile_of_some hstored, happend, ne_eq, Option.map_eq_none_iff,
      Option.map_eq_none_iff] at h
    rwa [tarCFile_of_some hstored, ne_eq, Option.map_eq_none_iff]

theorem tarCFile_follows (pi : PathInfo) (inPath : CStr) (st : IoxStat) (s : σ × Tar)
    (q : σ × Tar × List (Visit σ)) (hst : ∃ w, st = (io (.getstat inPath) w).1.stat)
    (h : Recorded io fuel s q) :
    Follows (fun _ => False) (SameEnd (Recorded io fuel)) (tarCFile io fuel pi inPath st s)
      (recorded (tarCFile io fuel) pi inPath st q) := by
  obtain ⟨w, t⟩ := s
  obtain ⟨w', t', vs⟩ := q
  obtain ⟨hw, ht, htar, hended, hstat⟩ := h
  simp only at hw ht htar hended hstat
  subst hw ht
  intro r hr
  obtain ⟨ret, w₁, t₁⟩ := r
  have hwritten := tarCFile_written _ hr
  have hend : tarCFile io fuel pi inPath st (w', {}) ≠ none :=
    tarCFile_ended (v := ⟨pi, inPath, st, w'⟩) (by rw [hr]; exact Option.some_ne_none _)
  refine .inr ⟨(ret, w₁, t₁, vs ++ [⟨pi, inPath, st, w'⟩]), ?_, rfl, rfl, rfl, ?_, ?_, ?_⟩
  · simp only [recorded, hr, Option.map_some]
  · simp only at hwritten ⊢
    rw [hwritten, htar, List.flatMap_append, List.flatMap_singleton]
  · intro v hv
    rcases List.mem_append.mp hv with hv | hv
    · exact hended v hv
    · rwa [List.mem_singleton.mp hv]
  · intro v hv
    rcases List.mem_append.mp hv with hv | hv
    · exact hstat v hv
    · rwa [List.mem_singleton.mp hv]

/-- **The archive is what the calls write.** -/
theorem backup_visits {uninit : Uninit} {arg : Option CStr} {w w' : σ} {t : Tar}
    (h : backup io uninit arg fuel w = some (w', t)) : ∃ vs,
      visits io uninit arg fuel w = some vs ∧
        t.tarfile = vs.flatMap (Visit.written io fuel) ++ zeros ∧
        ∀ v ∈ vs, tarCFile io fuel v.pi v.inPath v.st (v.before, {}) ≠ none ∧
          ∃ w, v.st = (io (.getstat v.inPath) w).1.stat := by
  obtain ⟨⟨ret, w₁, t₁⟩, hpart, heq⟩ := Option.map_eq_some_iff.mp h
  have hnil : Recorded io fuel (w, {}) (w, {}, []) :=
    ⟨rfl, rfl, rfl, fun v hv => absurd hv List.not_mem_nil, fun v hv => absurd hv List.not_mem_nil⟩
  have hfollows : Follows (fun _ => False) (SameEnd (Recorded io fuel))
      (tarPart io uninit arg fuel (w, {})) (recordedPart io uninit arg fuel (w, {}, [])) := by
    refine eachPart_follows followed_recorded uninit (fun _ _ _ h => h) (fun m w' t' w t hR => ?_)
      (fun _ _ h => h.elim) (fun p s q hR => ?_) fuel hnil
    · exact ⟨hR.world, congrArg (fun t => Tar.say t m) hR.tar, hR.tarfile, hR.ended, hR.stat⟩
    · exact (wrappedFtw_follows followed_recorded uninit (fun _ _ _ _ h => h.elim)
        tarCFile_follows fuel p _ s q hR).map (fun _ h => h) fun _ _ hr => .inr hr.2
  obtain ⟨⟨ret', q⟩, hq, -, hrecorded⟩ := (hfollows _ hpart).resolve_left id
  refine ⟨q.2.2, ?_, ?_, fun v hv => ⟨hrecorded.ended v hv, hrecorded.stat v hv⟩⟩
  · rw [visits, hq]
    rfl
  · obtain ⟨-, rfl⟩ := Prod.mk.inj heq
    have htar := hrecorded.tarfile
    simp only at htar
    simp only [htar, zeros, List.append_assoc]

/-! ## 2. Blocks -/

/-- `iomanX_read` delivers something `n` times, and then nothing or an error. -/
def Delivers (io : IomanX σ) (f : ℤ) : ℕ → σ → Prop
  | 0, w => ¬ 0 < (io (.read f END) w).1.ret
  | n + 1, w => 0 < (io (.read f END) w).1.ret ∧ Delivers io f n (io (.read f END) w).2

theorem Delivers.unique {f : ℤ} : ∀ {m n : ℕ} {w : σ}, Delivers io f m w → Delivers io f n w → m = n
  | 0, 0, _, _, _ => rfl
  | 0, _ + 1, _, hm, hn => absurd hn.1 hm
  | _ + 1, 0, _, hm, hn => absurd hm.1 hn
  | _ + 1, _ + 1, _, hm, hn => congrArg Nat.succ (Delivers.unique hm.2 hn.2)

/-- A block for each time something is delivered, behind the one the loop begins with. -/
theorem blockLoop_blocks {f : ℤ} (hf : 0 ≤ f) : ∀ (fuel : ℕ) (b : ℕ → UInt8) (l : ℤ) (w : σ)
    (tarfile : List UInt8), Only (fun r => ∃ n first blocks, Delivers io f n w ∧
      first.length = 512 ∧ (END ≤ l → first = window b 0 END) ∧ blocks.length = 512 * n ∧
        r.2 = tarfile ++ first ++ blocks) (blockLoop io f fuel b l w tarfile) := by
  intro fuel
  induction fuel with
  | zero => exact fun _ _ _ _ => .none
  | succ fuel ih =>
    intro b l w tarfile
    obtain ⟨first, hfirst⟩ : ∃ first, first = window (if l < END then
      overlay b l.toNat (List.replicate (END - l.toNat) 0) else b) 0 END := ⟨_, rfl⟩
    have hlen : first.length = 512 := by rw [hfirst, length_window, END]
    have hsame : END ≤ l → first = window b 0 END := by
      intro hl
      rw [hfirst, if_neg (by omega)]
    simp only [blockLoop, if_pos hf, ← hfirst]
    split
    · rename_i hpos
      refine (ih _ _ _ _).mono fun r hr => ?_
      obtain ⟨n, second, blocks, hn, hlen₂, -, hblocks, heq⟩ := hr
      refine ⟨n + 1, first, second ++ blocks, ⟨hpos, hn⟩, hlen, hsame, ?_, ?_⟩
      · rw [List.length_append, hlen₂, hblocks]
        omega
      · rw [heq]
        simp only [List.append_assoc]
    · rename_i hpos
      exact .some ⟨0, first, [], hpos, hlen, hsame, rfl, by rw [List.append_nil]⟩

/-- Without a file there is only the block the loop begins with. -/
theorem blockLoop_bare {f : ℤ} (hf : ¬ 0 ≤ f) (fuel : ℕ) (b : ℕ → UInt8) (w : σ)
    (tarfile : List UInt8) : Only (fun r => r.2 = tarfile ++ window b 0 END)
      (blockLoop io f fuel b END w tarfile) := by
  cases fuel with
  | zero => exact .none
  | succ fuel =>
    simp only [blockLoop, if_neg hf]
    exact .some (by rw [if_neg (lt_irrefl _)])

/-! ## 3. The size in the header -/

/-- The path of a visit in the archive. -/
def Visit.path (v : Visit σ) : CStr := (v.pi.pathPrefix ++ v.inPath.drop v.pi.origLen).take 511

/-- The size in the header: that of the file, or the number that a name longer than 124 bytes
leaves in the field. -/
def Visit.size (v : Visit σ) : ℤ :=
  if fioSIsreg v.st.mode then v.st.size
  else strtol8 (cutAt 0 (window (overlay headerStart NAME (namePart v.path)) SIZE 12))

/-- How many blocks iomanX delivers for a visit. -/
def Visit.Delivered (io : IomanX σ) (v : Visit σ) (n : ℕ) : Prop :=
  let (reply, w) := io (.open v.inPath fioORdonly 0) v.before
  if fioSIsreg v.st.mode ∧ 0 ≤ reply.ret then Delivers io reply.ret n w else n = 0

/-- If a header is written, iomanX delivers as many blocks as the size in it needs. -/
def Visit.Sound (io : IomanX σ) (v : Visit σ) : Prop :=
  v.stored ≠ none → ∃ n : ℕ, v.Delivered io n ∧ (n : ℤ) = (v.size + 511) / 512

theorem storePath_of_stored (h : v.stored = some b) :
    storePath v.path headerStart = .stored b := by
  unfold Visit.stored at h
  simp only at h
  split at h
  · cases h
  · split at h
    · cases h
    · cases hs : storePath v.path headerStart with
      | noSlash | tooLong =>
        rw [Visit.path] at hs
        rw [hs] at h
        cases h
      | stored b' =>
        rw [Visit.path] at hs
        rw [hs] at h
        rw [Option.some.inj h]

theorem window_stored (h : v.stored = some b) :
    window b SIZE 12 = window (overlay headerStart NAME (namePart v.path)) SIZE 12 := by
  obtain ⟨heq, -, -⟩ := storePath_eq (storePath_of_stored h)
  rw [heq]
  -- the first part of the path is stored far behind the size
  refine window_congr fun i hi => ?_
  have hsame : overlay headerStart NAME2 (prefixPart v.path) (SIZE + i) =
      headerStart (SIZE + i) := overlay_of_notMem (by simp only [SIZE, NAME2]; omega)
  rw [overlay, hsame]
  rfl

/-- **The size in the header.** -/
theorem octalSize_opened (io : IomanX σ) (h : v.stored = some b) (hsize : v.st.size < 4294967296) :
    octalSize (window (v.opened io b).1 0 END) = v.size := by
  have hlt : v.st.size < 8 ^ 11 := by omega
  have hfield := window_stored h
  rw [octalSize, field_window (by decide), Visit.size]
  unfold Visit.opened
  simp only
  split
  · have hdigits : snprintf 12 (octal 11 v.st.size) = octalDigits 11 v.st.size ++ [0] :=
      snprintf_octal hlt
    simp only
    rw [window_storeChecksum (by decide), storeSize, hdigits, window_overlay _ _ (by simp),
      List.append_assoc, List.singleton_append, strtol8_cutAt (by omega) hlt]
  · have hstat := window_storeStat (b := b) (a := SIZE) (n := 12) v.st.mode v.st.mtime (by decide)
      (by decide)
    split
    · simp only
      rw [window_storeChecksum (by decide), window_storeType _ (by decide), hstat, hfield]
    · split
      · simp only
        rw [window_storeChecksum (by decide), window_overlay_of_disjoint _
          (by simp only [SIZE, LINK]; omega), window_storeType _ (by decide), hstat, hfield]
      · simp only
        rw [window_storeChecksum (by decide), hstat, hfield]

/-! ## 4. Entries -/

theorem opened_file (io : IomanX σ) (hreg : fioSIsreg v.st.mode = true) (b : ℕ → UInt8) :
    (v.opened io b).2 = ((io (.open v.inPath fioORdonly 0) v.before).1.ret,
      (io (.open v.inPath fioORdonly 0) v.before).2) := by
  simp only [Visit.opened, if_pos hreg]

theorem opened_bare (hreg : ¬ fioSIsreg v.st.mode = true) (b : ℕ → UInt8) :
    (v.opened io b).2.1 = -1 := by
  simp only [Visit.opened, if_neg hreg]
  split
  · rfl
  · split
    · rfl
    · rfl

/-- A call writes its header, and the blocks iomanX delivers. -/
theorem written_of_stored (h : v.stored = some b)
    (hend : tarCFile io fuel v.pi v.inPath v.st (v.before, {}) ≠ none) : ∃ n blocks,
      v.Delivered io n ∧ blocks.length = 512 * n ∧
        v.written io fuel = window (v.opened io b).1 0 END ++ blocks := by
  rw [tarCFile_of_some h, ne_eq, Option.map_eq_none_iff] at hend
  obtain ⟨r, hr⟩ := Option.ne_none_iff_exists'.mp hend
  have hwritten : v.written io fuel = r.2 := by
    rw [Visit.written, tarCFile_of_some h, hr]
    rfl
  have hnil : ({} : Tar).tarfile = [] := rfl
  rw [hnil] at hr
  rw [hwritten]
  by_cases hreg : fioSIsreg v.st.mode = true
  · have hopened := opened_file io hreg b
    obtain ⟨⟨f, w⟩, hfw⟩ : ∃ fw : ℤ × σ, fw = (v.opened io b).2 := ⟨_, rfl⟩
    have hsame : (io (.open v.inPath fioORdonly 0) v.before).1.ret = f ∧
        (io (.open v.inPath fioORdonly 0) v.before).2 = w := by
      rw [← hfw] at hopened
      exact ⟨(Prod.mk.inj hopened).1.symm, (Prod.mk.inj hopened).2.symm⟩
    rw [← hfw] at hr
    simp only [Visit.Delivered, hsame.1, hsame.2]
    by_cases hf : 0 ≤ f
    · obtain ⟨n, first, blocks, hn, -, hfirst, hblocks, heq⟩ := blockLoop_blocks hf _ _ _ _ _ _ hr
      exact ⟨n, blocks, by rwa [if_pos ⟨hreg, hf⟩], hblocks,
        by rw [heq, hfirst (le_refl _), List.nil_append]⟩
    · have heq := blockLoop_bare hf _ _ _ _ _ hr
      exact ⟨0, [], by rw [if_neg fun h0 => hf h0.2], rfl,
        by rw [heq, List.nil_append, List.append_nil]⟩
  · have hf : ¬ 0 ≤ (v.opened io b).2.1 := by
      rw [opened_bare hreg]
      decide
    have heq := blockLoop_bare hf _ _ _ _ _ hr
    refine ⟨0, [], ?_, rfl, by rw [heq, List.nil_append, List.append_nil]⟩
    have hno : ¬ (fioSIsreg v.st.mode = true ∧
        0 ≤ (io (.open v.inPath fioORdonly 0) v.before).1.ret) := fun h0 => hreg h0.1
    simp only [Visit.Delivered, if_neg hno]

theorem Visit.Delivered.unique {m n : ℕ} (hm : v.Delivered io m) (hn : v.Delivered io n) :
    m = n := by
  unfold Visit.Delivered at hm hn
  simp only at hm hn
  split at hm
  · rename_i h
    rw [if_pos h] at hn
    exact Delivers.unique hm hn
  · rename_i h
    rw [if_neg h] at hn
    rw [hm, hn]

theorem written_of_not_stored (h : v.stored = none) : v.written io fuel = [] := by
  obtain ⟨t', heq, htar⟩ := tarCFile_of_none io fuel h {}
  rw [Visit.written, heq]
  exact htar

/-- **One call**: it writes nothing or an entry, if and only if it is sound. -/
theorem written_framed (hsize : v.st.size < 4294967296)
    (hend : tarCFile io fuel v.pi v.inPath v.st (v.before, {}) ≠ none) :
    (v.written io fuel = [] ∨ ∃ e : Entry, v.written io fuel = e.bytes) ↔ v.Sound io := by
  cases hstored : v.stored with
  | none =>
    exact iff_of_true (.inl (written_of_not_stored hstored)) fun h => absurd hstored h
  | some b =>
    obtain ⟨n, blocks, hn, hblocks, heq⟩ := written_of_stored hstored hend
    have hoctal := octalSize_opened io hstored hsize
    have hlen : (window (v.opened io b).1 0 END).length = 512 := length_window _ _ _
    generalize window (v.opened io b).1 0 END = header at heq hoctal hlen
    constructor
    · rintro (hnil | ⟨e, he⟩) _
      · rw [heq] at hnil
        have := congrArg List.length hnil
        rw [List.length_append, hlen, List.length_nil] at this
        omega
      · -- the entry has the same header, and so the same blocks
        rw [heq, Entry.bytes] at he
        obtain ⟨hheader, hcontent⟩ := List.append_inj he (by rw [hlen, e.header_length])
        have hneed := e.blocks_length
        rw [← hheader, ← hcontent, hoctal, hblocks] at hneed
        exact ⟨n, hn, by omega⟩
    · intro hsound
      obtain ⟨m, hm, hneed⟩ := hsound (by rw [hstored]; exact Option.some_ne_none _)
      obtain rfl := hn.unique hm
      exact .inr ⟨⟨header, blocks, hlen, by rw [hoctal, hblocks, ← hneed]; omega⟩, heq⟩

/-! ## 5. The content of a file -/

/-- The file behind `f` has the given content from here on: every read but the last fills the
block, and none fails. -/
inductive FileReads (io : IomanX σ) (f : ℤ) : List UInt8 → σ → Prop
  | eof {w : σ} (hret : (io (.read f END) w).1.ret = 0) : FileReads io f [] w
  | block {w : σ} {chunk rest : List UInt8} (hchunk : 0 < chunk.length ∧ chunk.length ≤ 512)
      (hfull : rest ≠ [] → chunk.length = 512)
      (hret : (io (.read f END) w).1.ret = chunk.length)
      (hdata : (io (.read f END) w).1.data = chunk)
      (hrest : FileReads io f rest (io (.read f END) w).2) : FileReads io f (chunk ++ rest) w

/-- The file of a visit can be opened and read, and has the size `getstat` gave. -/
def Visit.Reads (io : IomanX σ) (v : Visit σ) (content : List UInt8) : Prop :=
  let (reply, w) := io (.open v.inPath fioORdonly 0) v.before
  fioSIsreg v.st.mode = true ∧ 0 ≤ reply.ret ∧ FileReads io reply.ret content w ∧
    content.length = v.st.size

/-- A content after a full block, or after the last one, is filled up by itself. -/
theorem pad_append {chunk rest : List UInt8} (hchunk : 0 < chunk.length ∧ chunk.length ≤ 512)
    (hfull : rest ≠ [] → chunk.length = 512) : pad (chunk ++ rest) =
      chunk ++ List.replicate (512 - chunk.length) 0 ++ pad rest := by
  have hne : chunk ++ rest ≠ [] := List.ne_nil_of_length_pos (by rw [List.length_append]; omega)
  have hsplit : (chunk ++ rest).take 512 = chunk ∧ (chunk ++ rest).drop 512 = rest := by
    by_cases hrest : rest = []
    · subst hrest
      rw [List.append_nil, List.take_of_length_le hchunk.2, List.drop_of_length_le hchunk.2]
      exact ⟨rfl, rfl⟩
    · exact ⟨List.take_left' (hfull hrest), List.drop_left' (hfull hrest)⟩
  rw [pad_step hne, hsplit.1, hsplit.2]

theorem blockLoop_reads {f : ℤ} (hf : 0 ≤ f) {content : List UInt8} : ∀ (fuel : ℕ)
    (b : ℕ → UInt8) (l : ℤ) (w : σ) (tarfile first : List UInt8), FileReads io f content w →
    window (if l < END then overlay b l.toNat (List.replicate (END - l.toNat) 0) else b) 0 END =
      first →
    Only (fun r => r.2 = tarfile ++ first ++ pad content) (blockLoop io f fuel b l w tarfile) := by
  intro fuel
  induction fuel generalizing content with
  | zero => exact fun _ _ _ _ _ _ _ => .none
  | succ fuel ih =>
    intro b l w tarfile first hreads hfirst
    simp only [blockLoop, if_pos hf, hfirst]
    cases hreads with
    | eof hret =>
      rw [if_neg (by omega)]
      exact .some (by rw [pad_nil, List.append_nil])
    | @block _ chunk rest hchunk hfull hret hdata hrest =>
      rw [if_pos (by omega), hdata, hret, List.take_of_length_le (by rw [END]; exact hchunk.2)]
      refine (ih _ _ _ _ _ hrest (window_block _ hchunk.2)).mono fun r hr => ?_
      rw [hr, pad_append hchunk hfull]
      simp only [List.append_assoc]

/-- **A file that is read without an error** is in the archive, filled up to whole blocks. -/
theorem written_reads {content : List UInt8} (h : v.Reads io content) (hstored : v.stored = some b)
    (hend : tarCFile io fuel v.pi v.inPath v.st (v.before, {}) ≠ none) :
    v.written io fuel = window (v.opened io b).1 0 END ++ pad content := by
  obtain ⟨hreg, hret, hreads, -⟩ := h
  rw [tarCFile_of_some hstored, ne_eq, Option.map_eq_none_iff] at hend
  obtain ⟨r, hr⟩ := Option.ne_none_iff_exists'.mp hend
  have hwritten : v.written io fuel = r.2 := by
    rw [Visit.written, tarCFile_of_some hstored, hr]
    rfl
  have hopened := opened_file io hreg b
  rw [hopened] at hr
  have heq := blockLoop_reads hret fuel (v.opened io b).1 END _ _ _ hreads rfl r hr
  have hnil : ({} : Tar).tarfile = [] := rfl
  rw [hwritten, heq, hnil, if_neg (lt_irrefl _), List.nil_append]

/-- Such a file is sound. -/
theorem Visit.Reads.sound {content : List UInt8} (h : v.Reads io content)
    (hstored : v.stored = some b)
    (hend : tarCFile io fuel v.pi v.inPath v.st (v.before, {}) ≠ none) : v.Sound io := by
  intro _
  obtain ⟨n, blocks, hn, hblocks, heq⟩ := written_of_stored hstored hend
  have hlen : (window (v.opened io b).1 0 END).length = 512 := length_window _ _ _
  rw [written_reads h hstored hend] at heq
  obtain ⟨-, rfl⟩ := List.append_inj heq rfl
  obtain ⟨hreg, -, -, hsize⟩ := h
  refine ⟨n, hn, ?_⟩
  rw [length_pad] at hblocks
  rw [Visit.size, if_pos hreg, ← hsize]
  omega

end Writes

/-! ## 6. The archive -/

/-- **When an archive is well formed.**  Each call writes nothing or an entry if and only if it is
sound, so the archive of a backup whose calls are all sound is a sequence of entries and the two
blocks; and a file that is read without an error is in its entry from the first byte on. -/
theorem backup_framed {io : IomanX σ} (htyped : ∀ c w, (io c w).1.stat.size < 4294967296)
    {uninit : Uninit} {arg : Option CStr} {fuel : ℕ} {w w' : σ} {t : Tar}
    (h : backup io uninit arg fuel w = some (w', t)) : ∃ vs,
      visits io uninit arg fuel w = some vs ∧
      t.tarfile = vs.flatMap (Visit.written io fuel) ++ zeros ∧
      ((∀ v ∈ vs, v.Sound io) → IsArchive t.tarfile) ∧
      (∀ v ∈ vs, (v.written io fuel = [] ∨ ∃ e : Entry, v.written io fuel = e.bytes) ↔
        v.Sound io) ∧
      ∀ v ∈ vs, ∀ content, v.stored ≠ none → v.Reads io content → ∃ e : Entry,
        v.written io fuel = e.bytes ∧ octalSize e.header = content.length ∧
          e.blocks.take content.length = content := by
  obtain ⟨vs, hvisits, htar, hall⟩ := backup_visits h
  have hframed : ∀ v ∈ vs, (v.written io fuel = [] ∨ ∃ e : Entry, v.written io fuel = e.bytes) ↔
      v.Sound io := by
    intro v hv
    obtain ⟨hend, w₀, hst⟩ := hall v hv
    exact written_framed (by rw [hst]; exact htyped _ _) hend
  refine ⟨vs, hvisits, htar, fun hsound => ?_, hframed, fun v hv content hstored hreads => ?_⟩
  · rw [htar]
    obtain ⟨es, hes, -⟩ := exists_entries (f := Visit.written io fuel) (Q := fun _ _ => True)
      (fun _ _ _ _ _ => trivial) vs fun v hv => by
        rcases (hframed v hv).mpr (hsound v hv) with hnil | ⟨e, he⟩
        · exact ⟨[], by rw [hnil]; rfl, trivial⟩
        · exact ⟨[e], by rw [he, List.flatMap_singleton], trivial⟩
    exact ⟨es, by rw [hes]⟩
  · obtain ⟨hend, w₀, hst⟩ := hall v hv
    obtain ⟨b, hb⟩ := Option.ne_none_iff_exists'.mp hstored
    have hwritten := written_reads hreads hb hend
    have hsize : v.st.size < 4294967296 := by rw [hst]; exact htyped _ _
    have hoctal := octalSize_opened io hb hsize
    have hlen : (window (v.opened io b).1 0 END).length = 512 := length_window _ _ _
    rcases (hframed v hv).mpr (hreads.sound hb hend) with hnil | ⟨e, he⟩
    · have := congrArg List.length (hwritten.symm.trans hnil)
      rw [List.length_append, hlen, List.length_nil] at this
      omega
    · rw [hwritten, Entry.bytes] at he
      obtain ⟨hheader, hcontent⟩ := List.append_inj he (by rw [hlen, e.header_length])
      refine ⟨e, by rw [hwritten, Entry.bytes, ← hheader, ← hcontent], ?_, ?_⟩
      · rw [← hheader, hoctal, Visit.size, if_pos hreads.1, hreads.2.2.2]
      · rw [← hcontent, pad, List.take_left' rfl]

/-! ## 7. A file that cannot be opened -/

/-- An iomanX whose `n`-th call has the `n`-th reply. -/
def canned (replies : List Reply) : IomanX ℕ := fun _ n => (replies.getD n {}, n + 1)

theorem canned_typed {replies : List Reply} (h : ∀ r ∈ replies, r.stat.size < 4294967296)
    (c : Call) (n : ℕ) : (canned replies c n).1.stat.size < 4294967296 := by
  simp only [canned, List.getD_eq_getElem?_getD]
  cases hn : replies[n]? with
  | none => decide
  | some r => exact h r (List.mem_of_getElem? hn)

/-- A partition `A` with one file `f` of three bytes; `file` are the replies from its `open` on. -/
def oneFile (file : List Reply) : List Reply :=
  [{ ret := 3 }, { ret := 1, dirent := { stat := { mode := 0x0100 }, name := ascii ['A'] } },
    { ret := 0 }, { stat := { mode := fioSIfdir } }, { ret := -1 }, { ret := 4 },
    { ret := 1, dirent := { name := ascii ['f'] } },
    { stat := { mode := fioSIfreg, size := 3 } }] ++ file

/-- The visit of its root. -/
def visitRoot : Visit ℕ :=
  { pi := ⟨6, ascii ['A', '/']⟩, inPath := mountPoint ++ [slash], st := { mode := fioSIfdir },
    before := 4 }

/-- The visit of its file. -/
def visitFile : Visit ℕ :=
  { pi := ⟨6, ascii ['A', '/']⟩, inPath := mountPoint ++ [slash] ++ ascii ['f'],
    st := { mode := fioSIfreg, size := 3 }, before := 8 }

theorem stored_visitRoot :
    visitRoot.stored = some (overlay headerStart NAME (ascii ['A', '/'])) := rfl

theorem stored_visitFile :
    visitFile.stored = some (overlay headerStart NAME (ascii ['A', '/', 'f'])) := rfl

theorem size_visitRoot : visitRoot.size = 0 := by decide

theorem size_visitFile : visitFile.size = 3 := rfl

/-- The file is read. -/
theorem backup_framed_file : ∃ w' t, backup (canned (oneFile [{ ret := 5 },
    { ret := 3, data := [1, 2, 3] }])) {} none 20 0 = some (w', t) ∧ IsArchive t.tarfile := by
  obtain ⟨replies, hreplies⟩ : ∃ replies, replies = oneFile [{ ret := 5 },
    { ret := 3, data := [1, 2, 3] }] := ⟨_, rfl⟩
  obtain ⟨⟨w', t⟩, hrun⟩ : ∃ r, backup (canned replies) {} none 20 0 = some r := by
    rw [hreplies]
    exact ⟨_, rfl⟩
  obtain ⟨vs, hvs, -, harchive, -, -⟩ := backup_framed
    (canned_typed (by rw [hreplies]; decide)) hrun
  have hvisits : visits (canned replies) {} none 20 0 = some [visitRoot, visitFile] := by
    rw [hreplies]
    rfl
  obtain rfl := Option.some.inj (hvisits.symm.trans hvs)
  rw [← hreplies]
  refine ⟨w', t, hrun, harchive fun v hv _ => ?_⟩
  simp only [List.mem_cons, List.not_mem_nil, or_false] at hv
  rcases hv with rfl | rfl
  · exact ⟨0, rfl, by rw [size_visitRoot]; rfl⟩
  · refine ⟨1, ?_, by rw [size_visitFile]; rfl⟩
    rw [hreplies]
    exact ⟨by decide, (by decide : ¬ (0 : ℤ) < 0)⟩

/-- **The file cannot be opened**: a header says that there are three bytes, and the end of the
archive follows. -/
theorem backup_unframed : ∃ w' t, backup (canned (oneFile [{ ret := -2 }])) {} none 20 0 =
    some (w', t) ∧ ¬ IsArchive t.tarfile := by
  obtain ⟨io, hio⟩ : ∃ io, io = canned (oneFile [{ ret := -2 }]) := ⟨_, rfl⟩
  obtain ⟨⟨w', t⟩, hrun⟩ : ∃ r, backup io {} none 20 0 = some r := by
    rw [hio]
    exact ⟨_, rfl⟩
  have hvisits : visits io {} none 20 0 = some [visitRoot, visitFile] := by
    rw [hio]
    rfl
  obtain ⟨vs, hvs, htar, hall⟩ := backup_visits hrun
  obtain rfl := Option.some.inj (hvisits.symm.trans hvs)
  -- both calls write a header and no block
  have halone : ∀ v ∈ [visitRoot, visitFile], v.size = 0 ∨ v.size = 3 → ∃ header,
      v.written io 20 = header ∧ header.length = 512 ∧ octalSize header = v.size := by
    intro v hv _
    have hstored : ∃ b, v.stored = some b := by
      simp only [List.mem_cons, List.not_mem_nil, or_false] at hv
      rcases hv with rfl | rfl
      · exact ⟨_, stored_visitRoot⟩
      · exact ⟨_, stored_visitFile⟩
    obtain ⟨b, hb⟩ := hstored
    have hnone : v.Delivered io 0 := by
      simp only [List.mem_cons, List.not_mem_nil, or_false] at hv
      rw [hio]
      rcases hv with rfl | rfl
      · rfl
      · rfl
    obtain ⟨n, blocks, hn, hblocks, heq⟩ := written_of_stored hb (hall v hv).1
    obtain rfl := hn.unique hnone
    rw [List.length_eq_zero_iff.mp hblocks, List.append_nil] at heq
    refine ⟨_, heq, length_window _ _ _, octalSize_opened io hb ?_⟩
    simp only [List.mem_cons, List.not_mem_nil, or_false] at hv
    rcases hv with rfl | rfl
    · decide
    · decide
  obtain ⟨h₁, hroot, hlen₁, hsize₁⟩ := halone visitRoot (by simp) (.inl size_visitRoot)
  obtain ⟨h₂, hfile, hlen₂, hsize₂⟩ := halone visitFile (by simp) (.inr size_visitFile)
  have hzeros : zeros.length = 1024 := by
    rw [zeros, List.length_append, List.length_replicate]
  rw [List.flatMap_cons, List.flatMap_singleton, hroot, hfile, List.append_assoc] at htar
  refine ⟨w', t, hio ▸ hrun, fun ⟨es, hes⟩ => ?_⟩
  rw [htar] at hes
  -- the first entry is the root's, which has no blocks
  cases es with
  | nil =>
    have := congrArg List.length hes
    simp only [List.length_append, List.flatMap_nil, List.nil_append] at this
    omega
  | cons e₁ es =>
    rw [List.flatMap_cons, Entry.bytes, List.append_assoc, List.append_assoc] at hes
    obtain ⟨hheader₁, hes⟩ := List.append_inj hes (by rw [hlen₁, e₁.header_length])
    have hblocks₁ := e₁.blocks_length
    rw [← hheader₁, hsize₁, size_visitRoot] at hblocks₁
    rw [List.length_eq_zero_iff.mp (by omega : e₁.blocks.length = 0), List.nil_append] at hes
    -- the second is the file's, and needs one
    cases es with
    | nil =>
      have := congrArg List.length hes
      simp only [List.length_append, List.flatMap_nil, List.nil_append] at this
      omega
    | cons e₂ es =>
      rw [List.flatMap_cons, Entry.bytes, List.append_assoc, List.append_assoc] at hes
      obtain ⟨hheader₂, hes⟩ := List.append_inj hes (by rw [hlen₂, e₂.header_length])
      have hblocks₂ := e₂.blocks_length
      rw [← hheader₂, hsize₂, size_visitFile] at hblocks₂
      have := congrArg List.length hes
      simp only [List.length_append] at this
      omega

end PfsShell.Pfs2tar
