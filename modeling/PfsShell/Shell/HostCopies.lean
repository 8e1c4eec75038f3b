/-
# Copies between the host and a partition

`copyto` and `copyfrom` of `hl.c` open a file of the host, mount a partition, open a file on it,
copy in a loop, and give everything back.

* Whatever iomanX and the host answer, each descriptor that was opened is closed once, and
  `pfs0:` is unmounted once when it was mounted (`releases_copyto`, `releases_copyfrom`).  Each
  block keeps this of the block inside it.
* The result is not as careful.  A write that takes less than it was given goes unnoticed in
  both, and `copyto` forgets a read that failed.  How the calls go is an `HlScenario`, and
  `hostCopies_sound_iff` says in which of them a result of 0 means that the whole source was
  written.
-/
import PfsShell.Shell.Copies
import Mathlib.Data.List.Perm.Basic

namespace PfsShell.Shell

open PfsShell.Lib

variable {σ : Type}

/-! ## 1. `hl.c` -/

/-- The blocks of `copyto` and `copyfrom` from `iomanX_open` to `iomanX_close`. -/
def withFile (io : IomanX σ) (path : CStr) (flags mode : ℕ) (failed : CStr → ℤ → Message)
    (body : ℤ → Session σ → Outcome σ) (s : Session σ) : Outcome σ :=
  let (fh, s) := s.call io (.open path flags mode)
  if 0 ≤ fh.ret then
    (body fh.ret s).map fun (retval, s) =>
      let (result, s) := s.call io (.close fh.ret)
      if result.ret < 0 then (-1, s.say (.closeFailed result.ret)) else (retval, s)
  else some (-1, s.say (failed path fh.ret))

/-- The blocks from `iomanX_mount` to `iomanX_umount`. -/
def withMount (io : IomanX σ) (mountPoint : CStr) (body : Session σ → Outcome σ)
    (s : Session σ) : Outcome σ :=
  let (result, s) := s.call io (.mount pfs mountPoint 0)
  if 0 ≤ result.ret then
    (body s).map fun (retval, s) =>
      let (result, s) := s.call io (.umount pfs)
      if result.ret < 0 then (-1, s.say (.umountFailed result.ret)) else (retval, s)
  else some (-1, s.say (.mountFailed mountPoint result.ret))

/-- `sizeof(buf)` in both. -/
def sizeofBuf : ℕ := 4096 * 16

theorem sizeofBuf_pos : 0 < sizeofBuf := by decide

/-- The loops: `failed` is the test on what the write returns.  They leave the return code and the
result of the last read. -/
def hlCopyLoop (io : IomanX σ) (read : Call) (write : List UInt8 → Call) (failed : ℤ → Bool)
    (complain : ℤ → Message) : ℕ → ℤ → Session σ → Option (ℤ × ℤ × Session σ)
  | 0, _, _ => none
  | fuel + 1, retval, s =>
    let (len, s) := s.call io read
    if 0 < len.ret then
      let (result, s) := s.call io (write (len.data.take len.ret.toNat))
      if failed result.ret then some (-1, len.ret, s.say (complain result.ret))
      else hlCopyLoop io read write failed complain fuel retval s
    else some (retval, len.ret, s)

/-- `copyto`.  After the loop, an error of the last `read` is only printed. -/
def copyto (io : IomanX σ) (fuel : ℕ) (mountPoint dest src : CStr) (s : Session σ) : Outcome σ :=
  let (inFile, s) := s.call io (.hostOpen src oRdonly 0)
  if inFile.ret ≠ -1 then
    (withMount io mountPoint (fun s =>
      (buffer 256 (pfs ++ dest)).bind fun destPath =>
        withFile io destPath (fioOWronly ||| fioOCreat) 0o666 .createFailed (fun fh s =>
          (hlCopyLoop io (.hostRead inFile.ret sizeofBuf) (.write fh) (fun result => result < 0)
            (.writeFailed destPath) fuel 0 s).map fun (retval, len, s) =>
              (retval, if len < 0 then s.say (.perror src) else s)) s) s).map fun (retval, s) =>
      (retval, (s.call io (.hostClose inFile.ret)).2)
  else some (-1, s.say (.perror src))

/-- `copyfrom`.  Here an error of the last `iomanX_read` is returned, and so is one of the host's
`close`. -/
def copyfrom (io : IomanX σ) (fuel : ℕ) (mountPoint src dest : CStr) (s : Session σ) :
    Outcome σ :=
  let (outFile, s) := s.call io (.hostOpen dest (oCreat ||| oWronly) 0o664)
  if outFile.ret ≠ -1 then
    (withMount io mountPoint (fun s =>
      (buffer 256 (pfs ++ src)).bind fun srcPath =>
        withFile io srcPath fioORdonly 0 .openFailed (fun fh s =>
          (hlCopyLoop io (.read fh sizeofBuf) (.hostWrite outFile.ret) (fun result => result = -1)
            (fun _ => .perror dest) fuel 0 s).map fun (retval, len, s) =>
              if len < 0 then (-1, s.say (.readFailed srcPath len)) else (retval, s)) s) s).map
      fun (retval, s) =>
        let (result, s) := s.call io (.hostClose outFile.ret)
        if result.ret = -1 then (-1, s.say (.perror dest)) else (retval, s)
  else some (-1, s.say (.perror dest))

/-! ## 2. What is opened is closed -/

/-- The descriptor of the host that a call opened, if it did. -/
def hostOpened : CallRecord → Option ℤ
  | ⟨.hostOpen _ _ _, ret⟩ => if ret ≠ -1 then some ret else none
  | _ => none

/-- The descriptor of the host that a call closed. -/
def hostClosed : CallRecord → Option ℤ
  | ⟨.hostClose fd, _⟩ => some fd
  | _ => none

/-- The descriptor of iomanX that a call opened. -/
def fileOpened : CallRecord → Option ℤ
  | ⟨.open _ _ _, ret⟩ => if 0 ≤ ret then some ret else none
  | _ => none

/-- The descriptor of iomanX that a call closed. -/
def fileClosed : CallRecord → Option ℤ
  | ⟨.close fd, _⟩ => some fd
  | _ => none

/-- The file system that a call mounted. -/
def mounted : CallRecord → Option CStr
  | ⟨.mount fsname _ _, ret⟩ => if 0 ≤ ret then some fsname else none
  | _ => none

/-- The file system that a call unmounted. -/
def unmounted : CallRecord → Option CStr
  | ⟨.umount fsname, _⟩ => some fsname
  | _ => none

/-- Each descriptor that was opened in these calls was closed once in them, and what was mounted was
unmounted once, at most `n` times. -/
structure Released (n : ℕ) (calls : List CallRecord) : Prop where
  host : (calls.filterMap hostClosed).Perm (calls.filterMap hostOpened)
  file : (calls.filterMap fileClosed).Perm (calls.filterMap fileOpened)
  mount : (calls.filterMap unmounted).Perm (calls.filterMap mounted)
  bound : (calls.filterMap mounted).length ≤ n

section Releases

variable {io : IomanX σ} {n : ℕ}

section Brackets

variable {news : List CallRecord} {a b : CallRecord}

/-- What the first call takes the last one gives back. -/
theorem perm_bracket {β : Type} {f g : CallRecord → Option β} (hfa : f a = none)
    (hgb : g b = none) (hback : f b = g a) (h : (news.filterMap f).Perm (news.filterMap g)) :
    ((a :: news ++ [b]).filterMap f).Perm ((a :: news ++ [b]).filterMap g) := by
  rw [List.filterMap_append, List.filterMap_append, List.filterMap_cons_none hfa,
    List.filterMap_cons_none hgb, List.filterMap_nil, List.append_nil]
  cases hga : g a with
  | none =>
    rw [List.filterMap_cons_none (hback.trans hga), List.filterMap_cons_none hga,
      List.filterMap_nil, List.append_nil]
    exact h
  | some x =>
    rw [List.filterMap_cons_some (hback.trans hga), List.filterMap_cons_some hga,
      List.filterMap_nil]
    exact (List.perm_append_singleton x _).trans (h.cons x)

theorem mounted_bracket (hb : mounted b = none) :
    (a :: news ++ [b]).filterMap mounted = (mounted a).toList ++ news.filterMap mounted := by
  rw [List.filterMap_append, List.filterMap_cons_none hb, List.filterMap_nil, List.append_nil]
  cases ha : mounted a with
  | none => rw [List.filterMap_cons_none ha, Option.toList_none, List.nil_append]
  | some x => rw [List.filterMap_cons_some ha, Option.toList_some, List.singleton_append]

/-- A file around released calls. -/
theorem Released.file_bracket (h : Released n news) {path : CStr} {flags mode : ℕ} {fh ret : ℤ}
    (hfh : 0 ≤ fh) : Released n (⟨.open path flags mode, fh⟩ :: news ++ [⟨.close fh, ret⟩]) := by
  constructor
  · exact perm_bracket rfl rfl rfl h.host
  · exact perm_bracket rfl rfl (if_pos hfh).symm h.file
  · exact perm_bracket rfl rfl rfl h.mount
  · rw [mounted_bracket rfl]
    exact h.bound

/-- A mount around them. -/
theorem Released.mount_bracket (h : Released n news) {fsname devname : CStr} {flag : ℕ}
    {ret ret' : ℤ} (hret : 0 ≤ ret) :
    Released (n + 1)
      (⟨.mount fsname devname flag, ret⟩ :: news ++ [⟨.umount fsname, ret'⟩]) := by
  have hmounted : mounted ⟨.mount fsname devname flag, ret⟩ = some fsname := if_pos hret
  constructor
  · exact perm_bracket rfl rfl rfl h.host
  · exact perm_bracket rfl rfl rfl h.file
  · exact perm_bracket rfl rfl hmounted.symm h.mount
  · rw [mounted_bracket rfl, hmounted]
    exact Nat.succ_le_succ h.bound

/-- A file of the host around them. -/
theorem Released.host_bracket (h : Released n news) {path : CStr} {flags mode : ℕ} {fd ret : ℤ}
    (hfd : fd ≠ -1) :
    Released n (⟨.hostOpen path flags mode, fd⟩ :: news ++ [⟨.hostClose fd, ret⟩]) := by
  constructor
  · exact perm_bracket rfl rfl (if_pos hfd).symm h.host
  · exact perm_bracket rfl rfl rfl h.file
  · exact perm_bracket rfl rfl rfl h.mount
  · rw [mounted_bracket rfl]
    exact h.bound

end Brackets

/-- A call that opens, closes and mounts nothing. -/
def Idle (c : CallRecord) : Prop :=
  hostOpened c = none ∧ hostClosed c = none ∧ fileOpened c = none ∧ fileClosed c = none ∧
    mounted c = none ∧ unmounted c = none

theorem Released.of_idle {calls : List CallRecord} (h : ∀ c ∈ calls, Idle c) :
    Released n calls := by
  have hnil {β : Type} {f : CallRecord → Option β} (hf : ∀ c ∈ calls, f c = none) :
      calls.filterMap f = [] := List.filterMap_eq_nil_iff.mpr hf
  have hmounted : calls.filterMap mounted = [] := hnil fun c hc => (h c hc).2.2.2.2.1
  constructor
  · rw [hnil fun c hc => (h c hc).1, hnil fun c hc => (h c hc).2.1]
  · rw [hnil fun c hc => (h c hc).2.2.1, hnil fun c hc => (h c hc).2.2.2.1]
  · rw [hmounted, hnil fun c hc => (h c hc).2.2.2.2.2]
  · rw [hmounted]
    exact Nat.zero_le n

theorem Released.of_idle_one {c : CallRecord} (h : Idle c) : Released n [c] :=
  .of_idle fun _ hd => List.mem_singleton.mp hd ▸ h

/-- The loop only adds reads and writes. -/
theorem hlCopyLoop_idle {read : Call} {write : List UInt8 → Call} {failed : ℤ → Bool}
    {complain : ℤ → Message} (hread : ∀ ret, Idle ⟨read, ret⟩)
    (hwrite : ∀ data ret, Idle ⟨write data, ret⟩) :
    ∀ (fuel : ℕ) (retval : ℤ) (s : Session σ) {r : ℤ × ℤ × Session σ},
      hlCopyLoop io read write failed complain fuel retval s = some r →
      ∃ news, r.2.2.calls = s.calls ++ news ∧ ∀ c ∈ news, Idle c
  | 0, _, _, _, h => nomatch h
  | fuel + 1, retval, s, r, h => by
    unfold hlCopyLoop at h
    generalize hcall : s.call io read = res at h
    obtain ⟨len, s₁⟩ := res
    have hs₁ := Session.call_calls hcall
    dsimp only at h
    split at h
    · generalize hcall₂ : s₁.call io (write (len.data.take len.ret.toNat)) = res at h
      obtain ⟨result, s₂⟩ := res
      have hs₂ := Session.call_calls hcall₂
      rw [hs₁, List.append_assoc] at hs₂
      have hidle : ∀ c ∈ [(⟨read, len.ret⟩ : CallRecord)] ++
          [⟨write (len.data.take len.ret.toNat), result.ret⟩], Idle c := by
        intro c hc
        rcases List.mem_pair.mp hc with rfl | rfl
        · exact hread _
        · exact hwrite _ _
      split at h
      · -- the write failed
        cases h
        exact ⟨_, hs₂, hidle⟩
      · obtain ⟨news, hnews, hrest⟩ := hlCopyLoop_idle hread hwrite fuel retval s₂ h
        rw [hs₂, List.append_assoc] at hnews
        refine ⟨_, hnews, ?_⟩
        intro c hc
        exact (List.mem_append.mp hc).elim (hidle c) (hrest c)
    · cases h
      refine ⟨_, hs₁, ?_⟩
      intro c hc
      rw [List.mem_singleton.mp hc]
      exact hread _

/-- `body` releases what it takes, and mounts at most `n` times. -/
def Releases (n : ℕ) (body : Session σ → Outcome σ) : Prop :=
  ∀ (s : Session σ) (r : ℤ × Session σ), body s = some r →
    ∃ news, r.2.calls = s.calls ++ news ∧ Released n news

theorem Releases.run {body : Session σ → Outcome σ} {s : Session σ} {r : ℤ × Session σ}
    (hrun : body s = some r) (h : Releases n body) :
    ∃ news, r.2.calls = s.calls ++ news ∧ Released n news := h s r hrun

/-- What a block calls, around what the block inside it calls. -/
theorem calls_bracket {a b : CallRecord} {s s₁ s₂ s₃ : Session σ} {news : List CallRecord}
    (h₁ : s₁.calls = s.calls ++ [a]) (h₂ : s₂.calls = s₁.calls ++ news)
    (h₃ : s₃.calls = s₂.calls ++ [b]) : s₃.calls = s.calls ++ (a :: news ++ [b]) := by
  rw [h₃, h₂, h₁, List.append_assoc, List.append_assoc, List.singleton_append, List.cons_append]

theorem Releases.withFile {path : CStr} {flags mode : ℕ} {failed : CStr → ℤ → Message}
    {body : ℤ → Session σ → Outcome σ} (hbody : ∀ fh, Releases n (body fh)) :
    Releases n (withFile io path flags mode failed body) := by
  intro s r h
  unfold Shell.withFile at h
  generalize hcall : s.call io (.open path flags mode) = res at h
  obtain ⟨fh, s₁⟩ := res
  have hs₁ := Session.call_calls hcall
  dsimp only at h
  split at h
  case isTrue hfh =>
    obtain ⟨⟨retval, s₂⟩, hrun, hr⟩ := Option.map_eq_some_iff.mp h
    obtain ⟨news, hs₂, hrel⟩ := hbody fh.ret s₁ _ hrun
    generalize hcall₃ : s₂.call io (.close fh.ret) = res at hr
    obtain ⟨result, s₃⟩ := res
    have hcalls : r.2.calls = s₃.calls := by
      rw [← hr]
      dsimp only
      split <;> rfl
    have hnews := calls_bracket hs₁ hs₂ (Session.call_calls hcall₃)
    exact ⟨_, hcalls.trans hnews, hrel.file_bracket hfh⟩
  case isFalse hfh =>
    cases h
    have hidle : fileOpened ⟨.open path flags mode, fh.ret⟩ = none := if_neg hfh
    exact ⟨_, hs₁, .of_idle_one ⟨rfl, rfl, hidle, rfl, rfl, rfl⟩⟩

theorem Releases.withMount {mountPoint : CStr} {body : Session σ → Outcome σ}
    (hbody : Releases n body) : Releases (n + 1) (withMount io mountPoint body) := by
  intro s r h
  unfold Shell.withMount at h
  generalize hcall : s.call io (.mount pfs mountPoint 0) = res at h
  obtain ⟨result, s₁⟩ := res
  have hs₁ := Session.call_calls hcall
  dsimp only at h
  split at h
  case isTrue hret =>
    obtain ⟨⟨retval, s₂⟩, hrun, hr⟩ := Option.map_eq_some_iff.mp h
    obtain ⟨news, hs₂, hrel⟩ := hbody s₁ _ hrun
    generalize hcall₃ : s₂.call io (.umount pfs) = res at hr
    obtain ⟨result', s₃⟩ := res
    have hcalls : r.2.calls = s₃.calls := by
      rw [← hr]
      dsimp only
      split <;> rfl
    have hnews := calls_bracket hs₁ hs₂ (Session.call_calls hcall₃)
    exact ⟨_, hcalls.trans hnews, hrel.mount_bracket hret⟩
  case isFalse hret =>
    cases h
    have hidle : mounted ⟨.mount pfs mountPoint 0, result.ret⟩ = none := if_neg hret
    exact ⟨_, hs₁, .of_idle_one ⟨rfl, rfl, rfl, rfl, hidle, rfl⟩⟩

/-- The blocks inside the mount, in both functions: `after` is what follows the loop. -/
theorem releases_copy {path : CStr} {flags mode fuel : ℕ} {failed : CStr → ℤ → Message}
    {read : ℤ → Call} {write : ℤ → List UInt8 → Call} {test : ℤ → Bool}
    {complain : CStr → ℤ → Message} {after : CStr → ℤ × ℤ × Session σ → ℤ × Session σ}
    (hread : ∀ fh ret, Idle ⟨read fh, ret⟩) (hwrite : ∀ fh data ret, Idle ⟨write fh data, ret⟩)
    (hafter : ∀ path r, (after path r).2.calls = r.2.2.calls) :
    Releases 0 (fun s => (buffer 256 path).bind fun path =>
      withFile io path flags mode failed (fun fh s =>
        (hlCopyLoop io (read fh) (write fh) test (complain path) fuel 0 s).map
          (after path)) s) := by
  intro s r h
  obtain ⟨tmp, -, h⟩ := Option.bind_eq_some_iff.mp h
  refine Releases.run h (.withFile fun fh s r h => ?_)
  obtain ⟨r', hrun, rfl⟩ := Option.map_eq_some_iff.mp h
  obtain ⟨news, hnews, hidle⟩ := hlCopyLoop_idle (hread fh) (hwrite fh) fuel 0 s hrun
  exact ⟨news, (hafter tmp r').trans hnews, .of_idle hidle⟩

/-- **copyto** gives back whatever it takes. -/
theorem releases_copyto {fuel : ℕ} {mountPoint dest src : CStr} :
    Releases 1 (copyto io fuel mountPoint dest src) := by
  intro s r h
  unfold copyto at h
  generalize hcall : s.call io (.hostOpen src oRdonly 0) = res at h
  obtain ⟨inFile, s₁⟩ := res
  have hs₁ := Session.call_calls hcall
  dsimp only at h
  split at h
  case isTrue hfd =>
    obtain ⟨⟨retval, s₂⟩, hrun, hr⟩ := Option.map_eq_some_iff.mp h
    obtain ⟨news, hs₂, hrel⟩ := Releases.run hrun <| .withMount <| releases_copy
      (fun _ _ => ⟨rfl, rfl, rfl, rfl, rfl, rfl⟩) (fun _ _ _ => ⟨rfl, rfl, rfl, rfl, rfl, rfl⟩)
      (fun _ r => by dsimp only; split <;> rfl)
    generalize hcall₃ : s₂.call io (.hostClose inFile.ret) = res at hr
    obtain ⟨result, s₃⟩ := res
    cases hr
    exact ⟨_, calls_bracket hs₁ hs₂ (Session.call_calls hcall₃), hrel.host_bracket hfd⟩
  case isFalse hfd =>
    cases h
    have hidle : hostOpened ⟨.hostOpen src oRdonly 0, inFile.ret⟩ = none := if_neg hfd
    exact ⟨_, hs₁, .of_idle_one ⟨hidle, rfl, rfl, rfl, rfl, rfl⟩⟩

/-- **copyfrom** too. -/
theorem releases_copyfrom {fuel : ℕ} {mountPoint src dest : CStr} :
    Releases 1 (copyfrom io fuel mountPoint src dest) := by
  intro s r h
  unfold copyfrom at h
  generalize hcall : s.call io (.hostOpen dest (oCreat ||| oWronly) 0o664) = res at h
  obtain ⟨outFile, s₁⟩ := res
  have hs₁ := Session.call_calls hcall
  dsimp only at h
  split at h
  case isTrue hfd =>
    obtain ⟨⟨retval, s₂⟩, hrun, hr⟩ := Option.map_eq_some_iff.mp h
    obtain ⟨news, hs₂, hrel⟩ := Releases.run hrun <| .withMount <| releases_copy
      (fun _ _ => ⟨rfl, rfl, rfl, rfl, rfl, rfl⟩) (fun _ _ _ => ⟨rfl, rfl, rfl, rfl, rfl, rfl⟩)
      (fun _ r => by split <;> rfl)
    generalize hcall₃ : s₂.call io (.hostClose outFile.ret) = res at hr
    obtain ⟨result, s₃⟩ := res
    have hcalls : r.2.calls = s₃.calls := by
      rw [← hr]
      dsimp only
      split <;> rfl
    have hnews := calls_bracket hs₁ hs₂ (Session.call_calls hcall₃)
    exact ⟨_, hcalls.trans hnews, hrel.host_bracket hfd⟩
  case isFalse hfd =>
    cases h
    have hidle : hostOpened ⟨.hostOpen dest (oCreat ||| oWronly) 0o664, outFile.ret⟩ = none :=
      if_neg hfd
    exact ⟨_, hs₁, .of_idle_one ⟨hidle, rfl, rfl, rfl, rfl, rfl⟩⟩

end Releases

/-! ## 3. A copy and how its calls go -/

/-- The source, and how the calls go: the host's `open` and `close`, those of iomanX, and the
reads and writes in order. -/
structure HlScenario where
  source : List UInt8
  hostOpens : Option ℕ := some 3
  mounts : ℤ := 0
  opens : ℤ := 3
  closes : ℤ := 0
  umounts : ℤ := 0
  hostCloses : ℤ := 0
  reads : ℕ → Result := fun _ => .moves (2 ^ 20)
  writes : ℕ → Result := fun _ => .moves (2 ^ 20)

/-- The files while the copy runs: the number of reads and of writes so far, how much was read, and
what was written. -/
structure HlCopying extends HlScenario where
  readCount : ℕ := 0
  writeCount : ℕ := 0
  taken : ℕ := 0
  written : List UInt8 := []

/-- A read of `size` bytes, which returns `failed` when it fails. -/
def HlCopying.read (w : HlCopying) (size : ℕ) (failed : ℕ → ℤ) : Reply × HlCopying :=
  match w.reads w.readCount with
  | .fails e => ({ ret := failed e }, { w with readCount := w.readCount + 1 })
  | .moves n =>
    let data := (w.source.drop w.taken).take (min (n + 1) size)
    ({ ret := data.length, data := data },
      { w with readCount := w.readCount + 1, taken := w.taken + data.length })

/-- A write. -/
def HlCopying.write (w : HlCopying) (data : List UInt8) (failed : ℕ → ℤ) : Reply × HlCopying :=
  match w.writes w.writeCount with
  | .fails e => ({ ret := failed e }, { w with writeCount := w.writeCount + 1 })
  | .moves n =>
    ({ ret := (data.take n).length },
      { w with writeCount := w.writeCount + 1, written := w.written ++ data.take n })

/-- iomanX and the host during a copy.  An error of iomanX is a negative number, one of the host
is -1. -/
def hlCopying : IomanX HlCopying
  | .hostOpen _ _ _, w => ({ ret := w.hostOpens.elim (-1) (↑) }, w)
  | .mount _ _ _, w => ({ ret := w.mounts }, w)
  | .open _ _ _, w => ({ ret := w.opens }, w)
  | .hostRead _ size, w => w.read size fun _ => -1
  | .read _ size, w => w.read size Int.negSucc
  | .hostWrite _ data, w => w.write data fun _ => -1
  | .write _ data, w => w.write data Int.negSucc
  | .close _, w => ({ ret := w.closes }, w)
  | .umount _, w => ({ ret := w.umounts }, w)
  | .hostClose _, w => ({ ret := w.hostCloses }, w)
  | _, w => ({}, w)

namespace HlScenario

variable (c : HlScenario)

/-- Where the `i`-th read starts, when all before it move something. -/
def offset : ℕ → ℕ
  | 0 => 0
  | i + 1 =>
    match c.reads i with
    | .moves n => min (offset i + min (n + 1) sizeofBuf) c.source.length
    | .fails _ => offset i

/-- At the `i`-th read there is something left, and neither it nor the write after it fails. -/
def Goes (i : ℕ) : Prop :=
  c.offset i < c.source.length ∧ (∃ n, c.reads i = .moves n) ∧ ∃ m, c.writes i = .moves m

/-- The loop comes to its `i`-th read: it has not ended before. -/
def Reached (i : ℕ) : Prop := ∀ j < i, c.Goes j

/-- A read fails. -/
def ReadFails : Prop := ∃ i, c.Reached i ∧ ∃ e, c.reads i = .fails e

/-- A read fails before the end of the source. -/
def ReadFailsEarly : Prop :=
  ∃ i, c.Reached i ∧ c.offset i < c.source.length ∧ ∃ e, c.reads i = .fails e

/-- A write fails. -/
def WriteFails : Prop :=
  ∃ i, c.Reached i ∧ c.offset i < c.source.length ∧ (∃ n, c.reads i = .moves n) ∧
    ∃ e, c.writes i = .fails e

/-- A write takes less than was read. -/
def WritesShort : Prop :=
  ∃ i, c.Reached (i + 1) ∧ ∃ m, c.writes i = .moves m ∧ m < c.offset (i + 1) - c.offset i

/-- A write before the `i`-th took less. -/
def ShortBefore (i : ℕ) : Prop :=
  ∃ j < i, ∃ m, c.writes j = .moves m ∧ m < c.offset (j + 1) - c.offset j

/-- What was written before the `i`-th read: all that was read, or less bytes than that. -/
def Written (i : ℕ) (l : List UInt8) : Prop :=
  (¬ c.ShortBefore i ∧ l = c.source.take (c.offset i)) ∨
    (c.ShortBefore i ∧ l.length < c.offset i)

variable {c} {i j : ℕ}

theorem offset_le : ∀ i, c.offset i ≤ c.source.length
  | 0 => Nat.zero_le _
  | i + 1 => by
    unfold offset
    split
    · exact min_le_right _ _
    · exact offset_le i

theorem offset_succ {n : ℕ} (h : c.reads i = .moves n) :
    c.offset (i + 1) = min (c.offset i + min (n + 1) sizeofBuf) c.source.length := by
  simp only [offset, h]

theorem offset_le_succ {n : ℕ} (h : c.reads i = .moves n) : c.offset i ≤ c.offset (i + 1) := by
  have hle := offset_le (c := c) i
  rw [offset_succ h]
  omega

theorem offset_lt_succ {n : ℕ} (h : c.reads i = .moves n) (hlt : c.offset i < c.source.length) :
    c.offset i < c.offset (i + 1) := by
  have hpos := sizeofBuf_pos
  rw [offset_succ h]
  omega

/-- What the `i`-th read gives. -/
theorem chunk_length {data : List UInt8} {n : ℕ} (h : c.reads i = .moves n)
    (hdata : data = (c.source.drop (c.offset i)).take (min (n + 1) sizeofBuf)) :
    data.length = c.offset (i + 1) - c.offset i := by
  rw [hdata, List.length_take, List.length_drop, offset_succ h]
  omega

theorem Reached.succ (h : c.Reached i) (hgo : c.Goes i) : c.Reached (i + 1) := by
  intro j hj
  rcases Nat.lt_succ_iff_lt_or_eq.mp hj with hj | rfl
  · exact h j hj
  · exact hgo

theorem Reached.mono (h : c.Reached i) (hj : j ≤ i) : c.Reached j :=
  fun k hk => h k (hk.trans_le hj)

/-- It does not come past where it ends. -/
theorem Reached.le (h : c.Reached j) (hstop : ¬ c.Goes i) : j ≤ i :=
  not_lt.mp fun hlt => hstop (h i hlt)

/-- It ends in one place. -/
theorem ends_once (hi : c.Reached i) (hj : c.Reached j) (hi' : ¬ c.Goes i) (hj' : ¬ c.Goes j) :
    j = i := le_antisymm (hj.le hi') (hi.le hj')

theorem not_moves {results : ℕ → Result} (h : ∃ e, results i = .fails e) :
    ¬ ∃ n, results i = .moves n := by
  obtain ⟨e, he⟩ := h
  rintro ⟨n, hn⟩
  exact nomatch he.symm.trans hn

theorem Written.length_le {l : List UInt8} (h : c.Written i l) : l.length ≤ c.offset i := by
  rcases h with ⟨-, rfl⟩ | ⟨-, hlt⟩
  · exact List.length_take_le _ _
  · exact hlt.le

/-- One more chunk. -/
theorem Written.chunk {l data : List UInt8} {n m : ℕ} (h : c.Written i l)
    (hread : c.reads i = .moves n) (hwrite : c.writes i = .moves m)
    (hdata : data = (c.source.drop (c.offset i)).take (min (n + 1) sizeofBuf)) :
    c.Written (i + 1) (l ++ data.take m) := by
  have hlen := chunk_length hread hdata
  have hle := offset_le_succ hread
  by_cases hshort : m < data.length
  · refine .inr ⟨⟨i, Nat.lt_succ_self i, m, hwrite, hlen ▸ hshort⟩, ?_⟩
    have hl := h.length_le
    rw [List.length_append, List.length_take]
    omega
  · have hsame : c.ShortBefore (i + 1) ↔ c.ShortBefore i := by
      constructor
      · rintro ⟨j, hj, m', hm', hlt⟩
        rcases Nat.lt_succ_iff_lt_or_eq.mp hj with hj | rfl
        · exact ⟨j, hj, m', hm', hlt⟩
        · obtain rfl : m = m' := Result.moves.inj (hwrite.symm.trans hm')
          exact absurd (hlen ▸ hlt) hshort
      · rintro ⟨j, hj, rest⟩
        exact ⟨j, hj.trans (Nat.lt_succ_self i), rest⟩
    rw [List.take_of_length_le (not_lt.mp hshort)]
    rcases h with ⟨hnone, rfl⟩ | ⟨hsome, hlt⟩
    · refine .inl ⟨mt hsame.mp hnone, ?_⟩
      have hadd : c.offset (i + 1) = c.offset i + data.length := by omega
      rw [hadd, List.take_add, hdata, List.length_take, ← List.take_eq_take_min]
    · refine .inr ⟨hsame.mpr hsome, ?_⟩
      rw [List.length_append]
      omega

theorem Written.eq_source_iff {l : List UInt8} (h : c.Written i l) :
    l = c.source ↔ c.offset i = c.source.length ∧ ¬ c.ShortBefore i := by
  have hle := offset_le (c := c) i
  constructor
  · rintro rfl
    have hlen := h.length_le
    rcases h with ⟨hnone, -⟩ | ⟨-, hlt⟩
    · exact ⟨le_antisymm hle hlen, hnone⟩
    · exact absurd hlt (not_lt.mpr hle)
  · rintro ⟨heq, hnone⟩
    rcases h with ⟨-, rfl⟩ | ⟨hsome, -⟩
    · rw [heq, List.take_length]
    · exact absurd hsome hnone

/-- A write that takes less comes before the loop ends. -/
theorem writesShort_iff (h : c.Reached i) (hstop : ¬ c.Goes i) :
    c.WritesShort ↔ c.ShortBefore i := by
  constructor
  · rintro ⟨j, hj, hshort⟩
    exact ⟨j, hj.le hstop, hshort⟩
  · rintro ⟨j, hj, hshort⟩
    exact ⟨j, h.mono hj, hshort⟩

/-! ## 4. The loop -/

/-- How the loop ends: the return code, the result of the last read, and what was written. -/
inductive Ends (c : HlScenario) : ℤ → ℤ → List UInt8 → Prop
  | atEnd {i n : ℕ} {l : List UInt8} : c.Reached i → c.offset i = c.source.length →
      c.reads i = .moves n → c.Written i l → Ends c 0 0 l
  | readFailed {i e : ℕ} {len : ℤ} {l : List UInt8} : c.Reached i → c.reads i = .fails e →
      len < 0 → c.Written i l → Ends c 0 len l
  | writeFailed {len : ℤ} {l : List UInt8} : c.WriteFails → 0 < len → Ends c (-1) len l

end HlScenario

open HlScenario

section Loop

variable {read : Call} {write : List UInt8 → Call} {failed : ℤ → Bool} {complain : ℤ → Message}
  {readFailed writeFailed : ℕ → ℤ}

/-- **The loop ends in one of three ways.** -/
theorem hlCopyLoop_ends (hread : ∀ w, hlCopying read w = w.read sizeofBuf readFailed)
    (hwrite : ∀ data w, hlCopying (write data) w = w.write data writeFailed)
    (hneg : ∀ e, readFailed e < 0) (hfailed : ∀ e, failed (writeFailed e) = true)
    (hfine : ∀ n : ℕ, failed n = false) {c : HlScenario} :
    ∀ (fuel i : ℕ) (s : Session HlCopying), s.world.toHlScenario = c →
      s.world.readCount = i → s.world.writeCount = i → s.world.taken = c.offset i →
      c.Reached i → c.Written i s.world.written → c.source.length - c.offset i < fuel →
      ∃ retval len t, hlCopyLoop hlCopying read write failed complain fuel 0 s =
          some (retval, len, t) ∧ t.world.toHlScenario = c ∧ Ends c retval len t.world.written
  | 0, _, _, _, _, _, _, _, _, hfuel => absurd hfuel (Nat.not_lt_zero _)
  | fuel + 1, i, s, hc, hreads, hwrites, htaken, hreached, hwritten, hfuel => by
    obtain ⟨w, hw⟩ : ∃ w, s.world = w := ⟨_, rfl⟩
    rw [hw] at hc hreads hwrites htaken hwritten
    unfold hlCopyLoop
    dsimp only [Session.call]
    rw [hw, hread]
    cases hres : w.reads w.readCount with
    | fails e =>
      have hcres : c.reads i = .fails e := by rw [← hc, ← hreads, hres]
      simp only [HlCopying.read, hres, if_neg (hneg e).not_gt]
      exact ⟨_, _, _, rfl, hc, .readFailed hreached hcres (hneg e) hwritten⟩
    | moves n =>
      have hcres : c.reads i = .moves n := by rw [← hc, ← hreads, hres]
      obtain ⟨data, hdata⟩ :
        ∃ data, data = (c.source.drop (c.offset i)).take (min (n + 1) sizeofBuf) := ⟨_, rfl⟩
      have hlen := chunk_length hcres hdata
      have hdo : w.read sizeofBuf readFailed = ({ ret := data.length, data := data },
          { w with readCount := i + 1, taken := c.offset i + data.length }) := by
        rw [hreads] at hres
        simp only [HlCopying.read, hreads, hres, htaken, hdata, ← hc]
      rw [hdo]
      have hle := offset_le (c := c) i
      have hle' := offset_le (c := c) (i + 1)
      by_cases hended : c.offset i = c.source.length
      · have hzero : data.length = 0 := by omega
        rw [if_neg (by simp [hzero])]
        exact ⟨_, _, _, rfl, hc, by simpa [hzero] using .atEnd hreached hended hcres hwritten⟩
      · have hlt : c.offset i < c.source.length := lt_of_le_of_ne hle hended
        have hsucc := offset_lt_succ hcres hlt
        have hpos : (0 : ℤ) < data.length := by omega
        rw [if_pos hpos]
        dsimp only
        rw [Int.toNat_natCast, List.take_length, hwrite]
        cases hres' : w.writes w.writeCount with
        | fails e =>
          have hcres' : c.writes i = .fails e := by rw [← hc, ← hwrites, hres']
          simp only [HlCopying.write, hres', hfailed, if_true]
          exact ⟨_, _, _, rfl, hc, .writeFailed ⟨i, hreached, hlt, ⟨n, hcres⟩, e, hcres'⟩ hpos⟩
        | moves m =>
          have hcres' : c.writes i = .moves m := by rw [← hc, ← hwrites, hres']
          simp only [HlCopying.write, hres', hfine, Bool.false_eq_true, if_false]
          have hoffset : c.offset i + data.length = c.offset (i + 1) := by omega
          exact hlCopyLoop_ends hread hwrite hneg hfailed hfine fuel (i + 1) _ hc rfl
            (by rw [hwrites]) hoffset (hreached.succ ⟨hlt, ⟨n, hcres⟩, m, hcres'⟩)
            (hwritten.chunk hcres hcres' hdata) (by omega)

end Loop

namespace HlScenario

variable {c : HlScenario} {i : ℕ} {retval len : ℤ} {l : List UInt8}

/-- Where a read fails or the source has ended, no write fails. -/
theorem not_writeFails (h : c.Reached i)
    (hstop : ¬ (c.offset i < c.source.length ∧ ∃ n, c.reads i = .moves n)) : ¬ c.WriteFails := by
  rintro ⟨j, hj, hlt, hread, hwrite⟩
  obtain rfl : j = i :=
    ends_once h hj (fun hgo => hstop ⟨hgo.1, hgo.2.1⟩) fun hgo => not_moves hwrite hgo.2.2
  exact hstop ⟨hlt, hread⟩

/-- After the loop of `copyto`, 0 is right when a write failed or nothing was lost. -/
theorem Ends.copyto_iff (h : c.Ends retval len l) : (retval = 0 → l = c.source) ↔
    c.WriteFails ∨ ¬ c.ReadFailsEarly ∧ ¬ c.WritesShort := by
  cases h with
  | @atEnd i n l hreached hend hres hwritten =>
    have hstop : ¬ c.Goes i := fun hgo => hgo.1.ne hend
    have hnone : ¬ c.WriteFails := not_writeFails hreached fun hgo => hgo.1.ne hend
    have hearly : ¬ c.ReadFailsEarly := by
      rintro ⟨j, hj, hlt, hread⟩
      obtain rfl := ends_once hreached hj hstop fun hgo => not_moves hread hgo.2.1
      exact hlt.ne hend
    rw [hwritten.eq_source_iff, writesShort_iff hreached hstop]
    simp only [hend, hnone, hearly, true_imp_iff, true_and, false_or, not_false_iff]
  | @readFailed i e len l hreached hres hlen hwritten =>
    have hstop : ¬ c.Goes i := fun hgo => not_moves ⟨e, hres⟩ hgo.2.1
    have hnone : ¬ c.WriteFails := not_writeFails hreached fun hgo => not_moves ⟨e, hres⟩ hgo.2
    have hearly : c.ReadFailsEarly ↔ c.offset i < c.source.length := by
      constructor
      · rintro ⟨j, hj, hlt, hread⟩
        obtain rfl := ends_once hreached hj hstop fun hgo => not_moves hread hgo.2.1
        exact hlt
      · intro hlt
        exact ⟨i, hreached, hlt, e, hres⟩
    have hle := offset_le (c := c) i
    rw [hwritten.eq_source_iff, writesShort_iff hreached hstop, hearly, not_lt,
      or_iff_right hnone, forall_prop_of_true rfl]
    exact and_congr_left' ⟨fun heq => heq.ge, fun hge => le_antisymm hle hge⟩
  | writeFailed hfails hlen => exact ⟨fun _ => .inl hfails, fun _ h0 => absurd h0 (by decide)⟩

/-- After that of `copyfrom`, also when a read failed. -/
theorem Ends.copyfrom_iff (h : c.Ends retval len l) :
    ((if len < 0 then -1 else retval) = 0 → l = c.source) ↔
      c.WriteFails ∨ c.ReadFails ∨ ¬ c.WritesShort := by
  cases h with
  | @atEnd i n l hreached hend hres hwritten =>
    have hstop : ¬ c.Goes i := fun hgo => hgo.1.ne hend
    have hnone : ¬ c.WriteFails := not_writeFails hreached fun hgo => hgo.1.ne hend
    have hread : ¬ c.ReadFails := by
      rintro ⟨j, hj, hread⟩
      obtain rfl := ends_once hreached hj hstop fun hgo => not_moves hread hgo.2.1
      exact not_moves hread ⟨n, hres⟩
    rw [if_neg (by decide), hwritten.eq_source_iff, writesShort_iff hreached hstop]
    simp only [hend, hnone, hread, true_imp_iff, true_and, false_or]
  | @readFailed i e len l hreached hres hlen hwritten =>
    rw [if_pos hlen]
    exact ⟨fun _ => .inr (.inl ⟨i, hreached, e, hres⟩), fun _ h0 => absurd h0 (by decide)⟩
  | writeFailed hfails hlen =>
    rw [if_neg hlen.not_gt]
    exact ⟨fun _ => .inl hfails, fun _ h0 => absurd h0 (by decide)⟩

end HlScenario

/-! ## 5. What a result of 0 means -/

/-- Before the copy. -/
def HlScenario.start (c : HlScenario) : HlCopying := { c with }

section Reports

variable {c : HlScenario} {s : Session HlCopying} {P : Prop}

/-- It ends, and a return code of 0 means that the source was written exactly when `P` holds. -/
def Reports (c : HlScenario) (P : Prop) (o : Outcome HlCopying) : Prop :=
  ∃ r t, o = some (r, t) ∧ t.world.toHlScenario = c ∧ ((r = 0 → t.world.written = c.source) ↔ P)

/-- When a step failed, the code is -1, which means nothing. -/
theorem Reports.of_failed {t : Session HlCopying} (hc : t.world.toHlScenario = c) (hP : P) :
    Reports c P (some (-1, t)) :=
  ⟨-1, t, rfl, hc, fun _ => hP, fun _ h0 => absurd h0 (by decide)⟩

theorem Reports.withFile {path : CStr} {flags mode : ℕ} {failed : CStr → ℤ → Message}
    {body : ℤ → Session HlCopying → Outcome HlCopying} (hs : s.world.toHlScenario = c)
    (hbody : ∀ t, t.world = s.world → Reports c P (body c.opens t)) :
    Reports c (0 ≤ c.opens → 0 ≤ c.closes → P)
      (withFile hlCopying path flags mode failed body s) := by
  obtain ⟨s₁, hcall, hs₁⟩ := Session.call_world (s := s)
    (show hlCopying (.open path flags mode) s.world = ({ ret := s.world.opens }, s.world) from rfl)
  have hopens : s.world.opens = c.opens := by rw [← hs]
  unfold Shell.withFile
  simp only [hcall, hopens]
  split
  case isTrue hfh =>
    obtain ⟨r, t, hrun, hc, hP⟩ := hbody s₁ hs₁
    rw [hrun, Option.map_some]
    obtain ⟨s₃, hcall₃, hs₃⟩ := Session.call_world (s := t)
      (show hlCopying (.close c.opens) t.world = ({ ret := t.world.closes }, t.world) from rfl)
    have hcloses : t.world.closes = c.closes := by rw [← hc]
    simp only [hcall₃, hcloses]
    split
    case isTrue hneg =>
      exact .of_failed (hs₃ ▸ hc) fun _ hge => absurd hge (not_le.mpr hneg)
    case isFalse hge =>
      refine ⟨r, s₃, rfl, hs₃ ▸ hc, ?_⟩
      rw [hs₃, hP]
      exact ⟨fun h _ _ => h, fun h => h hfh (not_lt.mp hge)⟩
  case isFalse hneg =>
    exact .of_failed (hs₁ ▸ hs) fun hge => absurd hge hneg

theorem Reports.withMount {mountPoint : CStr} {body : Session HlCopying → Outcome HlCopying}
    (hs : s.world.toHlScenario = c)
    (hbody : 0 ≤ c.mounts → ∀ t, t.world = s.world → Reports c P (body t)) :
    Reports c (0 ≤ c.mounts → 0 ≤ c.umounts → P) (withMount hlCopying mountPoint body s) := by
  obtain ⟨s₁, hcall, hs₁⟩ := Session.call_world (s := s)
    (show hlCopying (.mount pfs mountPoint 0) s.world = ({ ret := s.world.mounts }, s.world)
      from rfl)
  have hmounts : s.world.mounts = c.mounts := by rw [← hs]
  unfold Shell.withMount
  simp only [hcall, hmounts]
  split
  case isTrue hret =>
    obtain ⟨r, t, hrun, hc, hP⟩ := hbody hret s₁ hs₁
    rw [hrun, Option.map_some]
    obtain ⟨s₃, hcall₃, hs₃⟩ := Session.call_world (s := t)
      (show hlCopying (.umount pfs) t.world = ({ ret := t.world.umounts }, t.world) from rfl)
    have humounts : t.world.umounts = c.umounts := by rw [← hc]
    simp only [hcall₃, humounts]
    split
    case isTrue hneg =>
      exact .of_failed (hs₃ ▸ hc) fun _ hge => absurd hge (not_le.mpr hneg)
    case isFalse hge =>
      refine ⟨r, s₃, rfl, hs₃ ▸ hc, ?_⟩
      rw [hs₃, hP]
      exact ⟨fun h _ _ => h, fun h => h hret (not_lt.mp hge)⟩
  case isFalse hneg =>
    exact .of_failed (hs₁ ▸ hs) fun hge => absurd hge hneg

/-- The loop starts with nothing read and nothing written. -/
theorem hlCopyLoop_start {read : Call} {write : List UInt8 → Call} {failed : ℤ → Bool}
    {complain : ℤ → Message} {readFailed writeFailed : ℕ → ℤ}
    (hread : ∀ w, hlCopying read w = w.read sizeofBuf readFailed)
    (hwrite : ∀ data w, hlCopying (write data) w = w.write data writeFailed)
    (hneg : ∀ e, readFailed e < 0) (hfailed : ∀ e, failed (writeFailed e) = true)
    (hfine : ∀ n : ℕ, failed n = false) {fuel : ℕ} (hfuel : c.source.length < fuel)
    (hs : s.world = c.start) :
    ∃ retval len t, hlCopyLoop hlCopying read write failed complain fuel 0 s =
      some (retval, len, t) ∧ t.world.toHlScenario = c ∧ c.Ends retval len t.world.written := by
  have hnone : ¬ c.ShortBefore 0 := by
    rintro ⟨j, hj, -⟩
    exact absurd hj (Nat.not_lt_zero j)
  refine hlCopyLoop_ends hread hwrite hneg hfailed hfine fuel 0 s ?_ ?_ ?_ ?_ ?_ ?_ ?_
  · rw [hs]
    rfl
  · rw [hs]
    rfl
  · rw [hs]
    rfl
  · rw [hs]
    rfl
  · intro j hj
    exact absurd hj (Nat.not_lt_zero j)
  · rw [hs]
    exact .inl ⟨hnone, rfl⟩
  · exact hfuel

variable {fuel fd : ℕ} {mountPoint dest src : CStr}

theorem hostOpen_world {path : CStr} {flags mode : ℕ} (hs : s.world = c.start) :
    ∃ t, s.call hlCopying (.hostOpen path flags mode) =
      ({ ret := c.hostOpens.elim (-1) (↑) }, t) ∧ t.world = c.start := by
  obtain ⟨t, hcall, ht⟩ := Session.call_world (s := s)
    (show hlCopying (.hostOpen path flags mode) s.world =
      ({ ret := s.world.hostOpens.elim (-1) (↑) }, s.world) from rfl)
  rw [hs] at hcall
  exact ⟨t, hcall, ht.trans hs⟩

/-- `copyto` does not look at what the host's `close` returns. -/
theorem Reports.hostClose {o : Outcome HlCopying} {fd : ℤ} (h : Reports c P o) :
    Reports c P (o.map fun r => (r.1, (r.2.call hlCopying (.hostClose fd)).2)) := by
  obtain ⟨r, t, hrun, hc, hP⟩ := h
  rw [hrun, Option.map_some]
  exact ⟨r, _, rfl, hc, hP⟩

/-- `copyfrom` does. -/
theorem Reports.hostClose_checked {o : Outcome HlCopying} {fd : ℤ} {m : Message}
    (h : Reports c P o) : Reports c (c.hostCloses ≠ -1 → P)
      (o.map fun r =>
        if (r.2.call hlCopying (.hostClose fd)).1.ret = -1 then
          (-1, (r.2.call hlCopying (.hostClose fd)).2.say m)
        else (r.1, (r.2.call hlCopying (.hostClose fd)).2)) := by
  obtain ⟨r, t, hrun, hc, hP⟩ := h
  have hcloses : (t.call hlCopying (.hostClose fd)).1.ret = c.hostCloses := by
    rw [← hc]
    rfl
  rw [hrun, Option.map_some, hcloses]
  split
  case isTrue hfail => exact .of_failed hc fun hne => absurd hfail hne
  case isFalse hne => exact ⟨r, _, rfl, hc, hP.trans ⟨fun h _ => h, fun h => h hne⟩⟩

theorem copyto_reports (hopen : c.hostOpens = some fd)
    (hfits : 0 ≤ c.mounts → (pfs ++ dest).length < 256) (hs : s.world = c.start)
    (hfuel : c.source.length < fuel) :
    Reports c (0 ≤ c.mounts → 0 ≤ c.umounts → 0 ≤ c.opens → 0 ≤ c.closes →
        c.WriteFails ∨ ¬ c.ReadFailsEarly ∧ ¬ c.WritesShort)
      (copyto hlCopying fuel mountPoint dest src s) := by
  obtain ⟨s₁, hcall, hs₁⟩ : ∃ t, s.call hlCopying (.hostOpen src oRdonly 0) = _ ∧ _ :=
    hostOpen_world hs
  rw [hopen, Option.elim_some] at hcall
  have hne : (fd : ℤ) ≠ -1 := by omega
  have hc₁ : s₁.world.toHlScenario = c := by rw [hs₁]; rfl
  unfold copyto
  simp only [hcall, if_pos hne]
  refine .hostClose (.withMount hc₁ fun hmounts s₂ hs₂ => ?_)
  rw [buffer, if_pos (hfits hmounts), Option.bind_some]
  have hc₂ : s₂.world.toHlScenario = c := hs₂ ▸ hc₁
  refine .withFile hc₂ fun s₃ hs₃ => ?_
  obtain ⟨retval, len, t, hrun, hc, hends⟩ : ∃ retval len t,
      hlCopyLoop hlCopying (.hostRead fd sizeofBuf) (.write c.opens) (fun result => result < 0)
        (.writeFailed (pfs ++ dest)) fuel 0 s₃ = some (retval, len, t) ∧ _ :=
    hlCopyLoop_start (fun _ => rfl) (fun _ _ => rfl) (fun _ => by decide)
      (fun e => decide_eq_true (Int.negSucc_lt_zero e))
      (fun n => decide_eq_false (Int.natCast_nonneg n).not_gt) hfuel
      (hs₃.trans (hs₂.trans hs₁))
  rw [hrun, Option.map_some]
  have hsaid : (if len < 0 then t.say (.perror src) else t).world = t.world := by split <;> rfl
  exact ⟨retval, _, rfl, hsaid ▸ hc, hsaid ▸ hends.copyto_iff⟩

theorem copyfrom_reports (hopen : c.hostOpens = some fd)
    (hfits : 0 ≤ c.mounts → (pfs ++ src).length < 256) (hs : s.world = c.start)
    (hfuel : c.source.length < fuel) :
    Reports c (c.hostCloses ≠ -1 → 0 ≤ c.mounts → 0 ≤ c.umounts → 0 ≤ c.opens → 0 ≤ c.closes →
        c.WriteFails ∨ c.ReadFails ∨ ¬ c.WritesShort)
      (copyfrom hlCopying fuel mountPoint src dest s) := by
  obtain ⟨s₁, hcall, hs₁⟩ :
      ∃ t, s.call hlCopying (.hostOpen dest (oCreat ||| oWronly) 0o664) = _ ∧ _ := hostOpen_world hs
  rw [hopen, Option.elim_some] at hcall
  have hne : (fd : ℤ) ≠ -1 := by omega
  have hc₁ : s₁.world.toHlScenario = c := by rw [hs₁]; rfl
  unfold copyfrom
  simp only [hcall, if_pos hne]
  refine .hostClose_checked (.withMount hc₁ fun hmounts s₂ hs₂ => ?_)
  rw [buffer, if_pos (hfits hmounts), Option.bind_some]
  have hc₂ : s₂.world.toHlScenario = c := hs₂ ▸ hc₁
  refine .withFile hc₂ fun s₃ hs₃ => ?_
  obtain ⟨retval, len, t, hrun, hc, hends⟩ : ∃ retval len t,
      hlCopyLoop hlCopying (.read c.opens sizeofBuf) (.hostWrite fd) (fun result => result = -1)
        (fun _ => .perror dest) fuel 0 s₃ = some (retval, len, t) ∧ _ :=
    hlCopyLoop_start (fun _ => rfl) (fun _ _ => rfl) Int.negSucc_lt_zero
      (fun _ => decide_eq_true rfl) (fun n => decide_eq_false (by omega)) hfuel
      (hs₃.trans (hs₂.trans hs₁))
  rw [hrun, Option.map_some]
  have hP := hends.copyfrom_iff
  by_cases hlen : len < 0
  · simp only [if_pos hlen] at hP ⊢
    exact ⟨-1, _, rfl, hc, hP⟩
  · simp only [if_neg hlen] at hP ⊢
    exact ⟨retval, _, rfl, hc, hP⟩

/-- The copy ends and has given back what it took, and 0 is only returned with the whole source
written. -/
def Sound (c : HlScenario) (s : Session HlCopying) (o : Outcome HlCopying) : Prop :=
  ∃ r t news, o = some (r, t) ∧ t.calls = s.calls ++ news ∧ Released 1 news ∧
    (r = 0 → t.world.written = c.source)

/-- The calls around the loop succeed. -/
def HlScenario.Succeeds (c : HlScenario) : Prop :=
  c.hostOpens ≠ none ∧ 0 ≤ c.mounts ∧ 0 ≤ c.opens ∧ 0 ≤ c.closes ∧ 0 ≤ c.umounts

theorem Reports.sound_iff {body : Session HlCopying → Outcome HlCopying} (h : Reports c P (body s))
    (hbody : Releases 1 body) : Sound c s (body s) ↔ P := by
  obtain ⟨r, t, hrun, -, hP⟩ := h
  obtain ⟨news, hnews, hrel⟩ := hbody s _ hrun
  rw [← hP]
  constructor
  · rintro ⟨r', t', -, hrun', -, -, h0⟩
    cases hrun.symm.trans hrun'
    exact h0
  · intro h0
    exact ⟨r, t, news, hrun, hnews, hrel, h0⟩

/-- The name fits into the buffer of 256 bytes, if it comes to that. -/
def HlScenario.Fits (c : HlScenario) (name : CStr) : Prop :=
  c.hostOpens ≠ none → 0 ≤ c.mounts → (pfs ++ name).length < 256

theorem sound_of_not_open {body : Session HlCopying → Outcome HlCopying} {t : Session HlCopying}
    (hrun : body s = some (-1, t)) (hbody : Releases 1 body) : Sound c s (body s) := by
  obtain ⟨news, hnews, hrel⟩ := hbody s _ hrun
  exact ⟨-1, t, news, hrun, hnews, hrel, fun h0 => absurd h0 (by decide)⟩

/-- The partition is mounted, and what follows overruns its buffer. -/
theorem withMount_overrun {name : CStr} {next : CStr → Session HlCopying → Outcome HlCopying}
    (hs : s.world = c.start) (hmounts : 0 ≤ c.mounts) (hlong : ¬ (pfs ++ name).length < 256) :
    withMount hlCopying mountPoint (fun s => (buffer 256 (pfs ++ name)).bind fun path =>
      next path s) s = none := by
  have hret : (s.call hlCopying (.mount pfs mountPoint 0)).1.ret = c.mounts := by
    rw [Session.call, hs]
    rfl
  simp only [withMount, hret, if_pos hmounts, buffer, if_neg hlong, Option.bind_none,
    Option.map_none]

theorem HlScenario.not_fits {name : CStr} (h : ¬ c.Fits name) :
    0 ≤ c.mounts ∧ ¬ (pfs ++ name).length < 256 := by
  simp only [HlScenario.Fits, Classical.not_imp] at h
  exact h.2

theorem not_sound_of_overrun {o : Outcome HlCopying} (ho : o = none) : ¬ Sound c s o := by
  rintro ⟨r, t, -, hrun, -⟩
  exact nomatch ho.symm.trans hrun

/-- **copyto**: what its result says is true unless the calls around the loop succeed, and a read
fails or a write takes less. -/
theorem copyto_sound_iff (hs : s.world = c.start) (hfuel : c.source.length < fuel) :
    Sound c s (copyto hlCopying fuel mountPoint dest src s) ↔ c.Fits dest ∧
      (c.Succeeds → c.WriteFails ∨ ¬ c.ReadFailsEarly ∧ ¬ c.WritesShort) := by
  obtain ⟨s₁, hcall, hs₁⟩ : ∃ t, s.call hlCopying (.hostOpen src oRdonly 0) = _ ∧ _ :=
    hostOpen_world hs
  cases hopen : c.hostOpens with
  | none =>
    rw [hopen, Option.elim_none] at hcall
    have hrun : copyto hlCopying fuel mountPoint dest src s = some (-1, s₁.say (.perror src)) := by
      simp only [copyto, hcall, ne_eq, not_true_eq_false, if_false]
    refine iff_of_true (sound_of_not_open hrun releases_copyto) ⟨?_, ?_⟩
    · exact fun h => absurd hopen h
    · exact fun h => absurd hopen h.1
  | some fd =>
    have hsome : c.hostOpens ≠ none := hopen ▸ Option.some_ne_none fd
    by_cases hfits : c.Fits dest
    · rw [(copyto_reports hopen (hfits hsome) hs hfuel).sound_iff releases_copyto]
      constructor
      · intro h
        exact ⟨hfits, fun ⟨_, hm, ho, hc, hu⟩ => h hm hu ho hc⟩
      · intro h hm hu ho hc
        exact h.2 ⟨hsome, hm, ho, hc, hu⟩
    · obtain ⟨hmounts, hlong⟩ := c.not_fits hfits
      rw [hopen, Option.elim_some] at hcall
      have hne : (fd : ℤ) ≠ -1 := by omega
      have hrun : copyto hlCopying fuel mountPoint dest src s = none := by
        simp only [copyto, hcall, if_pos hne, withMount_overrun hs₁ hmounts hlong,
          Option.map_none]
      exact iff_of_false (not_sound_of_overrun hrun) fun h => hfits h.1

/-- **copyfrom** returns what became of the reads, but a write that takes less goes unnoticed. -/
theorem copyfrom_sound_iff (hs : s.world = c.start) (hfuel : c.source.length < fuel) :
    Sound c s (copyfrom hlCopying fuel mountPoint src dest s) ↔ c.Fits src ∧
      (c.Succeeds → c.hostCloses ≠ -1 → c.WriteFails ∨ c.ReadFails ∨ ¬ c.WritesShort) := by
  obtain ⟨s₁, hcall, hs₁⟩ :
      ∃ t, s.call hlCopying (.hostOpen dest (oCreat ||| oWronly) 0o664) = _ ∧ _ := hostOpen_world hs
  cases hopen : c.hostOpens with
  | none =>
    rw [hopen, Option.elim_none] at hcall
    have hrun : copyfrom hlCopying fuel mountPoint src dest s =
        some (-1, s₁.say (.perror dest)) := by
      simp only [copyfrom, hcall, ne_eq, not_true_eq_false, if_false]
    refine iff_of_true (sound_of_not_open hrun releases_copyfrom) ⟨?_, ?_⟩
    · exact fun h => absurd hopen h
    · exact fun h => absurd hopen h.1
  | some fd =>
    have hsome : c.hostOpens ≠ none := hopen ▸ Option.some_ne_none fd
    by_cases hfits : c.Fits src
    · rw [(copyfrom_reports hopen (hfits hsome) hs hfuel).sound_iff releases_copyfrom]
      constructor
      · intro h
        exact ⟨hfits, fun ⟨_, hm, ho, hc, hu⟩ hh => h hh hm hu ho hc⟩
      · intro h hh hm hu ho hc
        exact h.2 ⟨hsome, hm, ho, hc, hu⟩ hh
    · obtain ⟨hmounts, hlong⟩ := c.not_fits hfits
      rw [hopen, Option.elim_some] at hcall
      have hne : (fd : ℤ) ≠ -1 := by omega
      have hrun : copyfrom hlCopying fuel mountPoint src dest s = none := by
        simp only [copyfrom, hcall, if_pos hne, withMount_overrun hs₁ hmounts hlong,
          Option.map_none]
      exact iff_of_false (not_sound_of_overrun hrun) fun h => hfits h.1

/-- **When the copies of `hl.c` are sound.** -/
theorem hostCopies_sound_iff (hs : s.world = c.start) (hfuel : c.source.length < fuel) :
    (Sound c s (copyto hlCopying fuel mountPoint dest src s) ↔ c.Fits dest ∧
      (c.Succeeds → c.WriteFails ∨ ¬ c.ReadFailsEarly ∧ ¬ c.WritesShort)) ∧
    (Sound c s (copyfrom hlCopying fuel mountPoint src dest s) ↔ c.Fits src ∧
      (c.Succeeds → c.hostCloses ≠ -1 → c.WriteFails ∨ c.ReadFails ∨ ¬ c.WritesShort)) :=
  ⟨copyto_sound_iff hs hfuel, copyfrom_sound_iff hs hfuel⟩

/-- Two bytes, and every call does all it is asked to. -/
def hlTwoBytes : HlScenario := { source := [1, 2] }

theorem hostCopies_sound_two :
    Sound hlTwoBytes { world := hlTwoBytes.start }
        (copyto hlCopying 3 [] (ascii ['f']) [] { world := hlTwoBytes.start }) ∧
      Sound hlTwoBytes { world := hlTwoBytes.start }
        (copyfrom hlCopying 3 [] (ascii ['f']) [] { world := hlTwoBytes.start }) := by
  have hfine : ¬ hlTwoBytes.ReadFailsEarly ∧ ¬ hlTwoBytes.WritesShort := by
    refine ⟨?_, ?_⟩
    · rintro ⟨i, -, -, e, he⟩
      exact nomatch he
    · rintro ⟨i, -, m, hm, hlt⟩
      have hle := HlScenario.offset_le (c := hlTwoBytes) (i + 1)
      obtain rfl : 2 ^ 20 = m := Result.moves.inj hm
      exact absurd (hlt.trans_le ((Nat.sub_le _ _).trans hle)) (by decide)
  have hfits : hlTwoBytes.Fits (ascii ['f']) := fun _ _ => by decide
  exact ⟨(hostCopies_sound_iff rfl (by decide)).1.mpr ⟨hfits, fun _ => .inr hfine⟩,
    (hostCopies_sound_iff rfl (by decide)).2.mpr ⟨hfits, fun _ _ => .inr (.inr hfine.2)⟩⟩

/-- One byte, and the read fails. -/
def hlReadError : HlScenario := { source := [1], reads := fun _ => .fails 5 }

/-- Two bytes, and the write takes one of them. -/
def hlShortWrite : HlScenario := { source := [1, 2], writes := fun _ => .moves 1 }

/-- **Zero, and nothing or not everything was written.** -/
theorem hostCopies_unsound :
    (∃ t, copyto hlCopying 2 [] (ascii ['f']) [] { world := hlReadError.start } = some (0, t) ∧
      t.world.written = []) ∧
    (∃ t, copyto hlCopying 3 [] (ascii ['f']) [] { world := hlShortWrite.start } = some (0, t) ∧
      t.world.written = [1]) ∧
    ∃ t, copyfrom hlCopying 3 [] (ascii ['f']) [] { world := hlShortWrite.start } = some (0, t) ∧
      t.world.written = [1] :=
  ⟨⟨_, rfl, rfl⟩, ⟨_, rfl, rfl⟩, ⟨_, rfl, rfl⟩⟩

end Reports

end PfsShell.Shell
