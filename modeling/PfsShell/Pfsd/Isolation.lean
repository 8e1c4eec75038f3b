/-
# Which paths and descriptors a client can reach

A path that a client sends is translated under one of its own slots, or passed on as it is
when it begins with no slot's container.  That keeps a client away from the others' units as
long as a container is the name of its unit, which ends at its first colon.  iomanX reads a
name up to that colon only, and a MOUNT that it accepts under the client's own `fsname` stores
that name with whatever follows the colon; the comparison with the container then misses the
names that go on otherwise (`isolated_fails`).  `MountsWholeUnits` is the condition that this
does not happen.

The name that is translated is passed on as the translation left it, unless another translation
goes over it: `rpc_remap_name` writes without looking at the room there is, and the two names of
RENAME and SYMLINK lie one behind the other in the packet.  When the first one's translation has
1024 bytes or more, iomanX is asked for its end as the second name, which no translation has seen
(`isolated_overrun`).  `Request.HasRoom` is the condition that no name is too long for its memory.

A descriptor is passed on when the client has an entry for it.  That it then is one the client
opened and has not closed is a matter of counting: what the record of calls holds of opens and
closes of a descriptor covers the entries of the table (`Balanced`).
-/
import PfsShell.Pfsd.Iomanx
import PfsShell.Pfsd.Packet
import PfsShell.Pfsd.Slots

namespace PfsShell.Pfsd

open PfsShell.Lib

/-! ## 1. Units -/

/-- A unit begins every path it serves. -/
theorem prefix_of_unitOf {path u : CStr} (h : unitOf path = some u) : u <+: path := by
  unfold unitOf at h
  split at h
  · rename_i hcolon
    obtain rfl := Option.some.inj h
    exact cutAt_concat_prefix hcolon
  · cases h

/-- Below the name of a unit there is only that unit. -/
theorem unitOf_append {c : CStr} (h : unitOf c = some c) (r : CStr) :
    unitOf (c ++ r) = some c := by
  have hcolon : 58 ∈ c := by
    by_contra hno
    simp [unitOf, hno] at h
  rw [unitOf, if_pos hcolon] at h
  rw [unitOf, if_pos (List.mem_append_left _ hcolon), cutAt_append_of_mem r hcolon]
  exact h

theorem unitOf_pfsUnit {i : ℕ} (hi : i < 32) : unitOf (pfsUnit i) = some (pfsUnit i) := by
  revert i
  decide

variable {σ : Type} {io : IomanX σ} {s s' t : Daemon σ}

/-! ## 2. What a request passes to iomanX -/

theorem openCommon_calls (io : IomanX σ) (mk : CStr → Call) (name : CStr) (p : CInt)
    (s : Daemon σ) : (openCommon io mk name p s).2.calls = s.calls ∨
      ∃ ret, (openCommon io mk name p s).2.calls =
        s.calls ++ [⟨p, mk (s.rpcRemapName name p), ret⟩] := by
  rcases openCommon_cases io mk name p s with ⟨-, heq⟩ | ⟨-, -, heq⟩ | ⟨-, -, -, -, hc, -⟩
  · exact .inl (by rw [heq]; rfl)
  · exact .inr ⟨_, by rw [heq]; rfl⟩
  · exact .inr ⟨_, hc⟩

/-- A MOUNT makes mount calls only. -/
theorem rpcCommandMount_calls (io : IomanX σ) (fsname devname : CStr)
    (flag useshm arglen p : CInt) (s : Daemon σ) :
    ∃ news, (rpcCommandMount io fsname devname flag useshm arglen p s).2.calls = s.calls ++ news ∧
      ∀ r ∈ news, r.pid = p ∧ ∃ f d flag arg len, r.call = .scepfsMount f d flag arg len := by
  have hsteps := mountSteps_mountDevice io fsname (cutAt 44 devname) flag useshm arglen p s
  have hcalls : ∀ {ret buf t}, mountDevice io fsname (cutAt 44 devname) flag useshm arglen p s
      = ((ret, buf), t) → ∃ news, t.calls = s.calls ++ news ∧
        ∀ r ∈ news, r.pid = p ∧ ∃ f d flag arg len, r.call = .scepfsMount f d flag arg len := by
    intro ret buf t hm
    rw [hm] at hsteps
    obtain ⟨news, hc, hnews⟩ := hsteps.calls
    refine ⟨news, hc, fun r hr => ?_⟩
    obtain ⟨hp, f, flag, arg, len, hcall⟩ := hnews r hr
    exact ⟨hp, f, _, flag, arg, len, hcall⟩
  rcases rpcCommandMount_cases io fsname devname flag useshm arglen p s with
    ⟨ret, buf, t, -, -, hm, heq⟩ | ⟨buf, t, -, -, -, hm, heq⟩
  · rw [heq]
    rcases hm with rfl | hm
    · exact ⟨[], by simp [writeRpcret, writeSocket]⟩
    · obtain ⟨news, hc, hnews⟩ := hcalls hm
      exact ⟨news, hc, hnews⟩
  · rw [heq]
    obtain ⟨news, hc, hnews⟩ := hcalls hm
    exact ⟨news, hc, hnews⟩

theorem scepfsSetReadAhead_calls (io : IomanX σ) (enabled p : CInt) (s : Daemon σ) :
    ∃ news, (scepfsSetReadAhead io enabled p s).2.calls = s.calls ++ news ∧
      ∀ r ∈ news, r.pid = p ∧ (r.call = .ioctlBlkraget ∨ r.call = .ioctlBlkraset enabled) := by
  simp only [scepfsSetReadAhead]
  split
  · refine ⟨_, List.append_assoc _ _ _, ?_⟩
    rintro r (_ | ⟨_, _ | ⟨_, ⟨⟩⟩⟩)
    · exact ⟨rfl, .inl rfl⟩
    · exact ⟨rfl, .inr rfl⟩
  · refine ⟨_, (List.append_assoc _ _ _).trans (List.append_assoc _ _ _), ?_⟩
    rintro r (_ | ⟨_, _ | ⟨_, _ | ⟨_, ⟨⟩⟩⟩⟩)
    · exact ⟨rfl, .inl rfl⟩
    · exact ⟨rfl, .inr rfl⟩
    · exact ⟨rfl, .inl rfl⟩

/-- The names of a request that are translated, each with the bytes there are for it: those of
`name_buf`, or those of the packet up to the next name or to its end. -/
def Request.rooms : Request → List (CStr × ℕ)
  | .pfsdReqOpen n _ _ | .pfsdReqDopen n => [(n, 1200)]
  | .pfsdReqChstat n _ _ | .pfsdReqGetstat n _ | .pfsdReqMkdir n _ | .pfsdReqRmdir n
  | .pfsdReqChdir n | .pfsdReqRemove n | .pfsdReqReadlink n _ _ | .pfsdReqSync n _
  | .pfsdReqDevctl n _ _ _ _ _ => [(n, opuSize)]
  | .pfsdReqRename old new | .pfsdReqSymlink old new => [(old, 1024), (new, opuSize - 1024)]
  | _ => []

/-- Every name and its translation, with the NUL, have room. -/
def Request.HasRoom (t : Tables) (p : CInt) (req : Request) : Prop :=
  ∀ x ∈ req.rooms, x.1.length < x.2 ∧ (t.rpcRemapName x.1 p).length < x.2

instance (t : Tables) (p : CInt) (req : Request) : Decidable (req.HasRoom t p) :=
  inferInstanceAs (Decidable (∀ x ∈ req.rooms, _ ∧ _))

theorem PairCall.rooms {req : Request} {old new : CStr} {mk : CStr → CStr → Call}
    (h : PairCall req old new mk) : (old, 1024) ∈ req.rooms := by
  cases h <;> exact List.mem_cons_self

theorem remapped_pair {t : Tables} {p : CInt} {req : Request} {old new : CStr}
    {mk : CStr → CStr → Call} (hpair : PairCall req old new mk) (hroom : req.HasRoom t p)
    (oldFirst : Bool) : (mk (t.rpcRemapNames oldFirst old new p).1
      (t.rpcRemapNames oldFirst old new p).2).Remapped t p := by
  obtain ⟨hold, hshort⟩ := hroom _ hpair.rooms
  rw [Tables.rpcRemapNames_of_short hold hshort]
  refine ⟨fun path hpath => ?_, fun fd hfd => ?_⟩
  · rw [hpair.paths] at hpath
    rcases List.mem_pair.mp hpath with rfl | rfl
    · exact ⟨old, rfl⟩
    · exact ⟨new, rfl⟩
  · rw [hpair.fd] at hfd
    cases hfd

/-- **Every path and descriptor a request passes to iomanX went through the translation**, if the
names have room. -/
theorem Arm.calls {p : CInt} {choice : Choice} (hp : p ≠ 0) {req : Option Request}
    {r : Option ℤ × Daemon σ} (h : Arm io p choice s req r)
    (hroom : ∀ r ∈ req, r.HasRoom s.toTables p) :
    ∃ news, r.2.calls = s.calls ++ news ∧
      ∀ c ∈ news, c.pid = p ∧ c.call.Remapped s.toTables p := by
  have hone : ∀ {c : Call} {ret : CInt}, c.Remapped s.toTables p →
      ∀ d ∈ ([⟨p, c, ret⟩] : List CallRecord), d.pid = p ∧ d.call.Remapped s.toTables p := by
    intro c ret hc d hd
    rw [List.mem_singleton.mp hd]
    exact ⟨rfl, hc⟩
  cases h with
  | ignored h => exact ⟨[], by simp⟩
  | called ho hn hr => exact ⟨_, rfl, hone hr⟩
  | paired hpair => exact ⟨_, rfl, hone (remapped_pair hpair (hroom _ rfl) _)⟩
  | lseek64 f offset whence => exact ⟨_, rfl, hone (remapped_fd f rfl rfl)⟩
  | @opened _ mk ho hmk name =>
    rcases openCommon_calls io mk name p s with hc | ⟨ret, hc⟩
    · exact ⟨[], by simp [returned, hc]⟩
    · exact ⟨_, hc, hone (remapped_name name (hmk.paths _) (hmk.fd _))⟩
  | @closed _ mk ho hmk fd =>
    exact ⟨_, (closeCommon_spec io mk fd p s).2.2.1, hone (remapped_fd fd (hmk.paths _) (hmk.fd _))⟩
  | mounted fsname devname flag useshm arglen =>
    obtain ⟨news, hc, hnews⟩ := rpcCommandMount_calls io fsname devname flag useshm arglen p s
    refine ⟨news, hc, fun c hmem => ?_⟩
    obtain ⟨hpid, f, d, flag, arg, len, hcall⟩ := hnews c hmem
    exact ⟨hpid, by rw [hcall]; exact remapped_none rfl rfl⟩
  | unmounted fsname =>
    rcases rpcCommandUmount_cases io hp fsname s with ⟨-, heq⟩ | ⟨-, -, heq⟩ | ⟨-, -, heq⟩ <;>
      exact ⟨[], by simp [returned, heq, writeRpcret, writeSocket]⟩
  | setreadahead enabled =>
    obtain ⟨news, hc, hnews⟩ := scepfsSetReadAhead_calls io enabled p s
    refine ⟨news, hc, fun c hmem => ?_⟩
    obtain ⟨hpid, hcall | hcall⟩ := hnews c hmem
    · exact ⟨hpid, by rw [hcall]; exact remapped_none rfl rfl⟩
    · exact ⟨hpid, by rw [hcall]; exact remapped_none rfl rfl⟩
  | getmountpoint path =>
    exact ⟨[], by simp [rpcCommandGetmountpoint, writeRpcret, writeSocket]⟩

/-! ## 3. Descriptors: opened and not closed -/

/-- How often client `p` opened descriptor `fd`. -/
def opensOf (calls : List CallRecord) (p fd : CInt) : ℕ :=
  calls.countP fun r => r.pid = p ∧ r.call.Opens ∧ r.ret = fd

/-- How often client `p` closed descriptor `fd`. -/
def closesOf (calls : List CallRecord) (p fd : CInt) : ℕ :=
  calls.countP fun r => r.pid = p ∧ r.call.closes = some fd ∧ r.ret = 0

/-- Client `p` has opened `fd` and has not closed it. -/
def Holds (calls : List CallRecord) (p fd : CInt) : Prop := closesOf calls p fd < opensOf calls p fd

/-- The entries of the table are covered by opens that were not closed. -/
structure Balanced (s : Daemon σ) : Prop where
  nonneg : ∀ e ∈ s.openfiles, 0 ≤ e.mFd
  covered : ∀ p fd, 0 ≤ fd → s.openfiles.countP (Tables.Matches fd p) + closesOf s.calls p fd
    ≤ opensOf s.calls p fd

theorem opensOf_append (l l' : List CallRecord) (p fd : CInt) :
    opensOf (l ++ l') p fd = opensOf l p fd + opensOf l' p fd := List.countP_append

theorem closesOf_append (l l' : List CallRecord) (p fd : CInt) :
    closesOf (l ++ l') p fd = closesOf l p fd + closesOf l' p fd := List.countP_append

/-- Calls that close nothing do not count as closes. -/
theorem closesOf_eq_zero {l : List CallRecord} (h : ∀ r ∈ l, r.call.closes = none)
    (p fd : CInt) : closesOf l p fd = 0 := by
  refine List.countP_eq_zero.mpr fun r hr => ?_
  simp [h r hr]

/-- More calls, none of which closes, and no more entries. -/
theorem Balanced.of_sublist (h : Balanced s) {news : List CallRecord}
    (hc : s'.calls = s.calls ++ news) (hnews : ∀ r ∈ news, r.call.closes = none)
    (hf : s'.openfiles.Sublist s.openfiles) : Balanced s' := by
  refine ⟨fun e he => h.nonneg e (hf.subset he), fun p fd hfd => ?_⟩
  have hle := hf.countP_le (p := Tables.Matches fd p)
  have hcov := h.covered p fd hfd
  rw [hc, opensOf_append, closesOf_append, closesOf_eq_zero hnews]
  omega

/-- Erasing a match leaves one match less. -/
theorem countP_eraseP_self {α : Type*} {f : α → Bool} : ∀ {l : List α}, (∃ x ∈ l, f x = true) →
    (l.eraseP f).countP f + 1 = l.countP f
  | x :: l, h => by
    cases hx : f x with
    | true => rw [List.eraseP_cons_of_pos hx, List.countP_cons_of_pos hx]
    | false =>
      have hl : ∃ y ∈ l, f y = true := by
        obtain ⟨y, hy, hfy⟩ := h
        rcases List.mem_cons.mp hy with rfl | hy
        · exact absurd hfy (by simp [hx])
        · exact ⟨y, hy, hfy⟩
      rw [List.eraseP_cons_of_neg (by simp [hx]), List.countP_cons_of_neg (by simp [hx]),
        List.countP_cons_of_neg (by simp [hx]), countP_eraseP_self hl]

theorem Call.closes_of_opens {c : Call} (h : c.Opens) : c.closes = none := by
  cases c <;> first | rfl | exact h.elim

/-- An open adds an entry and counts as an open. -/
theorem Balanced.opened (h : Balanced s) {mk : CStr → Call} (hmk : OpenCall mk) (name : CStr)
    (p : CInt) : Balanced (openCommon io mk name p s).2 := by
  have hnone : ∀ ret, ∀ r ∈ ([⟨p, mk (s.rpcRemapName name p), ret⟩] : List CallRecord),
      r.call.closes = none := by
    intro ret r hr
    rw [List.mem_singleton.mp hr]
    exact Call.closes_of_opens (hmk.opens _)
  rcases openCommon_cases io mk name p s with ⟨-, heq⟩ | ⟨-, -, heq⟩ |
    ⟨-, hret, ht, -, hc, -⟩
  · rw [heq]
    exact h.of_sublist (List.append_nil _).symm (by simp) (List.Sublist.refl _)
  · rw [heq]
    exact h.of_sublist rfl (hnone _) (List.Sublist.refl _)
  · have hf := Tables.openfiles_rpcCommonOpen_sublist (t := s.toTables)
      (io (mk (s.rpcRemapName name p)) s.world).1.ret p name
    rw [← ht] at hf
    refine ⟨fun e he => ?_, fun q fd hfd => ?_⟩
    · rcases List.mem_append.mp (hf.subset he) with he | he
      · exact h.nonneg e he
      · rw [List.mem_singleton.mp he]
        exact hret
    · have hle := hf.countP_le (p := Tables.Matches fd q)
      have hcov := h.covered q fd hfd
      have hone : [(⟨(io (mk (s.rpcRemapName name p)) s.world).1.ret, p,
            s.remapSlot name p⟩ : OpenfileItem)].countP (Tables.Matches fd q)
          ≤ opensOf [⟨p, mk (s.rpcRemapName name p),
            (io (mk (s.rpcRemapName name p)) s.world).1.ret⟩] q fd := by
        simp only [opensOf, List.countP_singleton, Tables.matches_iff, decide_eq_true_eq]
        split
        · rename_i hm
          rw [if_pos ⟨hm.2, hmk.opens _, hm.1⟩]
        · exact Nat.zero_le _
      rw [List.countP_append] at hle
      rw [hc, opensOf_append, closesOf_append, closesOf_eq_zero (hnone _)]
      omega

/-- A close that succeeds removes an entry of the descriptor it counts for. -/
theorem Balanced.closed (h : Balanced s) {mk : CInt → Call} (hmk : CloseCall mk) (fd p : CInt) :
    Balanced (closeCommon io mk fd p s).2 := by
  obtain ⟨ht, -, hc, -⟩ := closeCommon_spec io mk fd p s
  have hopens : ∀ ret q fd', opensOf [⟨p, mk (s.rpcRemapFd fd p), ret⟩] q fd' = 0 := by
    intro ret q fd'
    refine List.countP_eq_zero.mpr fun r hr => ?_
    rw [List.mem_singleton.mp hr]
    have hno : ¬ (mk (s.rpcRemapFd fd p)).Opens := fun ho => by
      have hn := Call.closes_of_opens ho
      rw [hmk.closes] at hn
      cases hn
    simp [hno]
  have hf : (closeCommon io mk fd p s).2.openfiles.Sublist s.openfiles := by
    rw [ht]
    split
    · exact Tables.openfiles_rpcCommonClose_sublist fd p
    · exact List.Sublist.refl _
  refine ⟨fun e he => h.nonneg e (hf.subset he), fun q fd' hfd => ?_⟩
  have hcov := h.covered q fd' hfd
  have hle := hf.countP_le (p := Tables.Matches fd' q)
  rw [hc, opensOf_append, closesOf_append, hopens]
  by_cases hcount : closesOf [⟨p, mk (s.rpcRemapFd fd p),
      (io (mk (s.rpcRemapFd fd p)) s.world).1.ret⟩] q fd' = 0
  · omega
  · -- the call closed `fd'` for `q`: then the client had an entry, and it is gone
    simp only [closesOf, List.countP_singleton, decide_eq_true_eq, hmk.closes,
      Option.some.injEq] at hcount
    split at hcount
    · rename_i hm
      obtain ⟨rfl, hfd', h0⟩ := hm
      rcases Tables.rpcRemapFd_cases s.toTables fd p with ⟨hsame, hex⟩ | ⟨hminus, -⟩
      · obtain rfl : fd = fd' := hsame.symm.trans hfd'
        rw [if_pos h0] at ht
        have herase : (closeCommon io mk fd p s).2.openfiles
            = s.openfiles.eraseP (Tables.Matches fd p) := by
          rw [ht]
          exact Tables.openfiles_rpcCommonClose hex
        have hone := countP_eraseP_self hex
        rw [← herase] at hone
        have hbound : closesOf [⟨p, mk (s.rpcRemapFd fd p),
            (io (mk (s.rpcRemapFd fd p)) s.world).1.ret⟩] p fd ≤ 1 := List.countP_le_length
        omega
      · rw [hminus] at hfd'
        exact absurd (hfd' ▸ hfd) (by decide)
    · exact absurd rfl hcount

/-- **Every act keeps the table covered.** -/
theorem Balanced.act {p : CInt} (hp : p ≠ 0) (h : Balanced s) (hact : Act io p s s') :
    Balanced s' := by
  cases hact with
  | called hn =>
    refine h.of_sublist rfl (fun r hr => ?_) (List.Sublist.refl _)
    rw [List.mem_singleton.mp hr]
    exact hn.2.1
  | wrote bytes => exact ⟨h.nonneg, h.covered⟩
  | stored m => exact ⟨h.nonneg, h.covered⟩
  | opened hmk name => exact h.opened hmk name p
  | closed hmk fd => exact h.closed hmk fd p
  | mounted fsname devname flag useshm arglen =>
    obtain ⟨news, hc, hnews⟩ := rpcCommandMount_calls io fsname devname flag useshm arglen p s
    refine h.of_sublist hc (fun r hr => ?_) ?_
    · obtain ⟨-, f, d, flag, arg, len, hcall⟩ := hnews r hr
      rw [hcall]
      rfl
    · rcases rpcCommandMount_cases io fsname devname flag useshm arglen p s with
        ⟨ret, buf, t, -, hframe, -, heq⟩ | ⟨buf, t, -, -, -, -, heq⟩
      · rw [heq]
        have hfiles : t.openfiles = s.openfiles := congrArg Tables.openfiles hframe.tables
        exact hfiles ▸ List.Sublist.refl t.openfiles
      · rw [heq]
        exact List.Sublist.refl _
  | unmounted fsname =>
    rcases rpcCommandUmount_cases io hp fsname s with ⟨-, heq⟩ | ⟨-, -, heq⟩ | ⟨-, -, heq⟩ <;>
      rw [heq] <;> exact ⟨h.nonneg, h.covered⟩

theorem Reachable.balanced {w : σ} (h : Reachable io w s) : Balanced s :=
  h.preserves (I := Balanced)
    (fun _ _ => ⟨fun _ he => absurd he List.not_mem_nil, fun _ _ _ => Nat.le_refl 0⟩)
    (fun _ _ _ hp hs hact => hs.act (Int32.ne_of_lt hp).symm hact)
    (fun _ _ hs => ⟨hs.nonneg, hs.covered⟩)

/-- A descriptor is passed on to iomanX only for the client that holds it. -/
theorem Balanced.rpcRemapFd (h : Balanced s) (f p : CInt) :
    s.rpcRemapFd f p = -1 ∨ Holds s.calls p (s.rpcRemapFd f p) := by
  rcases Tables.rpcRemapFd_cases s.toTables f p with ⟨heq, e, he, hm⟩ | ⟨heq, -⟩
  · have hfd : 0 ≤ f := (Tables.matches_iff.mp hm).1 ▸ h.nonneg e he
    have hpos : 0 < s.openfiles.countP (Tables.Matches f p) := List.countP_pos_iff.mpr ⟨e, he, hm⟩
    have hcov := h.covered p f hfd
    rw [heq]
    exact .inr (by unfold Holds; omega)
  · exact .inl heq

/-! ## 4. Containers that are units -/

/-- Every container is the name of a unit and nothing more. -/
def WholeUnits (t : Tables) : Prop :=
  ∀ i, t.Occupied i →
    unitOf (t.gMountlistItems i).mStrContainerPath = some (t.gMountlistItems i).mStrContainerPath

/-- The MOUNT of `fsname` goes through to iomanX under that name, and iomanX accepts it. -/
def AcceptedAs (io : IomanX σ) (s : Daemon σ) (p : CInt) (fsname devname : CStr)
    (flag useshm arglen : CInt) : Prop :=
  s.findFreeMountInfo < 32 ∧ 32 ≤ s.slotOfPrefix fsname p ∧
    (io (mountCall fsname (cutAt 44 devname) flag useshm arglen s) s.world).1.ret = 0

/-- An `fsname` that iomanX accepts is the name of a unit and nothing more. -/
def MountsWholeUnits (io : IomanX σ) (e : Event) (s : Daemon σ) : Prop :=
  ∀ pfd choice fsname devname flag useshm arglen,
    e = .request pfd choice (some (.pfsdReqMount fsname devname flag useshm arglen)) →
    AcceptedAs io s (s.gConnectionPollfds pfd) fsname devname flag useshm arglen →
    unitOf fsname = some fsname

/-- A MOUNT fills a slot with a unit while iomanX accepts nothing but units. -/
theorem WholeUnits.fills (h : WholeUnits s.toTables) {e : Event} (hcond : MountsWholeUnits io e s) :
    FillsWith io (fun item => unitOf item.mStrContainerPath = some item.mStrContainerPath) e s := by
  rintro pfd choice fsname devname flag useshm arglen buf rfl ⟨hfree, hdup, t, hm⟩
  rcases mountDevice_container hm with ⟨rfl, hret⟩ | ⟨j, hj, rfl⟩ | ⟨k, hk, rfl⟩
  · exact hcond pfd choice buf devname flag useshm arglen rfl ⟨hfree, hdup, hret⟩
  · exact unitOf_pfsUnit hj
  · exact h k hk

/-- Run lemma. -/
theorem WholeUnits.run {socketFd : CInt} {shm : Mem} {w : σ} {es : List Event}
    (hcond : Along (handle io) (MountsWholeUnits io) es (start socketFd shm w))
    (hrun : run (handle io) es (start socketFd shm w) = some s) : WholeUnits s.toTables :=
  AllSlots.run (fun item => unitOf item.mStrContainerPath = some item.mStrContainerPath)
    (fun _ _ h hc => WholeUnits.fills h hc) hcond hrun

/-- A translated name selects no unit of a slot but those of the client's own slots. -/
theorem WholeUnits.rpcRemapName {t : Tables} (h : WholeUnits t) {p : CInt} (hp : p ≠ 0)
    {name u : CStr} (hu : unitOf (t.rpcRemapName name p) = some u) {i : ℕ} (hi : t.Occupied i)
    (hslot : unitOf (t.gMountlistItems i).mStrContainerPath = some u) :
    ∃ j, t.OwnedBy p j ∧ unitOf (t.gMountlistItems j).mStrContainerPath = some u := by
  by_cases hlt : t.remapSlot name p < 32
  · have hown : t.OwnedBy p (t.remapSlot name p) := ⟨hlt, (Tables.remapSlot_spec hlt).1⟩
    have hwhole := h _ (hown.occupied hp)
    rw [Tables.rpcRemapName_of_lt hlt, unitOf_append hwhole] at hu
    exact ⟨_, hown, hwhole.trans hu⟩
  · rw [Tables.rpcRemapName_of_not_lt hlt] at hu
    rcases t.rejectContainers_cases name with ⟨heq, hnone⟩ | heq
    · rw [heq] at hu
      obtain rfl := Option.some.inj ((h i hi).symm.trans hslot)
      exact absurd (prefix_of_unitOf hu) (hnone i hi)
    · rw [heq] at hu
      cases hu

/-! ## 5. Isolation -/

/-- What client `p` may pass to iomanX: a path selects the unit of an occupied slot only when
`p` has a slot with that unit, and a descriptor is -1 or one that `p` holds. -/
structure Isolated (s : Daemon σ) (p : CInt) (c : Call) : Prop where
  paths : ∀ path ∈ c.paths, ∀ u, unitOf path = some u →
    (∃ i, s.Occupied i ∧ unitOf (s.gMountlistItems i).mStrContainerPath = some u) →
    ∃ j, s.OwnedBy p j ∧ unitOf (s.gMountlistItems j).mStrContainerPath = some u
  fd : ∀ fd ∈ c.fd, fd = -1 ∨ Holds s.calls p fd

/-- What an event has to meet: no name that is mounted goes on behind its unit, and no name that is
translated is too long for its memory. -/
structure KeepsApart (io : IomanX σ) (e : Event) (s : Daemon σ) : Prop where
  whole : MountsWholeUnits io e s
  room : ∀ pfd choice req, e = .request pfd choice (some req) →
    req.HasRoom s.toTables (s.gConnectionPollfds pfd)

/-- **Isolation.**  In every run whose events keep the clients apart, every request that does so
passes to iomanX only what its client may. -/
theorem isolated_of_run {socketFd : CInt} {shm : Mem} {w : σ} {es : List Event}
    (hcond : Along (handle io) (KeepsApart io) es (start socketFd shm w))
    (hrun : run (handle io) es (start socketFd shm w) = some s) {pfd : ℕ}
    (hpfd : pfd < s.gCurrentClientCount) (choice : Choice) (req : Option Request)
    (hroom : ∀ r ∈ req, r.HasRoom s.toTables (s.gConnectionPollfds pfd)) :
    ∃ news, (eventHandlerFunc io pfd choice req s).2.calls = s.calls ++ news ∧
      ∀ r ∈ news, r.pid = s.gConnectionPollfds pfd ∧
        Isolated s (s.gConnectionPollfds pfd) r.call := by
  have hreach : Reachable io w s := ⟨socketFd, shm, es, hrun⟩
  have hp : s.gConnectionPollfds pfd ≠ 0 :=
    (Int32.ne_of_lt (hreach.ok.pos _ (Conns.mem_clients hpfd))).symm
  have hwhole := WholeUnits.run (along_of_along (I := fun _ => True)
    (fun _ _ _ _ h => ⟨h.whole, fun _ _ => trivial⟩) trivial hcond) hrun
  have harm : Arm io _ choice s req _ := eventHandlerFunc_arm pfd choice req s
  obtain ⟨news, hcalls, hnews⟩ := harm.calls hp hroom
  refine ⟨news, hcalls, fun r hr => ?_⟩
  obtain ⟨hpid, hremap⟩ := hnews r hr
  refine ⟨hpid, ⟨fun path hpath u hu => ?_, fun fd hfd => ?_⟩⟩
  · rintro ⟨i, hi, hslot⟩
    obtain ⟨name, rfl⟩ := hremap.paths path hpath
    exact hwhole.rpcRemapName hp hu hi hslot
  · obtain ⟨f, rfl⟩ := hremap.fd fd hfd
    exact hreach.balanced.rpcRemapFd f _

/-- Client 5 mounts partition A as `f`, and client 6 is connected. -/
def mountedAs (f : CStr) : List Event :=
  [.connect ⟨5, 9, 0, 0x20000⟩, .connect ⟨6, 9, 0, 0x20000⟩,
    .request 0 {} (some (.pfsdReqMount f (ascii ['A']) 0 0 0))]

/-- The daemon of the small iomanX after that. -/
def afterMountedAs (f : CStr) : Daemon (SmallWorld (Option CStr)) :=
  (run (handle (smallIomanx unitOf)) (mountedAs f) (start 4 [] {})).getD (start 4 [] {})

/-- With the mount `pfs0:` of client 5, client 6 gets nothing for the name `pfs0:/x`. -/
theorem isolated_of_run_pfs0 : ∃ news,
    (eventHandlerFunc (smallIomanx unitOf) 1 {}
      (some (.pfsdReqRename (pfsUnit 0 ++ ascii ['/', 'x']) (pfsUnit 0 ++ ascii ['/', 'y'])))
      (afterMountedAs (pfsUnit 0))).2.calls = (afterMountedAs (pfsUnit 0)).calls ++ news ∧
      ∀ r ∈ news, Isolated (afterMountedAs (pfsUnit 0)) 6 r.call := by
  have hroomless : ∀ f, (Request.pfsdReqMount f (ascii ['A']) 0 0 0).rooms = [] := fun _ => rfl
  have hcond : Along (handle (smallIomanx unitOf)) (KeepsApart (smallIomanx unitOf))
      (mountedAs (pfsUnit 0)) (start 4 [] {}) := by
    refine ⟨⟨fun _ _ _ _ _ _ _ he => (by cases he), fun _ _ _ he => (by cases he)⟩, fun _ _ => ?_⟩
    refine ⟨⟨fun _ _ _ _ _ _ _ he => (by cases he), fun _ _ _ he => (by cases he)⟩, fun _ _ => ?_⟩
    refine ⟨⟨fun _ _ _ _ _ _ _ he _ => ?_, fun _ _ _ he => ?_⟩, fun _ _ => trivial⟩
    · cases he
      exact unitOf_pfsUnit (by decide)
    · cases he
      intro x hx
      rw [hroomless] at hx
      cases hx
  have hroom : (Request.pfsdReqRename (pfsUnit 0 ++ ascii ['/', 'x'])
      (pfsUnit 0 ++ ascii ['/', 'y'])).HasRoom (afterMountedAs (pfsUnit 0)).toTables 6 := by
    decide
  obtain ⟨news, hcalls, hnews⟩ :=
    isolated_of_run hcond rfl
      (by decide : 1 < (afterMountedAs (pfsUnit 0)).gCurrentClientCount) {}
      (some (.pfsdReqRename (pfsUnit 0 ++ ascii ['/', 'x']) (pfsUnit 0 ++ ascii ['/', 'y'])))
      (fun r hr => Option.some.inj hr ▸ hroom)
  exact ⟨news, hcalls, fun r hr => (hnews r hr).2⟩

/-- With the mount `pfs0:a` of client 5, the name `pfs0:/x` of client 6 reaches iomanX as it
is, and its unit is that of client 5's slot, while client 6 has no slot at all. -/
theorem isolated_fails :
    Reachable (smallIomanx unitOf) {} (afterMountedAs (pfsUnit 0 ++ ascii ['a'])) ∧
    ∃ c, (eventHandlerFunc (smallIomanx unitOf) 1 {}
        (some (.pfsdReqGetstat (pfsUnit 0 ++ ascii ['/', 'x']) 0))
        (afterMountedAs (pfsUnit 0 ++ ascii ['a']))).2.calls
          = (afterMountedAs (pfsUnit 0 ++ ascii ['a'])).calls ++ [⟨6, c, 0⟩] ∧
      ¬ Isolated (afterMountedAs (pfsUnit 0 ++ ascii ['a'])) 6 c := by
  refine ⟨⟨4, [], mountedAs _, rfl⟩, .scepfsGetstat (pfsUnit 0 ++ ascii ['/', 'x']) none, rfl, ?_⟩
  intro h
  obtain ⟨j, hj, -⟩ := h.paths _ List.mem_cons_self (pfsUnit 0) (by decide)
    ⟨0, by decide, by decide⟩
  exact (by decide : ∀ j, j < 32 →
    ((afterMountedAs (pfsUnit 0 ++ ascii ['a'])).gMountlistItems j).mPid ≠ 6) j hj.1 hj.2

/-! ## 6. Two names in one packet -/

/-- A unit with a long number. -/
def longUnit : CStr := ascii ['p', 'f', 's', '0', '0', '0', '0', '0', '0', '1', '0', ':']

/-- Client 5 mounts partition A as `longUnit` and B as `pfs1:`; client 6 mounts A as `pfs0:`. -/
def mountedLong : List Event :=
  [.connect ⟨5, 9, 0, 0x20000⟩, .connect ⟨6, 9, 0, 0x20000⟩,
    .request 0 {} (some (.pfsdReqMount longUnit (ascii ['A']) 0 0 0)),
    .request 0 {} (some (.pfsdReqMount (pfsUnit 1) (ascii ['B']) 0 0 0)),
    .request 1 {} (some (.pfsdReqMount (pfsUnit 0) (ascii ['A']) 0 0 0))]

/-- The daemon of the small iomanX after that. -/
def afterMountedLong : Daemon (SmallWorld (Option CStr)) :=
  (run (handle (smallIomanx unitOf)) mountedLong (start 4 [] {})).getD (start 4 [] {})

/-- What follows `pfs0:` in a name of 1023 bytes. -/
def longRest : CStr := List.replicate 1012 120 ++ (pfsUnit 1 ++ ascii ['/'])

theorem fits_longRename :
    (Request.pfsdReqRename (pfsUnit 0 ++ longRest) (pfsUnit 0 ++ ascii ['/', 'y'])).Fits := by
  intro n hn
  rcases List.mem_pair.mp hn with rfl | rfl
  · refine ⟨?_, fun h => ?_⟩
    · simp only [longRest, List.length_append, List.length_replicate]
      decide
    · simp only [longRest, List.mem_append, List.mem_replicate] at h
      exact absurd h (by decide)
  · decide

/-- What client 6 calls `pfs0:` is `longUnit`. -/
theorem rpcRemapName_afterMountedLong (r : CStr) :
    afterMountedLong.rpcRemapName (pfsUnit 0 ++ r) 6 = longUnit ++ r := by
  have hslot : afterMountedLong.remapSlot (pfsUnit 0 ++ r) 6 = 2 := by
    refine Tables.remapSlot_eq ⟨by decide, by decide⟩ (List.prefix_append _ r) fun i hi ho => ?_
    exact absurd ho.2 ((by decide : ∀ i, i < 2 →
      (afterMountedLong.gMountlistItems i).mPid ≠ 6) i hi)
  exact Tables.rpcRemapName_append (by decide) hslot rfl

/-- **The overrun.**  All mounted names are units, and client 6 renames a file with a name of 1023
bytes.  The second name is translated first; the translation of the first one takes 1030 bytes,
and iomanX is asked for its end, `pfs1:/`, which is on client 5's partition. -/
theorem isolated_overrun :
    Reachable (smallIomanx unitOf) {} afterMountedLong ∧
    (∀ i < 32, afterMountedLong.Occupied i →
      unitOf (afterMountedLong.gMountlistItems i).mStrContainerPath =
        some (afterMountedLong.gMountlistItems i).mStrContainerPath) ∧
    (Request.pfsdReqRename (pfsUnit 0 ++ longRest) (pfsUnit 0 ++ ascii ['/', 'y'])).Fits ∧
    ∃ c, (eventHandlerFunc (smallIomanx unitOf) 1 {} (some (.pfsdReqRename
        (pfsUnit 0 ++ longRest) (pfsUnit 0 ++ ascii ['/', 'y']))) afterMountedLong).2.calls =
          afterMountedLong.calls ++ [⟨6, c, 0⟩] ∧
      ¬ Isolated afterMountedLong 6 c := by
  have hprefix : (longUnit ++ List.replicate 1012 120).length = 1024 := by
    rw [List.length_append, List.length_replicate]
    decide
  have hsplit : longUnit ++ longRest =
      (longUnit ++ List.replicate 1012 120) ++ (pfsUnit 1 ++ ascii ['/']) := by
    rw [longRest, List.append_assoc]
  have hlong : ¬ (longUnit ++ longRest).length < 1024 := by
    rw [hsplit, List.length_append, hprefix]
    omega
  have hshort : (pfsUnit 0 ++ longRest).length < 1024 := (fits_longRename _ List.mem_cons_self).1
  have hnames : afterMountedLong.rpcRemapNames false (pfsUnit 0 ++ longRest)
      (pfsUnit 0 ++ ascii ['/', 'y']) 6 = (longUnit ++ longRest, pfsUnit 1 ++ ascii ['/']) := by
    simp only [Tables.rpcRemapNames, Bool.false_eq_true, if_false, firstName, if_pos hshort,
      rpcRemapName_afterMountedLong, secondName, if_neg hlong]
    rw [hsplit, List.drop_left' hprefix]
  refine ⟨⟨4, [], mountedLong, rfl⟩, by decide, fits_longRename,
    .scepfsRename (longUnit ++ longRest) (pfsUnit 1 ++ ascii ['/']), ?_, fun h => ?_⟩
  · have hpid : afterMountedLong.gConnectionPollfds 1 = 6 := by decide
    simp only [eventHandlerFunc, hpid, hnames]
    rfl
  · -- the end is on the unit of slot 1, and client 6 has slot 2 only
    obtain ⟨j, hj, hunit⟩ := h.paths (pfsUnit 1 ++ ascii ['/']) (by simp [Call.paths]) (pfsUnit 1)
      (by decide) ⟨1, by decide, by decide⟩
    exact (by decide : ∀ j < 32, (afterMountedLong.gMountlistItems j).mPid = 6 →
      unitOf (afterMountedLong.gMountlistItems j).mStrContainerPath ≠ some (pfsUnit 1))
        j hj.1 hj.2 hunit

end PfsShell.Pfsd
