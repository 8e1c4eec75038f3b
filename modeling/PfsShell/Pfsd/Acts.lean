/-
# What handling an event consists of

Whatever the daemon does for a client is a sequence of a few acts for that client: a call that
touches neither descriptors nor mounts, a write to the client's socket, a store to the shared
memory, and the four table operations.  `handle_cases` says so of every event, for requests and
for the cleanup alike, so an invariant has to be proved for the acts only
(`Reachable.preserves`).
-/
import Mathlib.Logic.Relation
import PfsShell.Pfsd.Clients

namespace PfsShell.Pfsd

open PfsShell.Lib

/-! ## 1. Acts -/

/-- The calls that touch neither the descriptors nor the mounts. -/
def Call.Neutral (c : Call) : Prop := ¬ c.Opens ∧ c.closes = none ∧ ¬ c.Mounts

/-- The paths of the call went through `rpc_remap_name` and its descriptor through
`rpc_remap_fd`, for client `p`. -/
structure Call.Remapped (t : Tables) (p : CInt) (c : Call) : Prop where
  paths : ∀ path ∈ c.paths, ∃ name, path = t.rpcRemapName name p
  fd : ∀ fd ∈ c.fd, ∃ f, fd = t.rpcRemapFd f p

/-- `mk` is `scepfsOpen` or `scepfsDopen`, up to the arguments that are not the name. -/
structure OpenCall (mk : CStr → Call) : Prop where
  opens : ∀ n, (mk n).Opens
  paths : ∀ n, (mk n).paths = [n]
  fd : ∀ n, (mk n).fd = none

/-- `mk` is `scepfsClose` or `scepfsDclose`. -/
structure CloseCall (mk : CInt → Call) : Prop where
  closes : ∀ f, (mk f).closes = some f
  paths : ∀ f, (mk f).paths = []
  fd : ∀ f, (mk f).fd = some f

/-- The requests with two names that are translated, and `scepfsRename` and `scepfsSymlink`. -/
inductive PairCall : Request → CStr → CStr → (CStr → CStr → Call) → Prop
  | rename (old new : CStr) : PairCall (.pfsdReqRename old new) old new .scepfsRename
  | symlink (old new : CStr) : PairCall (.pfsdReqSymlink old new) old new .scepfsSymlink

theorem openCall_open (flags mode : CInt) : OpenCall fun n => .scepfsOpen n flags mode :=
  ⟨fun _ => trivial, fun _ => rfl, fun _ => rfl⟩

theorem openCall_dopen : OpenCall .scepfsDopen := ⟨fun _ => trivial, fun _ => rfl, fun _ => rfl⟩

theorem closeCall_close : CloseCall .scepfsClose := ⟨fun _ => rfl, fun _ => rfl, fun _ => rfl⟩

theorem closeCall_dclose : CloseCall .scepfsDclose := ⟨fun _ => rfl, fun _ => rfl, fun _ => rfl⟩

section Acts

variable {σ : Type} {io : IomanX σ}

/-- One act of the daemon for client `p`. -/
inductive Act (io : IomanX σ) (p : CInt) : Daemon σ → Daemon σ → Prop
  | called {s : Daemon σ} {c : Call} (hn : c.Neutral) : Act io p s (scepfs io p c s).2
  | wrote {s : Daemon σ} (bytes : List UInt8) : Act io p s (writeSocket p bytes s)
  | stored {s : Daemon σ} (m : Mem) : Act io p s { s with shm := m }
  | opened {s : Daemon σ} {mk : CStr → Call} (hmk : OpenCall mk) (name : CStr) :
      Act io p s (openCommon io mk name p s).2
  | closed {s : Daemon σ} {mk : CInt → Call} (hmk : CloseCall mk) (fd : CInt) :
      Act io p s (closeCommon io mk fd p s).2
  | mounted {s : Daemon σ} (fsname devname : CStr) (flag useshm arglen : CInt) :
      Act io p s (rpcCommandMount io fsname devname flag useshm arglen p s).2
  | unmounted {s : Daemon σ} (fsname : CStr) :
      Act io p s (rpcCommandUmount io fsname p s).2

/-- One act of the cleanup after client `p`. -/
inductive CleanupAct (io : IomanX σ) (p : CInt) : Daemon σ → Daemon σ → Prop
  | closed {s : Daemon σ} (fd : CInt) : CleanupAct io p s (rpcCommandClose io fd p s).2
  | unmounted {s : Daemon σ} (fsname : CStr) :
      CleanupAct io p s (rpcCommandUmount io fsname p s).2

/-- A sequence of acts for client `p`. -/
abbrev Acts (io : IomanX σ) (p : CInt) : Daemon σ → Daemon σ → Prop :=
  Relation.ReflTransGen (Act io p)

/-- A sequence of acts of the cleanup after client `p`. -/
abbrev CleanupActs (io : IomanX σ) (p : CInt) : Daemon σ → Daemon σ → Prop :=
  Relation.ReflTransGen (CleanupAct io p)

theorem CleanupAct.act {p : CInt} {s s' : Daemon σ} (h : CleanupAct io p s s') :
    Act io p s s' := by
  cases h with
  | closed fd => exact .closed closeCall_close fd
  | unmounted fsname => exact .unmounted fsname

theorem CleanupActs.acts {p : CInt} {s s' : Daemon σ} (h : CleanupActs io p s s') :
    Acts io p s s' := Relation.ReflTransGen.mono (fun _ _ => CleanupAct.act) _ _ h

/-- Only iomanX, the shared memory and the record of calls differ. -/
structure Framed (s s' : Daemon σ) : Prop where
  tables : s'.toTables = s.toTables
  conns : s'.toConns = s.toConns
  sent : s'.sent = s.sent
  opened : s'.opened = s.opened

theorem Framed.refl (s : Daemon σ) : Framed s s := ⟨rfl, rfl, rfl, rfl⟩

theorem Framed.trans {s t u : Daemon σ} (h : Framed s t) (h' : Framed t u) : Framed s u :=
  ⟨h'.tables.trans h.tables, h'.conns.trans h.conns, h'.sent.trans h.sent,
    h'.opened.trans h.opened⟩

theorem framed_scepfs (p : CInt) (c : Call) (s : Daemon σ) : Framed s (scepfs io p c s).2 :=
  ⟨rfl, rfl, rfl, rfl⟩

/-- One mount call for device `devname`, on some unit. -/
def MountStep (io : IomanX σ) (p : CInt) (devname : CStr) (s s' : Daemon σ) : Prop :=
  ∃ fsname flag arg arglen, s' = (scepfs io p (.scepfsMount fsname devname flag arg arglen) s).2

/-- A sequence of mount calls for device `devname`. -/
abbrev MountSteps (io : IomanX σ) (p : CInt) (devname : CStr) : Daemon σ → Daemon σ → Prop :=
  Relation.ReflTransGen (MountStep io p devname)

theorem mountSteps_mountFallback (devname : CStr) (flag useshm arglen p : CInt) :
    ∀ (k i : ℕ) (acc : CInt × CStr) (s : Daemon σ),
      MountSteps io p devname s (mountFallback io devname flag useshm arglen p k i acc s).2
  | 0, _, _, _ => .refl
  | k + 1, i, acc, s => by
    unfold mountFallback
    split
    · exact .head ⟨_, _, _, _, rfl⟩
        (mountSteps_mountFallback devname flag useshm arglen p k (i + 1) _ _)
    · exact .refl

variable (io) in
/-- All that `mountDevice` does is make mount calls for the device. -/
theorem mountSteps_mountDevice (fsname devname : CStr) (flag useshm arglen p : CInt)
    (s : Daemon σ) :
    MountSteps io p devname s (mountDevice io fsname devname flag useshm arglen p s).2 := by
  have h : MountStep io p devname s
      (scepfs io p (mountCall fsname devname flag useshm arglen s) s).2 := ⟨_, _, _, _, rfl⟩
  simp only [mountDevice]
  split
  · split
    · exact .single h
    · exact .head h (mountSteps_mountFallback devname flag useshm arglen p 32 0 _ _)
  · exact .single h

theorem MountSteps.framed {p : CInt} {devname : CStr} {s t : Daemon σ}
    (h : MountSteps io p devname s t) : Framed s t := by
  induction h with
  | refl => exact Framed.refl s
  | tail _ hstep ih =>
    obtain ⟨f, flag, arg, arglen, rfl⟩ := hstep
    exact ih.trans (framed_scepfs p _ _)

/-- Mount calls leave alone whatever each of them leaves alone. -/
theorem MountSteps.world {α : Type*} {g : σ → α}
    (hg : ∀ f d flag arg len w, g (io (.scepfsMount f d flag arg len) w).2 = g w)
    {p : CInt} {devname : CStr} {s t : Daemon σ} (h : MountSteps io p devname s t) :
    g t.world = g s.world := by
  induction h with
  | refl => rfl
  | tail _ hstep ih =>
    obtain ⟨f, flag, arg, arglen, rfl⟩ := hstep
    exact (hg _ _ _ _ _ _).trans ih

/-- Only mount calls for client `p` are added to the record of calls. -/
theorem MountSteps.calls {p : CInt} {devname : CStr} {s t : Daemon σ}
    (h : MountSteps io p devname s t) :
    ∃ news, t.calls = s.calls ++ news ∧
      ∀ r ∈ news, r.pid = p ∧ ∃ f flag arg len, r.call = .scepfsMount f devname flag arg len := by
  induction h with
  | refl => exact ⟨[], by simp⟩
  | @tail t u _ hstep ih =>
    obtain ⟨f, flag, arg, arglen, rfl⟩ := hstep
    obtain ⟨news, heq, hnews⟩ := ih
    refine ⟨news ++ [⟨p, .scepfsMount f devname flag arg arglen,
      (io (.scepfsMount f devname flag arg arglen) t.world).1.ret⟩], ?_, fun r hr => ?_⟩
    · rw [← List.append_assoc, ← heq]
      rfl
    · rcases List.mem_append.mp hr with h | h
      · exact hnews r h
      · rw [List.mem_singleton.mp h]
        exact ⟨rfl, _, _, _, _, rfl⟩

/-- Acts never touch the poll table. -/
theorem Act.conns {p : CInt} {s s' : Daemon σ} (h : Act io p s s') : s'.toConns = s.toConns := by
  cases h with
  | called hn => rfl
  | wrote bytes => rfl
  | stored m => rfl
  | opened hmk name =>
    simp only [openCommon]
    split
    · split <;> rfl
    · rfl
  | closed hmk fd =>
    simp only [closeCommon]
    split <;> rfl
  | mounted fsname devname flag useshm arglen =>
    have h : Framed s _ :=
      (mountSteps_mountDevice io fsname (cutAt 44 devname) flag useshm arglen p s).framed
    simp only [rpcCommandMount, writeRpcret, writeSocket]
    split
    · split
      · split <;> exact h.conns
      · split <;> rfl
    · split <;> rfl
  | unmounted fsname =>
    simp only [rpcCommandUmount]
    repeat' split
    all_goals rfl

theorem Acts.conns {p : CInt} {s s' : Daemon σ} (h : Acts io p s s') :
    s'.toConns = s.toConns := by
  induction h with
  | refl => rfl
  | tail _ hact ih => exact hact.conns.trans ih

/-! ## 2. A request is a sequence of acts -/

theorem remapped_none {t : Tables} {p : CInt} {c : Call} (hp : c.paths = []) (hf : c.fd = none) :
    c.Remapped t p := ⟨by simp [hp], by simp [hf]⟩

theorem remapped_fd {t : Tables} {p : CInt} {c : Call} (f : CInt) (hp : c.paths = [])
    (hf : c.fd = some (t.rpcRemapFd f p)) : c.Remapped t p :=
  ⟨by simp [hp], by simp only [hf, Option.mem_some_iff, forall_eq']; exact ⟨f, rfl⟩⟩

theorem remapped_name {t : Tables} {p : CInt} {c : Call} (name : CStr)
    (hp : c.paths = [t.rpcRemapName name p]) (hf : c.fd = none) : c.Remapped t p :=
  ⟨by simp only [hp, List.mem_singleton, forall_eq]; exact ⟨name, rfl⟩, by simp [hf]⟩

/-- The requests that are answered by one `int`. -/
def Request.Ordinary : Request → Prop
  | .pfsdReqLseek64 .. | .pfsdReqGetmountpoint _ | .unknown _ => False
  | _ => True

theorem PairCall.neutral {req : Request} {old new : CStr} {mk : CStr → CStr → Call}
    (h : PairCall req old new mk) (n n' : CStr) : (mk n n').Neutral := by
  cases h <;> exact ⟨id, rfl, id⟩

theorem PairCall.paths {req : Request} {old new : CStr} {mk : CStr → CStr → Call}
    (h : PairCall req old new mk) (n n' : CStr) : (mk n n').paths = [n, n'] := by
  cases h <;> rfl

theorem PairCall.fd {req : Request} {old new : CStr} {mk : CStr → CStr → Call}
    (h : PairCall req old new mk) (n n' : CStr) : (mk n n').fd = none := by
  cases h <;> rfl

theorem PairCall.ordinary {req : Request} {old new : CStr} {mk : CStr → CStr → Call}
    (h : PairCall req old new mk) : req.Ordinary := by
  cases h <;> trivial

/-- The arms of the switch, with what each returns: most make one call with translated
arguments and break. -/
inductive Arm (io : IomanX σ) (p : CInt) (choice : Choice) (s : Daemon σ) :
    Option Request → Option ℤ × Daemon σ → Prop
  | ignored {req : Option Request} (h : ∀ r, req = some r → ∃ c, r = .unknown c) :
      Arm io p choice s req (none, s)
  | called {req : Request} {c : Call} (ho : req.Ordinary) (hn : c.Neutral)
      (hr : c.Remapped s.toTables p) :
      Arm io p choice s (some req) (broke p (call io p c s))
  | paired {req : Request} {old new : CStr} {mk : CStr → CStr → Call}
      (hpair : PairCall req old new mk) :
      Arm io p choice s (some req)
        (let names := s.rpcRemapNames choice.oldFirst old new p
        broke p (call io p (mk names.1 names.2) s))
  | lseek64 (f : CInt) (offset : Int64) (whence : CInt) :
      Arm io p choice s (some (.pfsdReqLseek64 f offset whence))
        (let r := scepfs io p (.scepfsLseek64 (s.rpcRemapFd f p) offset whence) s
        (some r.1.ret64.toInt, writeSocket p (int64Bytes r.1.ret64) r.2))
  | opened {req : Request} {mk : CStr → Call} (ho : req.Ordinary) (hmk : OpenCall mk)
      (name : CStr) : Arm io p choice s (some req) (returned (openCommon io mk name p s))
  | closed {req : Request} {mk : CInt → Call} (ho : req.Ordinary) (hmk : CloseCall mk)
      (fd : CInt) : Arm io p choice s (some req) (returned (closeCommon io mk fd p s))
  | mounted (fsname devname : CStr) (flag useshm arglen : CInt) :
      Arm io p choice s (some (.pfsdReqMount fsname devname flag useshm arglen))
        (returned (rpcCommandMount io fsname devname flag useshm arglen p s))
  | unmounted (fsname : CStr) :
      Arm io p choice s (some (.pfsdReqUmount fsname))
        (returned (rpcCommandUmount io fsname p s))
  | setreadahead (enabled : CInt) :
      Arm io p choice s (some (.pfsdReqSetreadahead enabled))
        (broke p (scepfsSetReadAhead io enabled p s))
  | getmountpoint (path : CStr) :
      Arm io p choice s (some (.pfsdReqGetmountpoint path))
        (some (rpcCommandGetmountpoint path p s).1.toInt,
          (writeRpcret p choice.rpcret (rpcCommandGetmountpoint path p s).2).2)

/-- **Every request is handled by one of the arms, for the client whose socket it came
from.** -/
theorem eventHandlerFunc_arm (pfd : ℕ) (choice : Choice) (req : Option Request) (s : Daemon σ) :
    Arm io (s.gConnectionPollfds pfd) choice s req (eventHandlerFunc io pfd choice req s) := by
  unfold eventHandlerFunc
  cases req with
  | none => exact .ignored (by simp)
  | some req =>
    cases req with
    | pfsdReqOpen name flags mode => exact .opened (by trivial) (openCall_open flags mode) name
    | pfsdReqLseek f _ _ => exact .called trivial ⟨id, rfl, id⟩ (remapped_fd f rfl rfl)
    | pfsdReqLseek64 f offset whence => exact .lseek64 f offset whence
    | pfsdReqRead f _ _ => exact .called trivial ⟨id, rfl, id⟩ (remapped_fd f rfl rfl)
    | pfsdReqWrite f _ _ => exact .called trivial ⟨id, rfl, id⟩ (remapped_fd f rfl rfl)
    | pfsdReqClose f => exact .closed (by trivial) closeCall_close f
    | pfsdReqDopen name => exact .opened (by trivial) openCall_dopen name
    | pfsdReqDread f _ => exact .called trivial ⟨id, rfl, id⟩ (remapped_fd f rfl rfl)
    | pfsdReqDclose f => exact .closed (by trivial) closeCall_dclose f
    | pfsdReqChstat name _ _ => exact .called trivial ⟨id, rfl, id⟩ (remapped_name name rfl rfl)
    | pfsdReqGetstat name _ => exact .called trivial ⟨id, rfl, id⟩ (remapped_name name rfl rfl)
    | pfsdReqMkdir name _ => exact .called trivial ⟨id, rfl, id⟩ (remapped_name name rfl rfl)
    | pfsdReqRmdir name => exact .called trivial ⟨id, rfl, id⟩ (remapped_name name rfl rfl)
    | pfsdReqChdir name => exact .called trivial ⟨id, rfl, id⟩ (remapped_name name rfl rfl)
    | pfsdReqRemove name => exact .called trivial ⟨id, rfl, id⟩ (remapped_name name rfl rfl)
    | pfsdReqRename old new => exact .paired (.rename old new)
    | pfsdReqIoctl f _ _ => exact .called trivial ⟨id, rfl, id⟩ (remapped_fd f rfl rfl)
    | pfsdReqIoctl2 f _ _ _ _ _ => exact .called trivial ⟨id, rfl, id⟩ (remapped_fd f rfl rfl)
    | pfsdReqSymlink old new => exact .paired (.symlink old new)
    | pfsdReqReadlink name _ _ =>
      exact .called trivial ⟨id, rfl, id⟩ (remapped_name name rfl rfl)
    | pfsdReqSync dev _ => exact .called trivial ⟨id, rfl, id⟩ (remapped_name dev rfl rfl)
    | pfsdReqFormat _ _ _ _ => exact .called trivial ⟨id, rfl, id⟩ (remapped_none rfl rfl)
    | pfsdReqMount fsname devname flag arg arglen => exact .mounted fsname devname flag arg arglen
    | pfsdReqUmount fsname => exact .unmounted fsname
    | pfsdReqDevctl name _ _ _ _ _ =>
      exact .called trivial ⟨id, rfl, id⟩ (remapped_name name rfl rfl)
    | pfsdReqSetreadahead enabled => exact .setreadahead enabled
    | pfsdReqGetreadahead => exact .called trivial ⟨id, rfl, id⟩ (remapped_none rfl rfl)
    | pfsdReqGetmountpoint path => exact .getmountpoint path
    | pfsdReqIoctl2Hioctransfer f _ _ _ _ _ =>
      exact .called trivial ⟨id, rfl, id⟩ (remapped_fd f rfl rfl)
    | unknown c => exact .ignored fun r hr => ⟨c, (Option.some.inj hr).symm⟩

theorem acts_scepfsSetReadAhead (enabled p : CInt) (s : Daemon σ) :
    Acts io p s (scepfsSetReadAhead io enabled p s).2 := by
  have hget : ∀ t : Daemon σ, Act io p t (scepfsGetReadAhead io p t).2 :=
    fun t => .called ⟨id, rfl, id⟩
  have hset : ∀ t : Daemon σ, Act io p t (scepfs io p (.ioctlBlkraset enabled) t).2 :=
    fun t => .called ⟨id, rfl, id⟩
  have h : Acts io p s _ := .tail (.single (hget s)) (hset _)
  simp only [scepfsSetReadAhead]
  split
  · exact h
  · exact h.tail (hget _)

theorem Arm.acts {p : CInt} {choice : Choice} {s : Daemon σ} {req : Option Request}
    {r : Option ℤ × Daemon σ} (h : Arm io p choice s req r) : Acts io p s r.2 := by
  cases h with
  | ignored h => exact .refl
  | called ho hn hr => exact .tail (.single (.called hn)) (.wrote _)
  | paired hpair => exact .tail (.single (.called (hpair.neutral _ _))) (.wrote _)
  | lseek64 f offset whence => exact .tail (.single (.called ⟨id, rfl, id⟩)) (.wrote _)
  | opened ho hmk name => exact .single (.opened hmk name)
  | closed ho hmk fd => exact .single (.closed hmk fd)
  | mounted fsname devname flag useshm arglen =>
    exact .single (.mounted fsname devname flag useshm arglen)
  | unmounted fsname => exact .single (.unmounted fsname)
  | setreadahead enabled => exact (acts_scepfsSetReadAhead enabled p s).tail (.wrote _)
  | getmountpoint path => exact .tail (.tail (.single (.stored _)) (.wrote _)) (.wrote _)

/-- **A request is handled by acts for the client whose socket it came from.** -/
theorem eventHandlerFunc_acts (pfd : ℕ) (choice : Choice) (req : Option Request) (s : Daemon σ) :
    Acts io (s.gConnectionPollfds pfd) s (eventHandlerFunc io pfd choice req s).2 :=
  (eventHandlerFunc_arm pfd choice req s).acts

/-! ## 3. So is a cleanup -/

theorem cleanupFiles_acts {inClientId : ℕ} {p : CInt} :
    ∀ (fuel i : ℕ) (s s' : Daemon σ), s.gConnectionPollfds inClientId = p →
      cleanupFiles io inClientId fuel i s = some s' → CleanupActs io p s s'
  | 0, i, s, s', _, h => by simp [cleanupFiles] at h
  | fuel + 1, i, s, s', hp, h => by
    unfold cleanupFiles at h
    split at h
    · split at h
      · rename_i hown
        have hact : CleanupAct io p s
            (rpcCommandClose io (s.gOpenfileItems i).mFd (s.gOpenfileItems i).mPid s).2 := by
          rw [hown, hp]
          exact .closed _
        refine .head hact (cleanupFiles_acts fuel i _ s' ?_ h)
        rw [hact.act.conns]
        exact hp
      · exact cleanupFiles_acts fuel (i + 1) s s' hp h
    · rw [Option.some.injEq] at h
      exact h ▸ .refl

theorem cleanupMounts_acts {inClientId : ℕ} {p : CInt} :
    ∀ (k i : ℕ) (s : Daemon σ), s.gConnectionPollfds inClientId = p →
      CleanupActs io p s (cleanupMounts io inClientId k i s)
  | 0, i, s, _ => .refl
  | k + 1, i, s, hp => by
    unfold cleanupMounts
    split
    · rename_i hown
      have hact : CleanupAct io p s (rpcCommandUmount io (s.gMountlistItems i).mStrFsPrefix
          (s.gMountlistItems i).mPid s).2 := by
        rw [hown, hp]
        exact .unmounted _
      refine .head hact (cleanupMounts_acts k (i + 1) _ ?_)
      rw [hact.act.conns]
      exact hp
    · exact cleanupMounts_acts k (i + 1) s hp

/-- A cleanup that ends is a sequence of acts for the client, and then the removal of its
poll-table entry. -/
theorem cleanupClient_cases {fuel inClientId : ℕ} {s s' : Daemon σ}
    (h : cleanupClient io fuel inClientId s = some s') :
    ∃ t, CleanupActs io (s.gConnectionPollfds inClientId) s t ∧
      s' = { t with toConns := s.removeClient inClientId } := by
  simp only [cleanupClient, Option.map_eq_some_iff] at h
  obtain ⟨t, ht, rfl⟩ := h
  have h₁ := cleanupFiles_acts fuel 0 s t rfl ht
  have h₂ : CleanupActs io (s.gConnectionPollfds inClientId) t
      (cleanupMounts io inClientId 32 0 t) := cleanupMounts_acts 32 0 t (by rw [h₁.acts.conns])
  exact ⟨_, h₁.trans h₂, by rw [h₂.acts.conns, h₁.acts.conns]⟩

/-! ## 4. Events -/

/-- **What an event does**: it changes the poll table, or it is a sequence of acts for one
connected client, or it is both. -/
theorem handle_cases {e : Event} {s s' : Daemon σ} (h : handle io e s = some s') :
    (∃ a, e = .connect a ∧ s.Fresh a.s ∧ s' = { s with toConns := s.addNewClient a }) ∨
    (∃ pfd choice req, e = .request pfd choice req ∧ pfd < s.gCurrentClientCount ∧
      s' = (eventHandlerFunc io pfd choice req s).2 ∧
      Acts io (s.gConnectionPollfds pfd) s s') ∨
    (∃ pfd fuel t, e = .hangup pfd fuel ∧ pfd < s.gCurrentClientCount ∧
      CleanupActs io (s.gConnectionPollfds pfd) s t ∧
      s' = { t with toConns := s.removeClient pfd }) := by
  cases e with
  | connect a =>
    simp only [handle] at h
    split at h
    · rename_i hf
      exact .inl ⟨a, rfl, hf, (Option.some.inj h).symm⟩
    · cases h
  | request pfd choice req =>
    simp only [handle] at h
    split at h
    · rename_i hlt
      obtain rfl := Option.some.inj h
      exact .inr (.inl ⟨pfd, choice, req, rfl, hlt, rfl, eventHandlerFunc_acts pfd choice req s⟩)
    · cases h
  | hangup pfd fuel =>
    simp only [handle] at h
    split at h
    · rename_i hlt
      obtain ⟨t, hacts, rfl⟩ := cleanupClient_cases h
      exact .inr (.inr ⟨pfd, fuel, t, rfl, hlt, hacts, rfl⟩)
    · cases h

/-! ## 5. Connected clients, and the induction over reachable states -/

/-- The connected sockets are positive, distinct and not the listening one. -/
structure Conns.Ok (c : Conns) : Prop where
  pos : ∀ p ∈ c.clients, 0 < p
  nodup : c.clients.Nodup
  listening : c.socketFd ∉ c.clients

theorem Conns.mem_clients {c : Conns} {pfd : ℕ} (h : pfd < c.gCurrentClientCount) :
    c.gConnectionPollfds pfd ∈ c.clients := mem_live.mpr ⟨pfd, h, rfl⟩

/-- The clients after `add_new_client`: the same, or one more at the end. -/
theorem Conns.clients_addNewClient (a : Accept) (c : Conns) :
    (c.addNewClient a).clients = c.clients ∨
      (¬ a.s < 0 ∧ (c.addNewClient a).clients = c.clients ++ [a.s]) := by
  unfold addNewClient
  split
  · exact .inl rfl
  · rename_i hs
    repeat' split
    any_goals exact .inl rfl
    refine .inr ⟨hs, ?_⟩
    rw [clients, clients, ← live_update_succ]
    exact live_congr fun i hi => Function.update_of_ne (Nat.ne_of_lt hi) _ _

theorem Conns.socketFd_addNewClient (a : Accept) (c : Conns) :
    (c.addNewClient a).socketFd = c.socketFd := by
  unfold addNewClient
  repeat' split
  all_goals rfl

/-- The clients after the end of `cleanup_client`: all but the one removed. -/
theorem Conns.clients_removeClient {pfd : ℕ} {c : Conns} (h : pfd < c.gCurrentClientCount) :
    (c.removeClient pfd).clients = c.clients.eraseIdx pfd := by
  rw [clients, clients, ← live_shiftDown h]
  refine live_congr fun i hi => ?_
  have hi' : i < c.gCurrentClientCount - 1 := hi
  simp only [removeClient, shiftDown_apply]
  by_cases hle : pfd ≤ i
  · rw [if_pos (by omega), if_pos (by omega)]
  · rw [if_neg (by omega), if_neg (by omega)]

theorem Conns.Ok.addNewClient {a : Accept} {c : Conns} (h : c.Ok) (hf : c.Fresh a.s) :
    (c.addNewClient a).Ok := by
  rcases c.clients_addNewClient a with heq | ⟨hs, heq⟩
  · refine ⟨?_, ?_, ?_⟩
    · rw [heq]; exact h.pos
    · rw [heq]; exact h.nodup
    · rw [heq, c.socketFd_addNewClient a]; exact h.listening
  · obtain ⟨hpos, hne, hnot⟩ := hf.resolve_left hs
    refine ⟨fun p hp => ?_, ?_, ?_⟩
    · rw [heq] at hp
      rcases List.mem_append.mp hp with hp | hp
      · exact h.pos p hp
      · rw [List.mem_singleton.mp hp]; exact hpos
    · rw [heq, List.nodup_append]
      refine ⟨h.nodup, by simp, fun p hp q hq => ?_⟩
      rw [List.mem_singleton.mp hq]
      exact fun he => hnot (he ▸ hp)
    · rw [heq, c.socketFd_addNewClient a]
      intro hmem
      rcases List.mem_append.mp hmem with hmem | hmem
      · exact h.listening hmem
      · exact hne (List.mem_singleton.mp hmem).symm

theorem Conns.Ok.removeClient {pfd : ℕ} {c : Conns} (h : c.Ok)
    (hlt : pfd < c.gCurrentClientCount) : (c.removeClient pfd).Ok := by
  have hsub : (c.removeClient pfd).clients.Sublist c.clients := by
    rw [Conns.clients_removeClient hlt]
    exact List.eraseIdx_sublist _ _
  exact ⟨fun p hp => h.pos p (hsub.subset hp), h.nodup.sublist hsub,
    fun hmem => h.listening (hsub.subset hmem)⟩

theorem conns_start_ok (socketFd : CInt) (shm : Mem) (w : σ) :
    (start socketFd shm w).toConns.Ok := by
  have hnil : (start socketFd shm w).toConns.clients = [] := rfl
  refine ⟨?_, ?_, ?_⟩ <;> simp [hnil]

theorem handle_ok {e : Event} {s s' : Daemon σ} (hs : s.Ok) (h : handle io e s = some s') :
    s'.Ok := by
  rcases handle_cases h with ⟨a, -, hf, rfl⟩ | ⟨pfd, choice, req, -, hlt, -, hacts⟩ |
    ⟨pfd, fuel, t, -, hlt, hacts, rfl⟩
  · exact hs.addNewClient hf
  · exact hacts.conns ▸ hs
  · exact hs.removeClient hlt

theorem Reachable.ok {w : σ} {s : Daemon σ} (h : Reachable io w s) : s.Ok := by
  obtain ⟨fd, shm, hreach⟩ := h
  exact hreach.preserves (conns_start_ok fd shm w) fun e s s' hs he => handle_ok hs he

/-- What the acts for positive sockets preserve, a sequence of them preserves. -/
theorem Acts.preserves {I : Daemon σ → Prop} {p : CInt} {s s' : Daemon σ} (h : Acts io p s s')
    (hs : I s) (hact : ∀ s s', I s → Act io p s s' → I s') : I s' := by
  induction h with
  | refl => exact hs
  | tail _ h ih => exact hact _ _ ih h

/-- An invariant of the acts that does not read the poll table survives every event. -/
theorem handle_preserves {I : Daemon σ → Prop}
    (hact : ∀ p s s', 0 < p → I s → Act io p s s' → I s')
    (hconns : ∀ (s : Daemon σ) (c : Conns), I s → I { s with toConns := c })
    {e : Event} {s s' : Daemon σ} (hok : s.Ok) (hs : I s) (h : handle io e s = some s') :
    I s' := by
  rcases handle_cases h with ⟨a, -, hf, rfl⟩ | ⟨pfd, choice, req, -, hlt, -, hacts⟩ |
    ⟨pfd, fuel, t, -, hlt, hacts, rfl⟩
  · exact hconns s _ hs
  · exact hacts.preserves hs fun s s' => hact _ s s' (hok.pos _ (Conns.mem_clients hlt))
  · exact hconns t _
      (hacts.acts.preserves hs fun s s' => hact _ s s' (hok.pos _ (Conns.mem_clients hlt)))

/-- **The induction over reachable states.**  An invariant has to hold at the start, survive
every act of a client with a positive socket, and not read the poll table. -/
theorem Reachable.preserves {I : Daemon σ → Prop} {w : σ} {s : Daemon σ}
    (h : Reachable io w s) (hstart : ∀ socketFd shm, I (start socketFd shm w))
    (hact : ∀ p s s', 0 < p → I s → Act io p s s' → I s')
    (hconns : ∀ (s : Daemon σ) (c : Conns), I s → I { s with toConns := c }) : I s := by
  obtain ⟨fd, shm, hreach⟩ := h
  have hboth : s.Ok ∧ I s :=
    hreach.preserves (I := fun s => s.Ok ∧ I s) ⟨conns_start_ok fd shm w, hstart fd shm⟩
      fun e s s' hs he => ⟨handle_ok hs.1 he, handle_preserves hact hconns hs.1 hs.2 he⟩
  exact hboth.2

/-- Handling events leads from reachable states to reachable states. -/
theorem Reachable.run {w : σ} {s s' : Daemon σ} {es : List Event} (h : Reachable io w s)
    (hrun : run (handle io) es s = some s') : Reachable io w s' := by
  obtain ⟨fd, shm, es₀, h₀⟩ := h
  exact ⟨fd, shm, es₀ ++ es, run_append.mpr ⟨s, h₀, hrun⟩⟩

end Acts

end PfsShell.Pfsd
