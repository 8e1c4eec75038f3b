/-
# Requests and replies stay in step

A client connected on socket `p` runs its functions against the daemon, while other clients do
what they like in between (`exec`).  The socket is a byte stream: a `read` of `n` bytes takes
what has been written and not read yet, at most `n` of it, and blocks when that is nothing.

The client and the daemon stay in step when every request is answered by one reply of the size
the client reads.  All arms of the dispatch do that but one: the arm of GETMOUNTPOINT calls a
handler that replies and then breaks to the common tail, which replies again
(`replies_out_of_step`).  A sequence of calls stays in step exactly when it has no such call: then
nothing is ever left on the socket, and every value the client reads is the one the daemon
computed for the request (`replies_in_step`).
-/
import PfsShell.Pfsd.Client
import PfsShell.Pfsd.Iomanx
import PfsShell.Pfsd.NonInterference

namespace PfsShell.Pfsd

open PfsShell.Lib

variable {σ : Type}

/-! ## 1. A client at work -/

/-- Everything that was ever written to socket `p`. -/
def Daemon.stream (s : Daemon σ) (p : CInt) : List UInt8 :=
  (s.sent.filter (·.1 = p)).flatMap (·.2)

/-- A request, the value the daemon computed for it, and what it wrote to the client. -/
structure Asked where
  req : Request
  computed : Option ℤ
  replied : List UInt8

/-- The daemon and a client.  `consumed` is how much of its stream the client has read; `asked`
and `got` are its requests and what its reads returned. -/
structure Session (σ : Type) where
  daemon : Daemon σ
  consumed : ℕ := 0
  asked : List Asked := []
  got : List (List UInt8) := []

/-- What is on the client's socket. -/
def Session.unread (x : Session σ) (p : CInt) : List UInt8 :=
  (x.daemon.stream p).drop x.consumed

/-- How a run ends: with a result, in a `read` from an empty socket, or not here (a loop out of
fuel, an event that cannot happen). -/
inductive Outcome (α : Type)
  | returned (a : α)
  | blocked
  | unfinished

/-- An event that is not one of client `p`. -/
def handleOthers (io : IomanX σ) (p : CInt) (e : Event) (s : Daemon σ) : Option (Daemon σ) :=
  if e.client s.toConns = some p then none else handle io e s

/-- What the other clients do before a request is handled, and what C leaves open in
`event_handler_func`. -/
structure Turn where
  others : List Event := []
  choice : Choice := {}

/-- Client `p` runs a function.  Each of its requests takes one of `turns`. -/
def exec (io : IomanX σ) (p : CInt) :
    Prog → List Turn → Session σ → Outcome (ℤ × List Turn × Session σ)
  | .done ret, turns, x => .returned (ret, turns, x)
  | .outOfFuel, _, _ => .unfinished
  | .requireLock next, turns, x => exec io p next turns x
  | .releaseLock next, turns, x => exec io p next turns x
  | .copyIn bytes next, turns, x =>
    exec io p next turns { x with
      daemon := { x.daemon with shm := bytes ++ x.daemon.shm.drop bytes.length } }
  | .copyOut _ next, turns, x => exec io p next turns x
  | .sendRequest req next, turns, x =>
    let turn := turns.headD {}
    match run (handleOthers io p) turn.others x.daemon with
    | none => .unfinished
    | some s =>
      if p ∈ s.clients then
        let r := eventHandlerFunc io (s.clients.idxOf p) turn.choice (some req) s
        exec io p next turns.tail { x with
          daemon := r.2
          asked := x.asked ++ [⟨req, r.1, (r.2.stream p).drop (s.stream p).length⟩] }
      else .unfinished
  | .receiveReply size next, turns, x =>
    let bytes := (x.unread p).take size
    if bytes = [] then .blocked
    else exec io p (next bytes) turns { x with
      consumed := x.consumed + bytes.length
      got := x.got ++ [bytes] }

/-- A call that returned: its value, its requests, what it read, and what is on the socket
afterwards. -/
structure Answered where
  call : ClientCall
  ret : ℤ
  asked : List Asked
  got : List (List UInt8)
  unread : List UInt8

/-- Client `p` makes the calls one after another. -/
def execCalls (io : IomanX σ) (p : CInt) (sizes : Sizes) :
    List ClientCall → List Turn → Session σ → Outcome (List Answered × Session σ)
  | [], _, x => .returned ([], x)
  | c :: cs, turns, x =>
    match exec io p (c.prog sizes) turns { x with asked := [], got := [] } with
    | .blocked => .blocked
    | .unfinished => .unfinished
    | .returned (ret, turns, x) =>
      match execCalls io p sizes cs turns x with
      | .blocked => .blocked
      | .unfinished => .unfinished
      | .returned (as, y) => .returned (⟨c, ret, x.asked, x.got, x.unread p⟩ :: as, y)

/-! ## 2. What the daemon writes -/

section Writes

variable {io : IomanX σ} {s s' : Daemon σ} {p q : CInt}

theorem openCommon_sent (mk : CStr → Call) (name : CStr) (p : CInt) (s : Daemon σ) :
    (openCommon io mk name p s).2.sent =
      s.sent ++ [(p, int32Bytes (openCommon io mk name p s).1)] := by
  simp only [openCommon]
  split
  · split <;> rfl
  · rfl

theorem closeCommon_sent (mk : CInt → Call) (fd p : CInt) (s : Daemon σ) :
    (closeCommon io mk fd p s).2.sent =
      s.sent ++ [(p, int32Bytes (closeCommon io mk fd p s).1)] := by
  simp only [closeCommon]
  split <;> rfl

theorem rpcCommandMount_sent (fsname devname : CStr) (flag useshm arglen p : CInt)
    (s : Daemon σ) :
    (rpcCommandMount io fsname devname flag useshm arglen p s).2.sent = s.sent ++
      [(p, int32Bytes (rpcCommandMount io fsname devname flag useshm arglen p s).1)] := by
  rcases rpcCommandMount_cases io fsname devname flag useshm arglen p s with
    ⟨ret, buf, t, -, hframe, -, heq⟩ | ⟨buf, t, -, -, hframe, -, heq⟩
  · rw [heq]
    exact congrArg (· ++ _) hframe.sent
  · rw [heq]
    exact congrArg (· ++ _) hframe.sent

theorem rpcCommandUmount_sent (fsname : CStr) (p : CInt) (s : Daemon σ) :
    (rpcCommandUmount io fsname p s).2.sent =
      s.sent ++ [(p, int32Bytes (rpcCommandUmount io fsname p s).1)] := by
  simp only [rpcCommandUmount]
  split
  · rfl
  · split
    · rfl
    · split
      · rename_i h
        split <;> simp_all [writeRpcret, writeSocket, scepfs]
      · split <;> rfl

/-- An act for a client writes to that client's socket only. -/
theorem Act.sent (h : Act io p s s') :
    ∃ news, s'.sent = s.sent ++ news ∧ ∀ m ∈ news, m.1 = p := by
  have hone : ∀ bytes : List UInt8, ∀ m ∈ [(p, bytes)], m.1 = p := by
    intro bytes m hm
    rw [List.mem_singleton.mp hm]
  cases h with
  | called hn => exact ⟨[], (List.append_nil _).symm, by simp⟩
  | wrote bytes => exact ⟨_, rfl, hone bytes⟩
  | stored m => exact ⟨[], (List.append_nil _).symm, by simp⟩
  | opened hmk name => exact ⟨_, openCommon_sent _ name p s, hone _⟩
  | closed hmk fd => exact ⟨_, closeCommon_sent _ fd p s, hone _⟩
  | mounted fsname devname flag useshm arglen =>
    exact ⟨_, rpcCommandMount_sent fsname devname flag useshm arglen p s, hone _⟩
  | unmounted fsname => exact ⟨_, rpcCommandUmount_sent fsname p s, hone _⟩

theorem stream_append {news : List (CInt × List UInt8)} (h : s'.sent = s.sent ++ news) (p : CInt) :
    s'.stream p = s.stream p ++ (news.filter (·.1 = p)).flatMap (·.2) := by
  simp only [Daemon.stream, h, List.filter_append, List.flatMap_append]

/-- Acts for another client leave a client's stream as it is. -/
theorem Acts.stream_eq (h : Acts io q s s') (hne : q ≠ p) : s'.stream p = s.stream p := by
  induction h with
  | refl => rfl
  | tail _ hact ih =>
    obtain ⟨news, hsent, hnews⟩ := hact.sent
    have hnil : news.filter (·.1 = p) = [] := by
      refine List.filter_eq_nil_iff.mpr fun m hm => ?_
      simp [hnews m hm, hne]
    rw [stream_append hsent, hnil, List.flatMap_nil, List.append_nil, ih]

theorem handleOthers_stream {e : Event} (h : handleOthers io p e s = some s') :
    s'.stream p = s.stream p := by
  unfold handleOthers at h
  split at h
  · cases h
  · rename_i hclient
    rcases handle_cases h with ⟨a, -, -, rfl⟩ | ⟨pfd, choice, req, rfl, -, -, hacts⟩ |
      ⟨pfd, fuel, t, rfl, -, hacts, rfl⟩
    · rfl
    · exact hacts.stream_eq fun he => hclient (congrArg some he)
    · have ht := hacts.acts.stream_eq fun he => hclient (congrArg some he)
      exact ht

theorem run_handleOthers_stream {es : List Event} (h : run (handleOthers io p) es s = some s') :
    s'.stream p = s.stream p :=
  run_preserves (I := fun t => t.stream p = s.stream p)
    (fun _ _ _ ht he => (handleOthers_stream he).trans ht) rfl h

/-! ## 3. One reply to a request -/

/-- The size of the reply the client function that sends the request reads. -/
def Request.replySize : Request → ℕ
  | .pfsdReqLseek64 .. => 8
  | _ => 4

/-- A request that the dispatch knows and that is not GETMOUNTPOINT. -/
def Request.Replied : Request → Prop
  | .pfsdReqGetmountpoint _ | .unknown _ => False
  | _ => True

/-- The value a reply of four or of eight bytes stands for. -/
def replyValue (bytes : List UInt8) : ℤ :=
  if bytes.length = 8 then (int64OfBytes bytes).toInt else (int32OfBytes bytes).toInt

theorem replyValue_int32Bytes (v : CInt) : replyValue (int32Bytes v) = v.toInt := by
  rw [replyValue, length_int32Bytes, if_neg (by decide), int32OfBytes_int32Bytes]

theorem replyValue_int64Bytes (v : Int64) : replyValue (int64Bytes v) = v.toInt := by
  rw [replyValue, length_int64Bytes, if_pos rfl, int64OfBytes_int64Bytes]

theorem replySize_of_ordinary {req : Request} (h : req.Ordinary) : req.replySize = 4 := by
  cases req <;> first | rfl | exact h.elim

/-- **One request, one reply**: of the size the client reads, to the client, and holding the
value computed. -/
theorem Arm.reply {choice : Choice} {req : Request} {r : Option ℤ × Daemon σ}
    (h : Arm io p choice s (some req) r) (hreq : req.Replied) :
    ∃ bytes, r.2.sent = s.sent ++ [(p, bytes)] ∧ bytes.length = req.replySize ∧
      r.1 = some (replyValue bytes) := by
  have hint : ∀ {v : CInt} {t : Daemon σ}, req.Ordinary → t.sent = s.sent ++ [(p, int32Bytes v)] →
      ∃ bytes, t.sent = s.sent ++ [(p, bytes)] ∧ bytes.length = req.replySize ∧
        some v.toInt = some (replyValue bytes) := by
    intro v t ho hsent
    refine ⟨_, hsent, ?_, by rw [replyValue_int32Bytes]⟩
    rw [length_int32Bytes, replySize_of_ordinary ho]
  cases h with
  | ignored h =>
    obtain ⟨c, rfl⟩ := h req rfl
    exact hreq.elim
  | called ho hn hr => exact hint ho rfl
  | paired hpair => exact hint hpair.ordinary rfl
  | lseek64 f offset whence =>
    exact ⟨_, rfl, length_int64Bytes _, by rw [replyValue_int64Bytes]⟩
  | opened ho hmk name => exact hint ho (openCommon_sent _ name p s)
  | closed ho hmk fd => exact hint ho (closeCommon_sent _ fd p s)
  | mounted fsname devname flag useshm arglen =>
    exact hint trivial (rpcCommandMount_sent fsname devname flag useshm arglen p s)
  | unmounted fsname => exact hint trivial (rpcCommandUmount_sent fsname p s)
  | setreadahead enabled =>
    refine hint trivial (congrArg (· ++ _) ?_)
    simp only [scepfsSetReadAhead]
    split <;> rfl
  | getmountpoint path => exact hreq.elim

/-- The arm of GETMOUNTPOINT replies twice. -/
theorem Arm.reply_getmountpoint {choice : Choice} {path : CStr} {r : Option ℤ × Daemon σ}
    (h : Arm io p choice s (some (.pfsdReqGetmountpoint path)) r) :
    ∃ a, r.2.sent = s.sent ++ [(p, int32Bytes a), (p, int32Bytes choice.rpcret)] := by
  cases h with
  | ignored h =>
    obtain ⟨c, hc⟩ := h _ rfl
    cases hc
  | called ho hn hr => exact ho.elim
  | paired hpair => exact hpair.ordinary.elim
  | opened ho hmk name => exact ho.elim
  | closed ho hmk fd => exact ho.elim
  | getmountpoint path => exact ⟨_, List.append_assoc _ _ _⟩

end Writes

/-! ## 4. Functions that read what they are sent -/

/-- Every request of the program is one the daemon replies to with `n` bytes, and is followed
by the read of `n` bytes, before any other request and before the end.  `pending` says that a
reply is outstanding. -/
def Prog.Paired (n : ℕ) : Bool → Prog → Prop
  | pending, .done _ => pending = false
  | _, .outOfFuel => True
  | pending, .requireLock next => next.Paired n pending
  | pending, .releaseLock next => next.Paired n pending
  | pending, .copyIn _ next => next.Paired n pending
  | pending, .copyOut _ next => next.Paired n pending
  | pending, .sendRequest req next =>
    pending = false ∧ req.Replied ∧ req.replySize = n ∧ next.Paired n true
  | pending, .receiveReply size next =>
    pending = true ∧ size = n ∧ ∀ bytes, (next bytes).Paired n false

theorem paired_requireLock {n : ℕ} {pending : Bool} {next : Prog} (h : next.Paired n pending) :
    (Prog.requireLock next).Paired n pending := h

theorem paired_releaseLock {n : ℕ} {pending : Bool} {next : Prog} (h : next.Paired n pending) :
    (Prog.releaseLock next).Paired n pending := h

theorem paired_copyArg {n : ℕ} {pending : Bool} {next : Prog} (h : next.Paired n pending) :
    ∀ arg : Option Mem, (copyArg arg next).Paired n pending
  | none => h
  | some _ => h

theorem paired_copyBuf {n : ℕ} {pending : Bool} {next : Prog} (h : next.Paired n pending)
    (buf : Bool) (k : ℕ) : (copyBuf buf k next).Paired n pending := by
  cases buf with
  | false => exact h
  | true => exact h

theorem paired_request {req : Request} {next : CInt → Prog} (hreq : req.Replied)
    (hsize : req.replySize = 4) (h : ∀ ret, (next ret).Paired 4 false) :
    (request req next).Paired 4 false :=
  ⟨rfl, hreq, hsize, rfl, rfl, fun _ => h _⟩

theorem paired_exchange {req : Request} (hreq : req.Replied) (hsize : req.replySize = 4)
    (arg : Option Mem) (buf : Bool) (k : ℕ) : (exchange arg req buf k).Paired 4 false :=
  paired_copyArg (paired_request hreq hsize fun _ => paired_copyBuf (by exact rfl) buf k) arg

theorem paired_readChunk {fd : CInt} {ptr : Bool} {size : UInt64} {next : CInt → Prog}
    (h : ∀ ret, (next ret).Paired 4 false) : (readChunk fd ptr size next).Paired 4 false := by
  unfold readChunk
  refine paired_requireLock (paired_request ?_ rfl fun ret => ?_)
  · trivial
  · exact paired_copyBuf (paired_releaseLock (h ret)) ptr _

theorem paired_writeChunk {fd : CInt} {ptr : Option Mem} {size : UInt64} {next : CInt → Prog}
    (h : ∀ ret, (next ret).Paired 4 false) : (writeChunk fd ptr size next).Paired 4 false := by
  unfold writeChunk
  refine paired_requireLock (paired_copyArg (paired_request ?_ rfl fun ret => ?_) _)
  · trivial
  · exact paired_releaseLock (h ret)

theorem paired_scepfsdReadFrom {sizes : Sizes} {fd : CInt} {ptr : Bool} {size : UInt64} :
    ∀ (fuel : ℕ) (chunkedSize : CInt),
      (scepfsdReadFrom sizes fd ptr size fuel chunkedSize).Paired 4 false
  | 0, _ => trivial
  | fuel + 1, chunkedSize => by
    unfold scepfsdReadFrom
    split
    · refine paired_readChunk fun result => ?_
      split
      · rfl
      · split
        · rfl
        · exact paired_scepfsdReadFrom fuel _
    · exact paired_readChunk fun _ => rfl

theorem paired_scepfsdWriteFrom {sizes : Sizes} {fd : CInt} {ptr : Option Mem} {size : UInt64} :
    ∀ (fuel : ℕ) (chunkedSize : CInt),
      (scepfsdWriteFrom sizes fd ptr size fuel chunkedSize).Paired 4 false
  | 0, _ => trivial
  | fuel + 1, chunkedSize => by
    unfold scepfsdWriteFrom
    split
    · refine paired_writeChunk fun result => ?_
      split
      · rfl
      · split
        · rfl
        · exact paired_scepfsdWriteFrom fuel _
    · exact paired_writeChunk fun _ => rfl

/-- The size of the replies the called function reads. -/
def ClientCall.replySize : ClientCall → ℕ
  | .lseek64 .. => 8
  | _ => 4

/-- **Every function but `scepfsdGetMountPoint` reads one reply for each request it sends, and
of the size the daemon writes.** -/
theorem ClientCall.paired (sizes : Sizes) (c : ClientCall)
    (hc : ∀ oldmap newmap, c ≠ .getMountPoint oldmap newmap) :
    (c.prog sizes).Paired c.replySize false := by
  cases c with
  | lseek64 fd offset whence => exact ⟨rfl, trivial, rfl, rfl, rfl, fun _ => rfl⟩
  | read fuel fd ptr size => exact paired_scepfsdReadFrom fuel 0
  | write fuel fd ptr size => exact paired_scepfsdWriteFrom fuel 0
  | ioctl2 fd command arg arglen buf buflen xfer =>
    simp only [prog, scepfsdIoctl2]
    split
    · split
      · rfl
      · exact paired_exchange (by trivial) (by rfl) _ _ _
    · exact paired_exchange (by trivial) (by rfl) _ _ _
  | getMountPoint oldmap newmap => exact absurd rfl (hc oldmap newmap)
  | _ => exact paired_exchange (by trivial) (by rfl) _ _ _

/-! ## 5. Runs -/

/-- The daemon wrote one reply of `n` bytes, which holds the value it computed. -/
def Asked.Ok (n : ℕ) (q : Asked) : Prop :=
  q.replied.length = n ∧ q.computed = some (replyValue q.replied)

/-- Between two actions: what was read is what was replied, and what is on the socket is the
reply that is outstanding, or nothing. -/
structure InStep (n : ℕ) (p : CInt) (pending : Bool) (x : Session σ) : Prop where
  ok : ∀ q ∈ x.asked, q.Ok n
  read : x.asked.map Asked.replied = x.got ++ if pending then [x.unread p] else []
  consumed_le : x.consumed ≤ (x.daemon.stream p).length
  empty : pending = false → x.unread p = []

theorem InStep.length_unread {n : ℕ} {p : CInt} {x : Session σ} (h : InStep n p true x) :
    (x.unread p).length = n := by
  have hmem : x.unread p ∈ x.asked.map Asked.replied := by
    rw [h.read]
    exact List.mem_append_right _ List.mem_cons_self
  obtain ⟨q, hq, heq⟩ := List.mem_map.mp hmem
  rw [← heq]
  exact (h.ok q hq).1

/-- The entry of the poll table that has socket `p`. -/
theorem gConnectionPollfds_idxOf {c : Conns} {p : CInt} (hmem : p ∈ c.clients) :
    c.gConnectionPollfds (c.clients.idxOf p) = p := by
  have hget := List.getElem_idxOf (List.idxOf_lt_length_of_mem hmem)
  simp only [Conns.clients, live, List.getElem_map, List.getElem_range] at hget
  exact hget

/-- A request that is handled leaves its reply outstanding. -/
theorem InStep.send {io : IomanX σ} {n : ℕ} {p : CInt} {choice : Choice} {x : Session σ}
    {s : Daemon σ} {es : List Event} {req : Request} (hreq : req.Replied) (hsize : req.replySize = n)
    (hx : InStep n p false x) (hs : run (handleOthers io p) es x.daemon = some s)
    (hmem : p ∈ s.clients) :
    InStep n p true { x with
      daemon := (eventHandlerFunc io (s.clients.idxOf p) choice (some req) s).2
      asked := x.asked ++ [⟨req, (eventHandlerFunc io (s.clients.idxOf p) choice (some req) s).1,
        ((eventHandlerFunc io (s.clients.idxOf p) choice (some req) s).2.stream p).drop
          (s.stream p).length⟩] } := by
  have harm : Arm io _ choice s (some req) _ :=
    eventHandlerFunc_arm (s.clients.idxOf p) choice (some req) s
  rw [gConnectionPollfds_idxOf hmem] at harm
  obtain ⟨bytes, hsent, hlen, hval⟩ := harm.reply hreq
  have hnew : (eventHandlerFunc io (s.clients.idxOf p) choice (some req) s).2.stream p
      = s.stream p ++ bytes := by
    rw [stream_append hsent]
    simp
  -- the others wrote nothing to `p`, and everything written to `p` before is consumed
  have hstream : s.stream p = x.daemon.stream p := run_handleOthers_stream hs
  have hconsumed : x.consumed = (s.stream p).length := by
    rw [hstream]
    exact Nat.le_antisymm hx.consumed_le (List.drop_eq_nil_iff.mp (hx.empty rfl))
  have hreplied : ((eventHandlerFunc io (s.clients.idxOf p) choice (some req) s).2.stream p).drop
      (s.stream p).length = bytes := by
    rw [hnew, List.drop_left]
  refine ⟨fun q hq => ?_, ?_, ?_, fun h => (by cases h)⟩
  · rcases List.mem_append.mp hq with hq | hq
    · exact hx.ok q hq
    · rw [List.mem_singleton.mp hq]
      exact ⟨by rw [hreplied, hlen, hsize], by rw [hreplied]; exact hval⟩
  · have hgot : x.asked.map Asked.replied = x.got := by simpa using hx.read
    simp [Session.unread, hgot, hconsumed]
  · simp only [hnew, hconsumed, List.length_append]
    omega

/-- The read takes the whole reply. -/
theorem InStep.receive {n : ℕ} {p : CInt} {x : Session σ} (hx : InStep n p true x) :
    (x.unread p).take n = x.unread p ∧ InStep n p false { x with
      consumed := x.consumed + (x.unread p).length
      got := x.got ++ [x.unread p] } := by
  have hlen := hx.length_unread
  refine ⟨by rw [← hlen, List.take_length], hx.ok, by simpa using hx.read, ?_, fun _ => ?_⟩
  · have hle := hx.consumed_le
    simp only [Session.unread, List.length_drop]
    omega
  · simp only [Session.unread, List.length_drop, List.drop_eq_nil_iff]
    omega

/-- **A program that is paired never blocks, and stays in step.** -/
theorem exec_inStep (io : IomanX σ) {n : ℕ} (hn : n ≠ 0) {p : CInt} :
    ∀ (prog : Prog) (pending : Bool) (turns : List Turn) (x : Session σ),
      prog.Paired n pending → InStep n p pending x →
      exec io p prog turns x ≠ .blocked ∧
      ∀ ret turns' y, exec io p prog turns x = .returned (ret, turns', y) →
        InStep n p false y := by
  intro prog
  induction prog with
  | done ret =>
    rintro pending turns x rfl hx
    refine ⟨by simp [exec], fun ret' turns' y h => ?_⟩
    simp only [exec, Outcome.returned.injEq, Prod.mk.injEq] at h
    exact h.2.2 ▸ hx
  | outOfFuel => exact fun pending turns x _ _ => ⟨by simp [exec], by simp [exec]⟩
  | requireLock next ih => exact fun pending turns x hp hx => ih pending turns x hp hx
  | releaseLock next ih => exact fun pending turns x hp hx => ih pending turns x hp hx
  | copyIn bytes next ih =>
    exact fun pending turns x hp hx =>
      ih pending turns _ hp ⟨hx.ok, hx.read, hx.consumed_le, hx.empty⟩
  | copyOut k next ih => exact fun pending turns x hp hx => ih pending turns x hp hx
  | sendRequest req next ih =>
    rintro pending turns x ⟨rfl, hreq, hsize, hnext⟩ hx
    simp only [exec]
    split
    · exact ⟨by simp, by simp⟩
    · rename_i s hs
      split
      · rename_i hmem
        exact ih true _ _ hnext (hx.send hreq hsize hs hmem)
      · exact ⟨by simp, by simp⟩
  | receiveReply size next ih =>
    rintro pending turns x ⟨rfl, rfl, hnext⟩ hx
    obtain ⟨htake, hnew⟩ := hx.receive
    have hne : ¬ x.unread p = [] := by
      intro hnil
      have hlen := hx.length_unread
      rw [hnil] at hlen
      exact hn hlen.symm
    simp only [exec, htake, if_neg hne]
    exact ih _ false turns _ (hnext _) hnew

/-! ## 6. The value a call returns -/

/-- What a program returns when its reads give these bytes. -/
def Prog.feed : Prog → List (List UInt8) → Option ℤ
  | .done ret, [] => some ret
  | .done _, _ :: _ => none
  | .outOfFuel, _ => none
  | .requireLock next, bs => next.feed bs
  | .releaseLock next, bs => next.feed bs
  | .copyIn _ next, bs => next.feed bs
  | .copyOut _ next, bs => next.feed bs
  | .sendRequest _ next, bs => next.feed bs
  | .receiveReply _ _, [] => none
  | .receiveReply _ next, b :: bs => (next b).feed bs

/-- The value returned depends on what was read only. -/
theorem exec_feed {io : IomanX σ} {p : CInt} :
    ∀ (prog : Prog) (turns : List Turn) (x : Session σ) {ret : ℤ}
      {turns' : List Turn} {y : Session σ},
      exec io p prog turns x = .returned (ret, turns', y) →
      ∃ bs, y.got = x.got ++ bs ∧ prog.feed bs = some ret := by
  intro prog
  induction prog with
  | done ret =>
    intro turns x ret' turns' y h
    simp only [exec, Outcome.returned.injEq, Prod.mk.injEq] at h
    obtain ⟨rfl, -, rfl⟩ := h
    exact ⟨[], (List.append_nil _).symm, rfl⟩
  | outOfFuel =>
    intro turns x ret turns' y h
    cases h
  | requireLock next ih => exact fun turns x _ _ _ h => ih turns x h
  | releaseLock next ih => exact fun turns x _ _ _ h => ih turns x h
  | copyIn bytes next ih =>
    intro turns x ret turns' y h
    obtain ⟨bs, hgot, hfeed⟩ := ih _ _ h
    exact ⟨bs, hgot, hfeed⟩
  | copyOut k next ih => exact fun turns x _ _ _ h => ih turns x h
  | sendRequest req next ih =>
    intro turns x ret turns' y h
    simp only [exec] at h
    split at h
    · cases h
    · split at h
      · obtain ⟨bs, hgot, hfeed⟩ := ih _ _ h
        exact ⟨bs, hgot, hfeed⟩
      · cases h
  | receiveReply size next ih =>
    intro turns x ret turns' y h
    simp only [exec] at h
    split at h
    · cases h
    · obtain ⟨bs, hgot, hfeed⟩ := ih _ _ _ h
      exact ⟨_ :: bs, by rw [hgot, List.append_assoc]; rfl, hfeed⟩

theorem feed_copyArg (next : Prog) (bs : List (List UInt8)) :
    ∀ arg : Option Mem, (copyArg arg next).feed bs = next.feed bs
  | none => rfl
  | some _ => rfl

theorem feed_copyBuf (buf : Bool) (k : ℕ) (next : Prog) (bs : List (List UInt8)) :
    (copyBuf buf k next).feed bs = next.feed bs := by
  cases buf <;> rfl

theorem feed_exchange (arg : Option Mem) (req : Request) (buf : Bool) (k : ℕ)
    (b : List UInt8) : (exchange arg req buf k).feed [b] = some (int32OfBytes b).toInt := by
  simp only [exchange, Prog.feed, feed_copyArg, request, feed_copyBuf]

theorem feed_readChunk (fd : CInt) (ptr : Bool) (size : UInt64) (next : CInt → Prog)
    (b : List UInt8) (bs : List (List UInt8)) :
    (readChunk fd ptr size next).feed (b :: bs) = (next (int32OfBytes b)).feed bs := by
  simp only [readChunk, Prog.feed, request, feed_copyBuf]

theorem feed_writeChunk (fd : CInt) (ptr : Option Mem) (size : UInt64) (next : CInt → Prog)
    (b : List UInt8) (bs : List (List UInt8)) :
    (writeChunk fd ptr size next).feed (b :: bs) = (next (int32OfBytes b)).feed bs := by
  simp only [writeChunk, Prog.feed, request, feed_copyArg]

theorem feed_scepfsdReadFrom_nil {sizes : Sizes} {fd : CInt} {ptr : Bool} {size : UInt64} :
    ∀ (fuel : ℕ) (chunkedSize : CInt),
      (scepfsdReadFrom sizes fd ptr size fuel chunkedSize).feed [] = none
  | 0, _ => rfl
  | _ + 1, _ => by
    unfold scepfsdReadFrom
    split <;> rfl

theorem feed_scepfsdWriteFrom_nil {sizes : Sizes} {fd : CInt} {ptr : Option Mem}
    {size : UInt64} : ∀ (fuel : ℕ) (chunkedSize : CInt),
      (scepfsdWriteFrom sizes fd ptr size fuel chunkedSize).feed [] = none
  | 0, _ => rfl
  | _ + 1, _ => by
    unfold scepfsdWriteFrom
    split <;> simp only [writeChunk, Prog.feed, feed_copyArg, request]

/-- **A call that exchanged one request returns the value it read.** -/
theorem ClientCall.feed_one (sizes : Sizes) (c : ClientCall) {b : List UInt8} {ret : ℤ}
    (hb : b.length = c.replySize) (h : (c.prog sizes).feed [b] = some ret) :
    ret = replyValue b := by
  have h4 : c.replySize = 4 → replyValue b = (int32OfBytes b).toInt := by
    intro hc
    rw [replyValue, if_neg (by omega)]
  cases c with
  | lseek64 fd offset whence =>
    have hb8 : b.length = 8 := hb
    rw [replyValue, if_pos hb8]
    exact (Option.some.inj h).symm
  | read fuel fd ptr size =>
    rw [h4 rfl]
    cases fuel with
    | zero => cases h
    | succ fuel =>
      simp only [prog, scepfsdRead] at h
      unfold scepfsdReadFrom at h
      split at h
      · rw [feed_readChunk] at h
        split at h
        · exact (Option.some.inj h).symm
        · split at h
          · simpa using (Option.some.inj h).symm
          · rw [feed_scepfsdReadFrom_nil] at h
            cases h
      · rw [feed_readChunk] at h
        simpa using (Option.some.inj h).symm
  | write fuel fd ptr size =>
    rw [h4 rfl]
    cases fuel with
    | zero => cases h
    | succ fuel =>
      simp only [prog, scepfsdWrite] at h
      unfold scepfsdWriteFrom at h
      split at h
      · rw [feed_writeChunk] at h
        split at h
        · exact (Option.some.inj h).symm
        · split at h
          · simpa using (Option.some.inj h).symm
          · rw [feed_scepfsdWriteFrom_nil] at h
            cases h
      · rw [feed_writeChunk] at h
        simpa using (Option.some.inj h).symm
  | ioctl2 fd command arg arglen buf buflen xfer =>
    rw [h4 rfl]
    simp only [prog, scepfsdIoctl2] at h
    split at h
    · split at h
      · cases h
      · rw [feed_exchange] at h
        exact (Option.some.inj h).symm
    · rw [feed_exchange] at h
      exact (Option.some.inj h).symm
  | _ =>
    rw [h4 rfl]
    exact (Option.some.inj ((feed_exchange _ _ _ _ b).symm.trans h)).symm

/-! ## 7. Sequences of calls -/

/-- A call of any function but `scepfsdGetMountPoint`. -/
def ClientCall.RepliedOnce : ClientCall → Prop
  | .getMountPoint .. => False
  | _ => True

/-- The call got one reply of the right size to each request, with the value the daemon
computed; it read these replies and left nothing; a call that made one request returned the
value computed for it, and one that made several returned what follows from the replies. -/
structure Answered.InStep (sizes : Sizes) (a : Answered) : Prop where
  ok : ∀ q ∈ a.asked, q.Ok a.call.replySize
  read : a.got = a.asked.map Asked.replied
  value : ∀ q, a.asked = [q] → q.computed = some a.ret
  feed : (a.call.prog sizes).feed a.got = some a.ret
  empty : a.unread = []

section Calls

variable {io : IomanX σ} {p : CInt} {sizes : Sizes}

theorem ClientCall.replySize_ne_zero (c : ClientCall) : c.replySize ≠ 0 := by
  unfold replySize
  split
  · decide
  · decide

/-- A client whose socket is empty is in step. -/
theorem inStep_start {n : ℕ} {x : Session σ} (hx : x.consumed = (x.daemon.stream p).length) :
    InStep n p false { x with asked := [], got := [] } where
  ok := fun _ hq => absurd hq List.not_mem_nil
  read := rfl
  consumed_le := hx.le
  empty := fun _ => List.drop_eq_nil_iff.mpr hx.ge

/-- A call other than `scepfsdGetMountPoint`, made on an empty socket. -/
theorem exec_repliedOnce (io : IomanX σ) (sizes : Sizes) {c : ClientCall}
    (hc : c.RepliedOnce) {x : Session σ}
    (hx : x.consumed = (x.daemon.stream p).length) (turns : List Turn) :
    exec io p (c.prog sizes) turns { x with asked := [], got := [] } ≠ .blocked ∧
    ∀ ret turns' y,
      exec io p (c.prog sizes) turns { x with asked := [], got := [] } =
        .returned (ret, turns', y) →
      y.consumed = (y.daemon.stream p).length ∧
        Answered.InStep sizes ⟨c, ret, y.asked, y.got, y.unread p⟩ := by
  have hpaired := c.paired sizes fun old new he => by
    subst he
    exact hc
  obtain ⟨hblocked, hreturned⟩ := exec_inStep io c.replySize_ne_zero
    (c.prog sizes) false turns _ hpaired (inStep_start hx)
  refine ⟨hblocked, fun ret turns' y h => ?_⟩
  have hy := hreturned ret turns' y h
  have hread : y.got = y.asked.map Asked.replied := by simpa using hy.read.symm
  obtain ⟨bs, hgot, hfeed⟩ := exec_feed _ _ _ h
  have hbs : y.got = bs := hgot
  refine ⟨Nat.le_antisymm hy.consumed_le (List.drop_eq_nil_iff.mp (hy.empty rfl)),
    hy.ok, hread, fun q hq => ?_, by rw [← hbs] at hfeed; exact hfeed, hy.empty rfl⟩
  -- the one reply is what the function was fed
  have hq' : y.asked = [q] := hq
  have hfeed₁ : (c.prog sizes).feed [q.replied] = some ret := by
    rw [← hfeed, ← hbs, hread, hq']
    rfl
  have hok : q.Ok c.replySize := hy.ok q (by rw [hq']; exact List.mem_cons_self)
  rw [hok.2, c.feed_one sizes hok.1 hfeed₁]

theorem exec_copyBuf (buf : Bool) (k : ℕ) (next : Prog) (turns : List Turn) (x : Session σ) :
    exec io p (copyBuf buf k next) turns x = exec io p next turns x := by
  cases buf <;> rfl

/-- `scepfsdGetMountPoint` leaves the second of its two replies on the socket. -/
theorem unread_getMountPoint {old : CStr} {new : Bool} {x y : Session σ} {ret : ℤ}
    {turns turns' : List Turn} (hx : x.consumed = (x.daemon.stream p).length)
    (h : exec io p (scepfsdGetMountPoint old new) turns x = .returned (ret, turns', y)) :
    (y.unread p).length = 4 := by
  simp only [scepfsdGetMountPoint, exchange, copyArg, request, exec] at h
  split at h
  · cases h
  · rename_i s hs
    split at h
    · rename_i hmem
      have hstream : x.consumed = (s.stream p).length := by
        rw [hx, run_handleOthers_stream hs]
      have harm : Arm io _ (turns.headD {}).choice s (some (.pfsdReqGetmountpoint old)) _ :=
        eventHandlerFunc_arm (s.clients.idxOf p) (turns.headD {}).choice _ s
      rw [gConnectionPollfds_idxOf hmem] at harm
      obtain ⟨a, hsent⟩ := harm.reply_getmountpoint
      -- the socket holds the reply of the handler and that of the common tail
      have hunread : ((eventHandlerFunc io (s.clients.idxOf p) (turns.headD {}).choice
          (some (.pfsdReqGetmountpoint old)) s).2.stream p).drop x.consumed =
            int32Bytes a ++ int32Bytes (turns.headD {}).choice.rpcret := by
        rw [stream_append hsent, hstream, List.drop_left]
        simp
      split at h
      · cases h
      · simp only [exec_copyBuf, exec, Outcome.returned.injEq, Prod.mk.injEq] at h
        obtain ⟨-, -, rfl⟩ := h
        simp only [Session.unread]
        rw [← List.drop_drop, hunread]
        simp [length_int32Bytes]
    · cases h

/-- A sequence of calls returns when its first call does and then the others do. -/
theorem execCalls_cons {c : ClientCall} {cs : List ClientCall} {turns : List Turn}
    {x y : Session σ} {as : List Answered}
    (h : execCalls io p sizes (c :: cs) turns x = .returned (as, y)) :
    ∃ ret turns' z as',
      exec io p (c.prog sizes) turns { x with asked := [], got := [] } =
        .returned (ret, turns', z) ∧
      execCalls io p sizes cs turns' z = .returned (as', y) ∧
      as = ⟨c, ret, z.asked, z.got, z.unread p⟩ :: as' := by
  simp only [execCalls] at h
  split at h
  · cases h
  · cases h
  · rename_i ret turns' z hz
    split at h
    · cases h
    · cases h
    · rename_i as' y' hy
      simp only [Outcome.returned.injEq, Prod.mk.injEq] at h
      obtain ⟨rfl, rfl⟩ := h
      exact ⟨ret, turns', z, as', hz, hy, rfl⟩

/-- Calls that are replied to once never block. -/
theorem execCalls_ne_blocked :
    ∀ {cs : List ClientCall} {turns : List Turn} {x : Session σ},
      x.consumed = (x.daemon.stream p).length → (∀ c ∈ cs, c.RepliedOnce) →
      execCalls io p sizes cs turns x ≠ .blocked := by
  intro cs
  induction cs with
  | nil => exact fun _ _ h => by cases h
  | cons c cs ih =>
    intro turns x hx hcs
    obtain ⟨hblocked, hreturned⟩ := exec_repliedOnce io sizes (hcs c List.mem_cons_self) hx turns
    simp only [execCalls]
    split
    · contradiction
    · simp
    · rename_i ret turns' z hz
      have hz' := (hreturned ret turns' z hz).1
      have hrest : execCalls io p sizes cs turns' z ≠ .blocked :=
        ih hz' fun d hd => hcs d (List.mem_cons_of_mem _ hd)
      split
      · contradiction
      · simp
      · simp

theorem execCalls_calls :
    ∀ {cs : List ClientCall} {turns : List Turn} {x y : Session σ} {as : List Answered},
      execCalls io p sizes cs turns x = .returned (as, y) → as.map Answered.call = cs := by
  intro cs
  induction cs with
  | nil =>
    intro turns x y as h
    simp only [execCalls, Outcome.returned.injEq, Prod.mk.injEq] at h
    rw [← h.1]
    rfl
  | cons c cs ih =>
    intro turns x y as h
    obtain ⟨ret, turns', z, as', -, hrest, rfl⟩ := execCalls_cons h
    rw [List.map_cons, ih hrest]

/-- The calls are in step when each is replied to once, and otherwise the first that is not
is out of step. -/
theorem execCalls_inStep :
    ∀ {cs : List ClientCall} {turns : List Turn} {x y : Session σ} {as : List Answered},
      x.consumed = (x.daemon.stream p).length →
      execCalls io p sizes cs turns x = .returned (as, y) →
      ((∀ a ∈ as, a.InStep sizes) ↔ ∀ c ∈ cs, c.RepliedOnce) := by
  intro cs
  induction cs with
  | nil =>
    intro turns x y as hx h
    have hnil := List.map_eq_nil_iff.mp (execCalls_calls h)
    simp [hnil]
  | cons c cs ih =>
    intro turns x y as hx h
    obtain ⟨ret, turns', z, as', hz, hrest, rfl⟩ := execCalls_cons h
    rw [List.forall_mem_cons, List.forall_mem_cons]
    by_cases hc : c.RepliedOnce
    · obtain ⟨hz', hstep⟩ := (exec_repliedOnce io sizes hc hx turns).2 ret turns' z hz
      rw [ih hz' hrest]
      exact and_congr_left fun _ => iff_of_true hstep hc
    · refine iff_of_false (fun hall => ?_) fun hall => hc hall.1
      cases c with
      | getMountPoint old new =>
        have hlen := unread_getMountPoint (x := { x with asked := [], got := [] }) hx hz
        have hnil : z.unread p = [] := hall.1.empty
        rw [hnil] at hlen
        cases hlen
      | _ => exact hc trivial

/-- **Requests and replies stay in step** as long as the client does not ask for a mount point.
Calls made on an empty socket never wait for a reply that does not come; and of those that
return, each got one reply of the size it reads to each of its requests, returned the value the
daemon computed, and left nothing on the socket, if and only if none of them is
`scepfsdGetMountPoint`. -/
theorem replies_in_step {cs : List ClientCall} {turns : List Turn} {x : Session σ}
    (hx : x.consumed = (x.daemon.stream p).length) :
    ((∀ c ∈ cs, c.RepliedOnce) → execCalls io p sizes cs turns x ≠ .blocked) ∧
    ∀ as y, execCalls io p sizes cs turns x = .returned (as, y) →
      as.map Answered.call = cs ∧
        ((∀ a ∈ as, a.InStep sizes) ↔ ∀ c ∈ cs, c.RepliedOnce) :=
  ⟨execCalls_ne_blocked hx, fun _ _ h => ⟨execCalls_calls h, execCalls_inStep hx h⟩⟩

end Calls

/-! ## 8. A client that is answered, and one that is not -/

/-- Client 5 of a daemon over the small iomanX. -/
def connected : Session (SmallWorld CStr) where
  daemon := (run (handle (smallIomanx id)) [.connect ⟨5, 9, 0, 0x20000⟩] (start 4 [] {})).getD
    (start 4 [] {})

/-- The client opens a file and reads from it; another client connects in between. -/
def openRead : Outcome (List Answered × Session (SmallWorld CStr)) :=
  execCalls (smallIomanx id) 5 ⟨64, 320, 8⟩ [.open (ascii ['a']) 0 0, .read 3 0 true 20]
    [{}, { others := [.connect ⟨6, 10, 0, 0x20000⟩] }] connected

theorem replies_in_step_read : ∃ as y, openRead = .returned (as, y) ∧
    (∀ a ∈ as, a.InStep ⟨64, 320, 8⟩) ∧ as.map Answered.ret = [0, 0] := by
  obtain ⟨as, y, h, hret⟩ : ∃ as y, openRead = .returned (as, y) ∧
      as.map Answered.ret = [0, 0] := ⟨_, _, rfl, by decide⟩
  have hx : connected.consumed = (connected.daemon.stream 5).length := by decide
  refine ⟨as, y, h, ((replies_in_step hx).2 as y h).2.mpr fun c hc => ?_, hret⟩
  rcases List.mem_cons.mp hc with rfl | hc
  · trivial
  · obtain rfl := List.mem_singleton.mp hc
    trivial

/-- The mount point is asked for, then whether there is read-ahead.  The second call reads what
is left of the first one's replies. -/
theorem replies_out_of_step : ∃ as y,
    execCalls (smallIomanx id) 5 ⟨64, 320, 8⟩
      [.getMountPoint (ascii ['A']) true, .getReadAhead] [{ choice := { rpcret := 7 } }] connected =
        .returned (as, y) ∧
      as.map (fun a => (a.ret, a.asked.map Asked.computed)) =
        [(-19, [some (-19)]), (7, [some 0])] :=
  ⟨_, _, rfl, by decide⟩

end PfsShell.Pfsd
