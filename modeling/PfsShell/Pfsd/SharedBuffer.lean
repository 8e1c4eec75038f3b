/-
# The shared memory, client by client

Any number of clients run their functions against one daemon (`move`).  A client's step is one
action of its function; the daemon's are the three of `event_handler_func`: it reads a request,
runs it, and writes the reply; a new client may connect, and a client may die at any point, which
gives its lock back (`SEM_UNDO`) and leaves its request where it is.

From its lock to its unlock a client goes through what `Sits` lists: it has copied in, its
request is on the socket, with the daemon, answered.  Only one client is there at a time, so the
shared memory is that client's, unless the daemon runs the request of a client that has died.

* `shared_buffer_of_run`: as long as no request of a dead client is run while a client holds the
  lock, iomanX sees in the shared memory what the client copied in for the request, and the client
  copies out what the daemon left there for it;
* `shared_buffer_overwritten`: the read of a dead client in what another one has copied in.
-/
import PfsShell.Pfsd.Protocol

namespace PfsShell.Pfsd

open PfsShell.Lib

/-! ## 1. Clients beside the daemon -/

/-- The client on a socket: what is left of its function, whether it lives, and both directions
of the socket.  `copied` is what it copied in since it took the lock, and `left` the shared memory
as the daemon left it for its request. -/
structure Peer where
  prog : Prog := .done 0
  alive : Bool := false
  requests : List Request := []
  replies : List UInt8 := []
  copied : Mem := []
  left : Option Mem := none

/-- Where the daemon is in `event_handler_func`. -/
inductive Doing
  | polling
  | serving (pfd : ℕ) (req : Request)
  | answering (p : CInt) (bytes : List UInt8)

/-- The daemon and its clients.  `lock` is the client that has taken the semaphore. -/
structure Crowd (σ : Type) where
  lock : Option CInt := none
  peers : CInt → Peer := fun _ => {}
  daemon : Daemon σ
  doing : Doing := .polling

/-- The steps. -/
inductive Move
  | call (p : CInt) (c : ClientCall)
  | act (p : CInt)
  | die (p : CInt)
  | read (pfd : ℕ)
  | run (choice : Choice)
  | reply
  | connect (a : Accept)
  | hangup (pfd fuel : ℕ)

section Moves

variable {σ : Type} (io : IomanX σ) (sizes : Sizes)

/-- Client `p` is `x` now. -/
def Crowd.set (s : Crowd σ) (p : CInt) (x : Peer) : Crowd σ :=
  { s with peers := Function.update s.peers p x }

/-- One action of client `p`. -/
def Crowd.act (p : CInt) (s : Crowd σ) : Option (Crowd σ) :=
  let x := s.peers p
  match x.prog with
  | .done _ => none
  | .outOfFuel => none
  | .requireLock next =>
    if s.lock = none then
      some { s.set p { x with prog := next, copied := [], left := none } with lock := some p }
    else none
  | .releaseLock next => some { s.set p { x with prog := next } with lock := none }
  | .copyIn bytes next =>
    some { s.set p { x with prog := next, copied := bytes } with
      daemon := { s.daemon with shm := bytes ++ s.daemon.shm.drop bytes.length } }
  | .copyOut _ next => some (s.set p { x with prog := next })
  | .sendRequest req next =>
    some (s.set p { x with prog := next, requests := x.requests ++ [req] })
  | .receiveReply size next =>
    let bytes := x.replies.take size
    if bytes = [] then none
    else some (s.set p { x with prog := next bytes, replies := x.replies.drop size })

/-- One step of a client or of the daemon. -/
def move : Move → Crowd σ → Option (Crowd σ)
  | .call p c, s =>
    match (s.peers p).prog, (s.peers p).alive with
    | .done _, true => some (s.set p { s.peers p with prog := c.prog sizes })
    | _, _ => none
  | .act p, s => if (s.peers p).alive then s.act p else none
  | .die p, s =>
    some { s.set p { s.peers p with alive := false } with
      lock := if s.lock = some p then none else s.lock }
  | .read pfd, s =>
    match s.doing with
    | .polling =>
      if pfd < s.daemon.gCurrentClientCount then
        let p := s.daemon.gConnectionPollfds pfd
        match (s.peers p).requests with
        | [] => none
        | req :: rest =>
          some { s.set p { s.peers p with requests := rest } with doing := .serving pfd req }
      else none
    | _ => none
  | .run choice, s =>
    match s.doing with
    | .serving pfd req =>
      let p := s.daemon.gConnectionPollfds pfd
      let d := (eventHandlerFunc io pfd choice (some req) s.daemon).2
      some { s.set p { s.peers p with left := some d.shm } with
        daemon := d
        doing := .answering p ((d.stream p).drop (s.daemon.stream p).length) }
    | _ => none
  | .reply, s =>
    match s.doing with
    | .answering p bytes =>
      some { s.set p { s.peers p with replies := (s.peers p).replies ++ bytes } with
        doing := .polling }
    | _ => none
  | .connect a, s =>
    match s.doing with
    | .polling =>
      -- a socket gets its number when nobody has it; a client that is refused is none
      if (s.peers a.s).alive then none
      else (handle io (.connect a) s.daemon).map fun d =>
        { s.set a.s { alive := decide (a.s ∈ d.clients) } with daemon := d }
    | _ => none
  | .hangup pfd fuel, s =>
    match s.doing with
    | .polling =>
      if (s.peers (s.daemon.gConnectionPollfds pfd)).alive then none
      else (handle io (.hangup pfd fuel) s.daemon).map fun d => { s with daemon := d }
    | _ => none

/-- **What the clients rely on.**  When the request of a living client is run, the shared memory
begins with what the client copied in; and what a client copies out is what the daemon left for
its request. -/
def Faithful (m : Move) (s : Crowd σ) : Prop :=
  match m with
  | .run _ => ∀ pfd req, s.doing = .serving pfd req →
      (s.peers (s.daemon.gConnectionPollfds pfd)).alive = true →
      s.daemon.shm.take (s.peers (s.daemon.gConnectionPollfds pfd)).copied.length =
        (s.peers (s.daemon.gConnectionPollfds pfd)).copied
  | .act p => ∀ n next, (s.peers p).alive = true → (s.peers p).prog = .copyOut n next →
      some (s.daemon.shm.take n) = (s.peers p).left.map (List.take n)
  | _ => True

/-- No request of a dead client is run while a client holds the lock. -/
def DeadRunAlone (m : Move) (s : Crowd σ) : Prop :=
  match m with
  | .run _ => ∀ pfd req, s.doing = .serving pfd req →
      (s.peers (s.daemon.gConnectionPollfds pfd)).alive = false → s.lock = none
  | _ => True

instance (m : Move) (s : Crowd σ) : Decidable (DeadRunAlone m s) :=
  match m with
  | .run _ =>
    match h : s.doing with
    | .serving pfd _ =>
      decidable_of_iff ((s.peers (s.daemon.gConnectionPollfds pfd)).alive = false → s.lock = none)
        (by simp [DeadRunAlone, h])
    | .polling => .isTrue (by simp [DeadRunAlone, h])
    | .answering _ _ => .isTrue (by simp [DeadRunAlone, h])
  | .call .. | .act _ | .die _ | .read _ | .reply | .connect _ | .hangup .. => .isTrue trivial

end Moves

/-! ## 2. Functions that hold the lock from the first copy to the last -/

/-- The parts of a function: without the lock, with it, waiting for the reply, and after it. -/
inductive Part
  | out
  | locked
  | waiting
  | replied

/-- The function takes the lock, copies in, sends one request, reads a reply of `n` bytes, copies
out and gives the lock back, any number of times. -/
def Prog.Locks (n : ℕ) : Part → Prog → Prop
  | .out, .done _ => True
  | .out, .outOfFuel => True
  | .out, .requireLock next => next.Locks n .locked
  | .locked, .copyIn _ next => next.Locks n .locked
  | .locked, .sendRequest req next => req.Replied ∧ req.replySize = n ∧ next.Locks n .waiting
  | .waiting, .receiveReply size next => size = n ∧ ∀ bytes, (next bytes).Locks n .replied
  | .replied, .copyOut _ next => next.Locks n .replied
  | .replied, .releaseLock next => next.Locks n .out
  | _, _ => False

section Parts

variable {n : ℕ} {part : Part} {next : Prog}

theorem Prog.Locks.of_requireLock (h : (Prog.requireLock next).Locks n part) : part = .out := by
  cases part <;> first | rfl | exact h.elim

theorem Prog.Locks.of_releaseLock (h : (Prog.releaseLock next).Locks n part) : part = .replied := by
  cases part <;> first | rfl | exact h.elim

theorem Prog.Locks.of_copyIn {bytes : Mem} (h : (Prog.copyIn bytes next).Locks n part) :
    part = .locked := by
  cases part <;> first | rfl | exact h.elim

theorem Prog.Locks.of_copyOut {k : ℕ} (h : (Prog.copyOut k next).Locks n part) :
    part = .replied := by
  cases part <;> first | rfl | exact h.elim

theorem Prog.Locks.of_sendRequest {req : Request} (h : (Prog.sendRequest req next).Locks n part) :
    part = .locked := by
  cases part <;> first | rfl | exact h.elim

end Parts

theorem locks_copyArg {n : ℕ} {next : Prog} (h : next.Locks n .locked) :
    ∀ arg : Option Mem, (copyArg arg next).Locks n .locked
  | none => h
  | some _ => h

theorem locks_copyBuf {n : ℕ} {next : Prog} (h : next.Locks n .replied) (buf : Bool) (k : ℕ) :
    (copyBuf buf k next).Locks n .replied := by
  cases buf with
  | false => exact h
  | true => exact h

theorem locks_request {req : Request} {next : CInt → Prog} (hreq : req.Replied)
    (hsize : req.replySize = 4) (h : ∀ ret, (next ret).Locks 4 .replied) :
    (request req next).Locks 4 .locked :=
  ⟨hreq, hsize, rfl, fun _ => h _⟩

theorem locks_exchange {req : Request} (hreq : req.Replied) (hsize : req.replySize = 4)
    (arg : Option Mem) (buf : Bool) (k : ℕ) : (exchange arg req buf k).Locks 4 .out :=
  locks_copyArg (locks_request hreq hsize fun _ => locks_copyBuf (by exact trivial) buf k) arg

theorem locks_requireLock {n : ℕ} {next : Prog} (h : next.Locks n .locked) :
    (Prog.requireLock next).Locks n .out := h

theorem locks_releaseLock {n : ℕ} {next : Prog} (h : next.Locks n .out) :
    (Prog.releaseLock next).Locks n .replied := h

theorem locks_readChunk {fd : CInt} {ptr : Bool} {size : UInt64} {next : CInt → Prog}
    (h : ∀ ret, (next ret).Locks 4 .out) : (readChunk fd ptr size next).Locks 4 .out := by
  unfold readChunk
  refine locks_requireLock (locks_request ?_ rfl fun ret => ?_)
  · trivial
  · exact locks_copyBuf (locks_releaseLock (h ret)) ptr _

theorem locks_writeChunk {fd : CInt} {ptr : Option Mem} {size : UInt64} {next : CInt → Prog}
    (h : ∀ ret, (next ret).Locks 4 .out) : (writeChunk fd ptr size next).Locks 4 .out := by
  unfold writeChunk
  refine locks_requireLock (locks_copyArg (locks_request ?_ rfl fun ret => ?_) _)
  · trivial
  · exact locks_releaseLock (h ret)

theorem locks_scepfsdReadFrom {sizes : Sizes} {fd : CInt} {ptr : Bool} {size : UInt64} :
    ∀ (fuel : ℕ) (chunkedSize : CInt),
      (scepfsdReadFrom sizes fd ptr size fuel chunkedSize).Locks 4 .out
  | 0, _ => trivial
  | fuel + 1, chunkedSize => by
    unfold scepfsdReadFrom
    split
    · refine locks_readChunk fun result => ?_
      split
      · trivial
      · split
        · trivial
        · exact locks_scepfsdReadFrom fuel _
    · exact locks_readChunk fun _ => trivial

theorem locks_scepfsdWriteFrom {sizes : Sizes} {fd : CInt} {ptr : Option Mem} {size : UInt64} :
    ∀ (fuel : ℕ) (chunkedSize : CInt),
      (scepfsdWriteFrom sizes fd ptr size fuel chunkedSize).Locks 4 .out
  | 0, _ => trivial
  | fuel + 1, chunkedSize => by
    unfold scepfsdWriteFrom
    split
    · refine locks_writeChunk fun result => ?_
      split
      · trivial
      · split
        · trivial
        · exact locks_scepfsdWriteFrom fuel _
    · exact locks_writeChunk fun _ => trivial

/-- **Every function but `scepfsdGetMountPoint` keeps the lock from its first copy to its last,
with one request and its reply in between.** -/
theorem ClientCall.locks (sizes : Sizes) {c : ClientCall} (hc : c.RepliedOnce) :
    (c.prog sizes).Locks c.replySize .out := by
  cases c with
  | lseek64 fd offset whence => exact ⟨trivial, rfl, rfl, fun _ => trivial⟩
  | read fuel fd ptr size => exact locks_scepfsdReadFrom fuel 0
  | write fuel fd ptr size => exact locks_scepfsdWriteFrom fuel 0
  | ioctl2 fd command arg arglen buf buflen xfer =>
    simp only [prog, scepfsdIoctl2]
    split
    · split
      · trivial
      · exact locks_exchange (by trivial) (by rfl) _ _ _
    · exact locks_exchange (by trivial) (by rfl) _ _ _
  | getMountPoint oldmap newmap => exact hc.elim
  | _ => exact locks_exchange (by trivial) (by rfl) _ _ _

/-! ## 3. Where a client is between its lock and its unlock -/

/-- What the daemon is doing for a client. -/
inductive Job
  | idle
  | running (req : Request)
  | replying (bytes : List UInt8)

/-- What the daemon is doing for client `p`. -/
def Crowd.job {σ : Type} (s : Crowd σ) (p : CInt) : Job :=
  match s.doing with
  | .polling => .idle
  | .serving pfd req => if s.daemon.gConnectionPollfds pfd = p then .running req else .idle
  | .answering q bytes => if q = p then .replying bytes else .idle

/-- The places a client can be in, when its replies have `n` bytes.  `holds` says that it has the
lock, and `shm` is the shared memory. -/
inductive Sits (n : ℕ) (x : Peer) (shm : Mem) (holds : Prop) : Job → Prop
  | outside (hprog : x.prog.Locks n .out) (hholds : ¬ holds) (hreq : x.requests = [])
      (hrep : x.replies = []) : Sits n x shm holds .idle
  | inside (hprog : x.prog.Locks n .locked) (hholds : holds) (hreq : x.requests = [])
      (hrep : x.replies = []) (hcopied : shm.take x.copied.length = x.copied) :
      Sits n x shm holds .idle
  | sent (req : Request) (hprog : x.prog.Locks n .waiting) (hholds : holds)
      (hreq : x.requests = [req]) (hreplied : req.Replied) (hsize : req.replySize = n)
      (hrep : x.replies = []) (hcopied : shm.take x.copied.length = x.copied) :
      Sits n x shm holds .idle
  | handled (req : Request) (hprog : x.prog.Locks n .waiting) (hholds : holds)
      (hreq : x.requests = []) (hreplied : req.Replied) (hsize : req.replySize = n)
      (hrep : x.replies = []) (hcopied : shm.take x.copied.length = x.copied) :
      Sits n x shm holds (.running req)
  | answered (bytes : List UInt8) (hprog : x.prog.Locks n .waiting) (hholds : holds)
      (hreq : x.requests = []) (hrep : x.replies = []) (hlen : bytes.length = n)
      (hleft : x.left = some shm) : Sits n x shm holds (.replying bytes)
  | replied (hprog : x.prog.Locks n .waiting) (hholds : holds) (hreq : x.requests = [])
      (hlen : x.replies.length = n) (hleft : x.left = some shm) : Sits n x shm holds .idle
  | copying (hprog : x.prog.Locks n .replied) (hholds : holds) (hreq : x.requests = [])
      (hrep : x.replies = []) (hleft : x.left = some shm) : Sits n x shm holds .idle

/-- The invariant: every living client sits somewhere, and the lock is a living client's. -/
structure Orderly {σ : Type} (s : Crowd σ) : Prop where
  sits : ∀ p, (s.peers p).alive = true →
    ∃ n ≠ 0, Sits n (s.peers p) s.daemon.shm (s.lock = some p) (s.job p)
  owner : ∀ p, s.lock = some p → (s.peers p).alive = true

section Places

variable {n : ℕ} {x : Peer} {shm shm' : Mem} {holds holds' : Prop} {j : Job}

/-- The shared memory may change under a client that does not have the lock. -/
theorem Sits.frame (h : Sits n x shm holds j) (hholds : holds' ↔ holds)
    (hshm : holds → shm' = shm) : Sits n x shm' holds' j := by
  cases h with
  | outside hprog hnot hreq hrep => exact .outside hprog (fun h' => hnot (hholds.mp h')) hreq hrep
  | inside hprog hh hreq hrep hcopied =>
    rw [hshm hh]
    exact .inside hprog (hholds.mpr hh) hreq hrep hcopied
  | sent req hprog hh hreq hreplied hsize hrep hcopied =>
    rw [hshm hh]
    exact .sent req hprog (hholds.mpr hh) hreq hreplied hsize hrep hcopied
  | handled req hprog hh hreq hreplied hsize hrep hcopied =>
    rw [hshm hh]
    exact .handled req hprog (hholds.mpr hh) hreq hreplied hsize hrep hcopied
  | answered bytes hprog hh hreq hrep hlen hleft =>
    rw [hshm hh]
    exact .answered bytes hprog (hholds.mpr hh) hreq hrep hlen hleft
  | replied hprog hh hreq hlen hleft =>
    rw [hshm hh]
    exact .replied hprog (hholds.mpr hh) hreq hlen hleft
  | copying hprog hh hreq hrep hleft =>
    rw [hshm hh]
    exact .copying hprog (hholds.mpr hh) hreq hrep hleft

/-- A client that takes the lock next is outside. -/
theorem Sits.of_requireLock (h : Sits n x shm holds j) {next : Prog}
    (hprog : x.prog = .requireLock next) :
    j = .idle ∧ ¬ holds ∧ next.Locks n .locked ∧ x.requests = [] ∧ x.replies = [] := by
  cases h with
  | outside hpart hnot hreq hrep =>
    rw [hprog] at hpart
    exact ⟨rfl, hnot, hpart, hreq, hrep⟩
  | _ => simp_all [Prog.Locks]

/-- A client that copies in or sends next has the lock and has asked nothing. -/
theorem Sits.of_locked (h : Sits n x shm holds j)
    (hlocked : ∀ part, x.prog.Locks n part → part = .locked) :
    j = .idle ∧ holds ∧ x.prog.Locks n .locked ∧ x.requests = [] ∧ x.replies = [] ∧
      shm.take x.copied.length = x.copied := by
  cases h with
  | inside hpart hholds hreq hrep hcopied => exact ⟨rfl, hholds, hpart, hreq, hrep, hcopied⟩
  | outside hpart => cases hlocked _ hpart
  | sent _ hpart => cases hlocked _ hpart
  | handled _ hpart => cases hlocked _ hpart
  | answered _ hpart => cases hlocked _ hpart
  | replied hpart => cases hlocked _ hpart
  | copying hpart => cases hlocked _ hpart

/-- A client that copies out or gives the lock back next has its reply. -/
theorem Sits.of_replied (h : Sits n x shm holds j)
    (hreplied : ∀ part, x.prog.Locks n part → part = .replied) :
    j = .idle ∧ holds ∧ x.prog.Locks n .replied ∧ x.requests = [] ∧ x.replies = [] ∧
      x.left = some shm := by
  cases h with
  | copying hpart hholds hreq hrep hleft => exact ⟨rfl, hholds, hpart, hreq, hrep, hleft⟩
  | outside hpart => cases hreplied _ hpart
  | inside hpart => cases hreplied _ hpart
  | sent _ hpart => cases hreplied _ hpart
  | handled _ hpart => cases hreplied _ hpart
  | answered _ hpart => cases hreplied _ hpart
  | replied hpart => cases hreplied _ hpart

/-- A client that reads its reply has one on the socket. -/
theorem Sits.of_receiveReply (h : Sits n x shm holds j) {size : ℕ} {next : List UInt8 → Prog}
    (hprog : x.prog = .receiveReply size next) (hne : x.replies ≠ []) :
    j = .idle ∧ holds ∧ size = n ∧ (∀ bytes, (next bytes).Locks n .replied) ∧ x.requests = [] ∧
      x.replies.length = n ∧ x.left = some shm := by
  cases h with
  | replied hpart hholds hreq hlen hleft =>
    rw [hprog] at hpart
    exact ⟨rfl, hholds, hpart.1, hpart.2, hreq, hlen, hleft⟩
  | _ => simp_all

end Places

/-! ## 4. The invariant is kept -/

section Steps

variable {σ : Type} {io : IomanX σ} {sizes : Sizes} {s s' : Crowd σ} {p q : CInt}

@[simp] theorem Crowd.set_peers_self (x : Peer) : (s.set p x).peers p = x :=
  Function.update_self ..

@[simp] theorem Crowd.set_peers_of_ne (h : q ≠ p) (x : Peer) :
    (s.set p x).peers q = s.peers q :=
  Function.update_of_ne h ..

/-- **The frame rule of the crowd**: a step at client `p` leaves every other client where it is,
when their jobs and their hold on the lock stay, and the shared memory of one that has the lock. -/
theorem Orderly.step (h : Orderly s)
    (hself : (s'.peers p).alive = true →
      ∃ n ≠ 0, Sits n (s'.peers p) s'.daemon.shm (s'.lock = some p) (s'.job p))
    (hpeers : ∀ q, q ≠ p → s'.peers q = s.peers q)
    (hjob : ∀ q, q ≠ p → (s.peers q).alive = true → s'.job q = s.job q)
    (hlock : ∀ q, q ≠ p → (s'.lock = some q ↔ s.lock = some q))
    (hshm : ∀ q, q ≠ p → s.lock = some q → s'.daemon.shm = s.daemon.shm)
    (howner : s'.lock = some p → (s'.peers p).alive = true) : Orderly s' where
  sits q hq := by
    by_cases hqp : q = p
    · subst hqp
      exact hself hq
    · rw [hpeers q hqp] at hq ⊢
      obtain ⟨n, hn, hsits⟩ := h.sits q hq
      rw [hjob q hqp hq]
      exact ⟨n, hn, hsits.frame (hlock q hqp) (hshm q hqp)⟩
  owner q hq := by
    by_cases hqp : q = p
    · subst hqp
      exact howner hq
    · rw [hpeers q hqp]
      exact h.owner q ((hlock q hqp).mp hq)

/-- Client `p` has acted: it is `x` now, with another hold on the lock and another shared memory,
while the daemon does what it did. -/
theorem Orderly.acted (h : Orderly s) {n : ℕ} (hn : n ≠ 0) {x : Peer} {l : Option CInt}
    {m : Mem} (halive : x.alive = true) (hsits : Sits n x m (l = some p) (s.job p))
    (hlock : ∀ q, q ≠ p → (l = some q ↔ s.lock = some q))
    (hshm : ∀ q, q ≠ p → s.lock = some q → m = s.daemon.shm) :
    Orderly { s.set p x with lock := l, daemon := { s.daemon with shm := m } } := by
  have hx : (s.set p x).peers p = x := Crowd.set_peers_self x
  refine h.step (p := p) (fun _ => ⟨n, hn, ?_⟩) (fun q hq => Crowd.set_peers_of_ne hq x)
    (fun q _ _ => rfl) hlock hshm fun _ => ?_
  · show Sits n ((s.set p x).peers p) m (l = some p) (s.job p)
    rw [hx]
    exact hsits
  · show ((s.set p x).peers p).alive = true
    rw [hx]
    exact halive

/-- An action of a living client. -/
theorem Orderly.act (h : Orderly s) (halive : (s.peers p).alive = true)
    (hact : s.act p = some s') : Orderly s' := by
  obtain ⟨n, hn, hsits⟩ := h.sits p halive
  have hself : ∀ q, q ≠ p → (s.lock = some q ↔ s.lock = some q) := fun _ _ => Iff.rfl
  have hmem : ∀ q, q ≠ p → s.lock = some q → s.daemon.shm = s.daemon.shm := fun _ _ _ => rfl
  obtain ⟨x, hx⟩ : ∃ x, s.peers p = x := ⟨_, rfl⟩
  rw [hx] at halive hsits
  simp only [Crowd.act, hx] at hact
  obtain ⟨prog, hprog⟩ : ∃ prog, x.prog = prog := ⟨_, rfl⟩
  rw [hprog] at hact
  cases prog with
  | done ret => cases hact
  | outOfFuel => cases hact
  | requireLock next =>
    obtain ⟨hidle, -, hpart, hreq, hrep⟩ := hsits.of_requireLock hprog
    obtain ⟨hfree, hact⟩ := Option.ite_none_right_eq_some.mp hact
    obtain rfl := Option.some.inj hact
    refine h.acted hn (m := s.daemon.shm) halive ?_ (fun q hq => ?_) hmem
    · rw [hidle]
      exact .inside hpart rfl hreq hrep rfl
    · rw [hfree]
      simp [Ne.symm hq]
  | releaseLock next =>
    obtain ⟨hidle, hholds, hpart, hreq, hrep, -⟩ := hsits.of_replied fun _ hpart =>
      (hprog ▸ hpart).of_releaseLock
    obtain rfl := Option.some.inj hact
    rw [hprog] at hpart
    refine h.acted hn (m := s.daemon.shm) halive ?_ (fun q hq => ?_) hmem
    · rw [hidle]
      exact .outside hpart (by simp) hreq hrep
    · simp [hholds, Ne.symm hq]
  | copyIn bytes next =>
    obtain ⟨hidle, hholds, hpart, hreq, hrep, -⟩ := hsits.of_locked fun _ hpart =>
      (hprog ▸ hpart).of_copyIn
    obtain rfl := Option.some.inj hact
    rw [hprog] at hpart
    refine h.acted hn (l := s.lock) halive ?_ hself fun q hq hlock => ?_
    · rw [hidle]
      exact .inside hpart hholds hreq hrep List.take_left
    · exact absurd (Option.some.inj (hholds.symm.trans hlock)) (Ne.symm hq)
  | copyOut k next =>
    obtain ⟨hidle, hholds, hpart, hreq, hrep, hleft⟩ := hsits.of_replied fun _ hpart =>
      (hprog ▸ hpart).of_copyOut
    obtain rfl := Option.some.inj hact
    rw [hprog] at hpart
    refine h.acted hn (l := s.lock) (m := s.daemon.shm) halive ?_ hself hmem
    rw [hidle]
    exact .copying hpart hholds hreq hrep hleft
  | sendRequest req next =>
    obtain ⟨hidle, hholds, hpart, hreq, hrep, hcopied⟩ := hsits.of_locked fun _ hpart =>
      (hprog ▸ hpart).of_sendRequest
    obtain rfl := Option.some.inj hact
    rw [hprog] at hpart
    refine h.acted hn (l := s.lock) (m := s.daemon.shm) halive ?_ hself hmem
    rw [hidle]
    refine .sent req hpart.2.2 hholds ?_ hpart.1 hpart.2.1 hrep hcopied
    simp only [hreq, List.nil_append]
  | receiveReply size next =>
    obtain ⟨hne, hact⟩ := Option.ite_none_left_eq_some.mp hact
    obtain ⟨hidle, hholds, hsize, hnext, hreq, hlen, hleft⟩ := hsits.of_receiveReply hprog
      fun hnil => hne (by rw [hnil, List.take_nil])
    obtain rfl := Option.some.inj hact
    refine h.acted hn (l := s.lock) (m := s.daemon.shm) halive ?_ hself hmem
    rw [hidle]
    refine .copying (hnext _) hholds hreq ?_ hleft
    simp only [hsize, ← hlen, List.drop_length]

/-! ## 5. The daemon's steps -/

/-- A cleanup does not write to the shared memory. -/
theorem CleanupAct.shm {d d' : Daemon σ} (h : CleanupAct io p d d') : d'.shm = d.shm := by
  cases h with
  | closed fd =>
    simp only [rpcCommandClose, closeCommon]
    split <;> rfl
  | unmounted fsname =>
    simp only [rpcCommandUmount]
    split
    · rfl
    · split
      · rfl
      · split
        · split <;> rfl
        · split <;> rfl

theorem CleanupActs.shm {d d' : Daemon σ} (h : CleanupActs io p d d') : d'.shm = d.shm := by
  induction h with
  | refl => rfl
  | tail _ hact ih => exact hact.shm.trans ih

/-- What is written for a request of client `p`. -/
theorem eventHandlerFunc_written {pfd : ℕ} {choice : Choice} {req : Request} {d : Daemon σ}
    (hreq : req.Replied) :
    (((eventHandlerFunc io pfd choice (some req) d).2.stream (d.gConnectionPollfds pfd)).drop
      (d.stream (d.gConnectionPollfds pfd)).length).length = req.replySize := by
  have harm : Arm io _ choice d (some req) _ := eventHandlerFunc_arm pfd choice (some req) d
  obtain ⟨bytes, hsent, hlen, -⟩ := harm.reply hreq
  rw [stream_append hsent, List.drop_left]
  simpa using hlen

theorem Orderly.die (h : Orderly s) (hmove : move io sizes (.die p) s = some s') :
    Orderly s' := by
  obtain rfl := Option.some.inj hmove
  have hdead : ¬ ((s.set p { s.peers p with alive := false }).peers p).alive = true := by simp
  refine h.step (p := p) (fun hp => absurd hp hdead) (fun q hq => Crowd.set_peers_of_ne hq _)
    (fun _ _ _ => rfl) (fun q hq => ?_) (fun _ _ _ => rfl) fun hp => ?_
  · show (if s.lock = some p then none else s.lock) = some q ↔ s.lock = some q
    split
    · rename_i hp
      simp [hp, Ne.symm hq]
    · rfl
  · exfalso
    change (if s.lock = some p then none else s.lock) = some p at hp
    split at hp
    · cases hp
    · contradiction

/-- With the daemon polling, every place is one without a job. -/
theorem Crowd.job_polling (h : s.doing = .polling) (q : CInt) : s.job q = .idle := by
  simp only [Crowd.job, h]

theorem Orderly.read {pfd : ℕ} (h : Orderly s) (hmove : move io sizes (.read pfd) s = some s') :
    Orderly s' := by
  obtain ⟨p, hp⟩ : ∃ p, s.daemon.gConnectionPollfds pfd = p := ⟨_, rfl⟩
  simp only [move, hp] at hmove
  split at hmove
  · rename_i hdoing
    split at hmove
    · split at hmove
      · cases hmove
      · rename_i req rest hreqs
        obtain rfl := Option.some.inj hmove
        obtain ⟨x, hx⟩ : ∃ x, x = { s.peers p with requests := rest } := ⟨_, rfl⟩
        have hself : (s.set p x).peers p = x := Crowd.set_peers_self x
        rw [← hx]
        refine h.step (p := p) (fun hlive => ?_) (fun q hq => Crowd.set_peers_of_ne hq x)
          (fun q hq _ => ?_) (fun _ _ => Iff.rfl) (fun _ _ _ => rfl) fun hlock => ?_
        · change ((s.set p x).peers p).alive = true at hlive
          rw [hself, hx] at hlive
          obtain ⟨n, hn, hsits⟩ := h.sits p hlive
          rw [Crowd.job_polling hdoing] at hsits
          have hjob : Crowd.job { s.set p x with doing := .serving pfd req } p = .running req :=
            if_pos hp
          refine ⟨n, hn, ?_⟩
          show Sits n ((s.set p x).peers p) s.daemon.shm (s.lock = some p) _
          rw [hself, hjob, hx]
          cases hsits with
          | sent req' hprog hholds hreq hreplied hsize hrep hcopied =>
            obtain ⟨rfl, rfl⟩ := List.cons.inj (hreqs.symm.trans hreq)
            exact .handled req hprog hholds rfl hreplied hsize hrep hcopied
          | _ => simp_all
        · rw [Crowd.job_polling hdoing q]
          exact if_neg fun he => hq (he.symm.trans hp)
        · show ((s.set p x).peers p).alive = true
          rw [hself, hx]
          exact h.owner p hlock
    · cases hmove
  · cases hmove

theorem Orderly.run {choice : Choice} (h : Orderly s) (hdead : DeadRunAlone (.run choice) s)
    (hmove : move io sizes (.run choice) s = some s') : Orderly s' := by
  simp only [move] at hmove
  split at hmove
  · rename_i pfd req hdoing
    obtain ⟨p, hp⟩ : ∃ p, s.daemon.gConnectionPollfds pfd = p := ⟨_, rfl⟩
    obtain ⟨d, hd⟩ : ∃ d, d = (eventHandlerFunc io pfd choice (some req) s.daemon).2 := ⟨_, rfl⟩
    obtain ⟨x, hx⟩ : ∃ x, x = { s.peers p with left := some d.shm } := ⟨_, rfl⟩
    obtain ⟨bytes, hb⟩ :
      ∃ bytes, bytes = (d.stream p).drop (s.daemon.stream p).length := ⟨_, rfl⟩
    have hself : (s.set p x).peers p = x := Crowd.set_peers_self x
    rw [hp, ← hd, ← hx, ← hb] at hmove
    obtain rfl := Option.some.inj hmove
    have hjob : ∀ q, s.job q = if p = q then .running req else .idle := by
      intro q
      simp only [Crowd.job, hdoing, hp]
    refine h.step (p := p) (fun hlive => ?_) (fun q hq => Crowd.set_peers_of_ne hq x)
      (fun q hq _ => ?_) (fun _ _ => Iff.rfl) (fun q hq hlock => ?_) fun hlock => ?_
    · change ((s.set p x).peers p).alive = true at hlive
      rw [hself, hx] at hlive
      obtain ⟨n, hn, hsits⟩ := h.sits p hlive
      refine ⟨n, hn, ?_⟩
      show Sits n ((s.set p x).peers p) d.shm (s.lock = some p)
        (if p = p then Job.replying bytes else .idle)
      rw [hself, if_pos rfl]
      rw [hjob p, if_pos rfl] at hsits
      cases hsits with
      | handled _ hprog hholds hreq hreplied hsize hrep hcopied =>
        have hlen : bytes.length = n := by
          rw [hb, hd, ← hp, eventHandlerFunc_written hreplied, hsize]
        rw [hx]
        exact .answered bytes hprog hholds hreq hrep hlen rfl
    · rw [hjob q, if_neg (Ne.symm hq)]
      exact if_neg (Ne.symm hq)
    · -- only the request of the holder is run while there is one
      exfalso
      cases hlive : (s.peers p).alive with
      | false =>
        rw [hdead pfd req hdoing (hp ▸ hlive)] at hlock
        cases hlock
      | true =>
        obtain ⟨n, hn, hsits⟩ := h.sits p hlive
        rw [hjob p, if_pos rfl] at hsits
        cases hsits with
        | handled _ hprog hholds hreq hreplied hsize hrep hcopied =>
          exact hq (Option.some.inj (hlock.symm.trans hholds))
    · show ((s.set p x).peers p).alive = true
      rw [hself, hx]
      exact h.owner p hlock
  · cases hmove

theorem Orderly.reply (h : Orderly s) (hmove : move io sizes .reply s = some s') :
    Orderly s' := by
  simp only [move] at hmove
  split at hmove
  · rename_i p bytes hdoing
    obtain rfl := Option.some.inj hmove
    obtain ⟨x, hx⟩ :
      ∃ x, x = { s.peers p with replies := (s.peers p).replies ++ bytes } := ⟨_, rfl⟩
    have hself : (s.set p x).peers p = x := Crowd.set_peers_self x
    have hjob : ∀ q, s.job q = if p = q then .replying bytes else .idle := by
      intro q
      simp only [Crowd.job, hdoing]
    rw [← hx]
    refine h.step (p := p) (fun hlive => ?_) (fun q hq => Crowd.set_peers_of_ne hq x)
      (fun q hq _ => ?_) (fun _ _ => Iff.rfl) (fun _ _ _ => rfl) fun hlock => ?_
    · change ((s.set p x).peers p).alive = true at hlive
      rw [hself, hx] at hlive
      obtain ⟨n, hn, hsits⟩ := h.sits p hlive
      refine ⟨n, hn, ?_⟩
      show Sits n ((s.set p x).peers p) s.daemon.shm (s.lock = some p) .idle
      rw [hself, hx]
      rw [hjob p, if_pos rfl] at hsits
      cases hsits with
      | answered _ hprog hholds hreq hrep hlen hleft =>
        refine .replied hprog hholds hreq ?_ hleft
        simp only [hrep, List.nil_append, hlen]
    · rw [hjob q, if_neg (Ne.symm hq)]
      rfl
    · show ((s.set p x).peers p).alive = true
      rw [hself, hx]
      exact h.owner p hlock
  · cases hmove

theorem Orderly.connect {a : Accept} (h : Orderly s)
    (hmove : move io sizes (.connect a) s = some s') : Orderly s' := by
  simp only [move] at hmove
  split at hmove
  · rename_i hdoing
    split at hmove
    · cases hmove
    · rename_i hdead
      obtain ⟨d, hd, rfl⟩ := Option.map_eq_some_iff.mp hmove
      have hshm : d.shm = s.daemon.shm := by
        rcases handle_cases hd with ⟨_, -, -, rfl⟩ | ⟨_, _, _, he, -⟩ | ⟨_, _, _, he, -⟩
        · rfl
        · cases he
        · cases he
      obtain ⟨x, hx⟩ : ∃ x : Peer, x = { alive := decide (a.s ∈ d.clients) } := ⟨_, rfl⟩
      have hself : (s.set a.s x).peers a.s = x := Crowd.set_peers_self x
      rw [← hx]
      have hlock : s.lock ≠ some a.s := fun hlock => hdead (h.owner a.s hlock)
      refine h.step (p := a.s) (fun _ => ⟨4, by decide, ?_⟩)
        (fun q hq => Crowd.set_peers_of_ne hq x) (fun q _ _ => ?_) (fun _ _ => Iff.rfl)
        (fun _ _ _ => hshm) fun hl => absurd hl hlock
      · show Sits 4 ((s.set a.s x).peers a.s) d.shm (s.lock = some a.s) _
        rw [hself, Crowd.job_polling (by exact hdoing), hx]
        exact .outside trivial hlock rfl rfl
      · rw [Crowd.job_polling hdoing, Crowd.job_polling (by exact hdoing)]
  · cases hmove

theorem Orderly.hangup {pfd fuel : ℕ} (h : Orderly s)
    (hmove : move io sizes (.hangup pfd fuel) s = some s') : Orderly s' := by
  simp only [move] at hmove
  split at hmove
  · rename_i hdoing
    split at hmove
    · cases hmove
    · obtain ⟨d, hd, rfl⟩ := Option.map_eq_some_iff.mp hmove
      have hshm : d.shm = s.daemon.shm := by
        rcases handle_cases hd with ⟨_, he, -⟩ | ⟨_, _, _, he, -⟩ | ⟨_, _, t, -, -, ht, rfl⟩
        · cases he
        · cases he
        · exact ht.shm
      refine ⟨fun q hq => ?_, h.owner⟩
      obtain ⟨n, hn, hsits⟩ := h.sits q hq
      rw [Crowd.job_polling hdoing] at hsits
      rw [Crowd.job_polling (by exact hdoing)]
      exact ⟨n, hn, hsits.frame Iff.rfl fun _ => hshm⟩
  · cases hmove

theorem Orderly.call {c : ClientCall} (hc : c.RepliedOnce) (h : Orderly s)
    (hmove : move io sizes (.call p c) s = some s') : Orderly s' := by
  simp only [move] at hmove
  split at hmove
  · rename_i ret hprog hlive
    obtain rfl := Option.some.inj hmove
    obtain ⟨n, hn, hsits⟩ := h.sits p hlive
    refine h.acted (n := c.replySize) (l := s.lock) (m := s.daemon.shm) ?_ hlive ?_
      (fun _ _ => Iff.rfl) fun _ _ _ => rfl
    · exact c.replySize_ne_zero
    · generalize s.job p = j at hsits
      cases hsits with
      | outside _ hnot hreq hrep => exact .outside (c.locks sizes hc) hnot hreq hrep
      | _ => simp_all [Prog.Locks]
  · cases hmove

/-- **A step of anybody keeps the crowd orderly.** -/
theorem Orderly.move {m : Move} (hcall : ∀ p c, m = .call p c → c.RepliedOnce) (h : Orderly s)
    (hdead : DeadRunAlone m s) (hmove : Pfsd.move io sizes m s = some s') : Orderly s' := by
  cases m with
  | call p c => exact h.call (hcall p c rfl) hmove
  | act p =>
    simp only [Pfsd.move] at hmove
    split at hmove
    · rename_i hlive
      exact h.act hlive hmove
    · cases hmove
  | die p => exact h.die hmove
  | read pfd => exact h.read hmove
  | run choice => exact h.run hdead hmove
  | reply => exact h.reply hmove
  | connect a => exact h.connect hmove
  | hangup pfd fuel => exact h.hangup hmove

/-- **In an orderly crowd every step meets what the clients rely on.** -/
theorem Orderly.faithful (h : Orderly s) (m : Move) : Faithful m s := by
  cases m with
  | run choice =>
    intro pfd req hdoing hlive
    obtain ⟨n, -, hsits⟩ := h.sits _ hlive
    have hjob : s.job (s.daemon.gConnectionPollfds pfd) = .running req := by
      simp only [Crowd.job, hdoing, if_pos]
    rw [hjob] at hsits
    cases hsits with
    | handled _ _ _ _ _ _ _ hcopied => exact hcopied
  | act p =>
    intro k next hlive hprog
    obtain ⟨n, -, hsits⟩ := h.sits p hlive
    generalize s.job p = j at hsits
    cases hsits with
    | copying _ _ _ _ hleft => rw [hleft, Option.map_some]
    | _ => simp_all [Prog.Locks]
  | _ => trivial

theorem orderly_start (d : Daemon σ) : Orderly ({ daemon := d } : Crowd σ) where
  sits _ hlive := absurd hlive Bool.false_ne_true
  owner _ hlock := by cases hlock

/-- **The shared memory belongs to one request at a time**, in any interleaving of the clients and
the daemon, with clients dying at any step, as long as the request of a dead client is not run
while another one holds the lock. -/
theorem shared_buffer_of_run {d : Daemon σ} {moves : List Move}
    (hcalls : ∀ p c, Move.call p c ∈ moves → c.RepliedOnce)
    (hdead : Along (move io sizes) DeadRunAlone moves { daemon := d }) :
    Along (move io sizes) Faithful moves { daemon := d } := by
  refine along_of_along (I := Orderly) ?_ (orderly_start d) hdead
  intro m hm s h hd
  refine ⟨h.faithful m, fun s' hmove => h.move ?_ hd hmove⟩
  rintro p c rfl
  exact hcalls p c hm

end Steps

/-! ## 6. A client that writes, and one that dies before its read -/

/-- An iomanX with one file, whose `read` delivers the byte 7 and whose `write` takes any. -/
def sevens : IomanX Unit
  | .scepfsRead .., w => ({ ret := 1, mem := some [7] }, w)
  | _, w => ({ ret := 0 }, w)

/-- Clients 4 and 5 connect. -/
def twoConnect : List Move := [.connect ⟨4, 8, 0, 0x20000⟩, .connect ⟨5, 9, 0, 0x20000⟩]

/-- Client 4 has asked for a byte of file 0, and the daemon has read the request. -/
def readAsked : List Move := [.call 4 (.read 1 0 true 1), .act 4, .act 4, .read 0]

/-- Client 5 takes the lock, copies a byte in and asks for it to be written to file 0. -/
def writeAsked : List Move :=
  [.call 5 (.write 1 0 (some [5]) 1), .act 5, .act 5, .act 5, .read 1]

/-- The read is run and answered, and the client is done; then the write is run. -/
theorem shared_buffer_of_run_write :
    Along (move sevens ⟨64, 320, 8⟩) Faithful
      (twoConnect ++ readAsked ++ [.run {}, .reply, .act 4, .act 4, .act 4] ++ writeAsked ++
        [.run {}])
      { daemon := start 3 [0] () } := by
  refine shared_buffer_of_run (fun p c hc => ?_) (by decide)
  simp [twoConnect, readAsked, writeAsked] at hc
  rcases hc with ⟨rfl, rfl⟩ | ⟨rfl, rfl⟩ <;> trivial

/-- Client 4 dies before its request is run, and its lock is given back. -/
def readerDies : List Move :=
  twoConnect ++ readAsked ++ [.die 4] ++ writeAsked.take 4 ++ [.run {}, .reply, .read 1]

/-- **A dead client's read writes over what another client has copied in.**  Client 5 lives, and
iomanX is going to see 7 for its request and not the 5 it copied in. -/
theorem shared_buffer_overwritten :
    (∀ p c, Move.call p c ∈ readerDies → c.RepliedOnce) ∧
    ¬ Along (move sevens ⟨64, 320, 8⟩) Faithful (readerDies ++ [.run {}])
        { daemon := start 3 [0] () } ∧
    ∃ s, run (move sevens ⟨64, 320, 8⟩) readerDies { daemon := start 3 [0] () } = some s ∧
      (s.peers 5).alive = true ∧ (s.peers 5).copied = [5] ∧ s.daemon.shm = [7] := by
  obtain ⟨s, hs, hlive, hcopied, hshm, hnot⟩ : ∃ s,
      run (move sevens ⟨64, 320, 8⟩) readerDies { daemon := start 3 [0] () } = some s ∧
      (s.peers 5).alive = true ∧ (s.peers 5).copied = [5] ∧ s.daemon.shm = [7] ∧
      ¬ Faithful (.run {}) s := by
    refine ⟨_, rfl, rfl, rfl, by decide, fun h => ?_⟩
    have h := h 1 _ rfl rfl
    revert h
    decide
  refine ⟨fun p c hc => ?_, fun h => hnot ((along_append.mp h).2 s hs).1, s, hs, hlive, hcopied,
    hshm⟩
  simp [readerDies, twoConnect, readAsked, writeAsked] at hc
  rcases hc with ⟨rfl, rfl⟩ | ⟨rfl, rfl⟩ <;> trivial

end PfsShell.Pfsd
