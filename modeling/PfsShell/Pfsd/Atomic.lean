/-
# One exchange after the other

In the crowd of clients every action is a step of its own, and the actions of the clients and of
the daemon come in any order.  `moveWhole` is the same daemon with far fewer steps: a client that wants
the lock gets all of its exchange in one step.  It copies in, the daemon runs the request on the
shared memory it then has, and the client copies its results out and is behind the unlock.

A run of the crowd is followed by one of `moveWhole`.  An exchange takes place when its request is run,
which is between the call of the function and its return.  `Watched` adds to the crowd what each
client has copied out, so that the results a client gets are compared as well.

* `Follows` is the relation between the two: a client that is not between its lock and its unlock
  is in the same place in both, and for the one that is, `Peer.asks` and `Peer.settles` say what it
  is going to ask and what it still has to copy out;
* `run_atomic`: a run in which the clients leave between two calls ends where some run of `moveWhole`
  ends, with the same results for every client.

A call is one exchange, but for a read or a write of more than the shared memory holds, which is
one for each chunk (`ClientCall.Unchunked`); `scepfsdGetMountPoint`, which is answered twice, is
left out.
-/
import PfsShell.Pfsd.SharedBuffer

namespace PfsShell.Pfsd

open PfsShell.Lib

/-! ## 1. The parts of an exchange -/

/-- What a client asks: the request, the size of the reply and what is done with it, and the
shared memory it leaves for the daemon. -/
structure Asking where
  req : Request
  size : ℕ
  next : List UInt8 → Prog
  shm : Mem

/-- What a function that has the lock is going to ask, with `shm` in the shared memory. -/
def Prog.asks (shm : Mem) : Prog → Option Asking
  | .copyIn bytes next => next.asks (bytes ++ shm.drop bytes.length)
  | .sendRequest req (.receiveReply size next) => some ⟨req, size, next, shm⟩
  | _ => none

/-- What a function that has its reply still copies out, and what is left of it after the
unlock. -/
def Prog.settles : Prog → Option (List ℕ × Prog)
  | .copyOut n next => next.settles.map fun (ns, rest) => (n :: ns, rest)
  | .releaseLock next => some ([], next)
  | _ => none

theorem Prog.Locks.asks {n : ℕ} : ∀ {prog : Prog} {shm : Mem}, prog.Locks n .locked →
    ∃ a, prog.asks shm = some a
  | .copyIn _ next, _, h => (show next.Locks n .locked from h).asks
  | .sendRequest req next, shm, h => by
    cases next with
    | receiveReply size next => exact ⟨⟨req, size, next, shm⟩, rfl⟩
    | _ => exact h.2.2.elim
  | .done _, _, h => h.elim
  | .outOfFuel, _, h => h.elim
  | .requireLock _, _, h => h.elim
  | .releaseLock _, _, h => h.elim
  | .copyOut _ _, _, h => h.elim
  | .receiveReply _ _, _, h => h.elim

theorem Prog.Locks.settles {n : ℕ} : ∀ {prog : Prog}, prog.Locks n .replied →
    ∃ ns rest, prog.settles = some (ns, rest)
  | .copyOut k next, h => by
    obtain ⟨ns, rest, hrest⟩ := (show next.Locks n .replied from h).settles
    exact ⟨k :: ns, rest, by rw [Prog.settles, hrest, Option.map_some]⟩
  | .releaseLock next, _ => ⟨[], next, rfl⟩
  | .done _, h => h.elim
  | .outOfFuel, h => h.elim
  | .requireLock _, h => h.elim
  | .copyIn _ _, h => h.elim
  | .sendRequest _ _, h => h.elim
  | .receiveReply _ _, h => h.elim

/-- Nothing of the function is left. -/
def Prog.returned : Prog → Bool
  | .done _ => true
  | _ => false

theorem Prog.done_of_returned : ∀ {prog : Prog}, prog.returned = true → ∃ ret, prog = .done ret
  | .done ret, _ => ⟨ret, rfl⟩

/-- The function is one exchange, or none. -/
def Prog.Once : Prog → Prop
  | .done _ => True
  | .outOfFuel => True
  | .requireLock next => next.Once
  | .copyIn _ next => next.Once
  | .sendRequest _ next => next.Once
  | .receiveReply _ next => ∀ bytes, (next bytes).Once
  | .copyOut _ next => next.Once
  | .releaseLock next => next.returned = true

theorem Prog.Once.asks {shm : Mem} {asked : Asking} : ∀ {prog : Prog}, prog.Once →
    prog.asks shm = some asked → ∀ bytes, (asked.next bytes).Once := by
  intro prog
  induction prog generalizing shm with
  | copyIn bytes next ih => exact fun h hasked => ih h hasked
  | sendRequest req next ih =>
    intro h hasked
    cases next with
    | receiveReply size next =>
      obtain rfl := Option.some.inj hasked
      exact h
    | _ => cases hasked
  | _ =>
    intro _ hasked
    cases hasked

theorem Prog.Once.settles : ∀ {prog : Prog} {ns : List ℕ} {rest : Prog}, prog.Once →
    prog.settles = some (ns, rest) → rest.returned = true := by
  intro prog
  induction prog with
  | copyOut n next ih =>
    intro ns rest h hsettles
    obtain ⟨⟨ns', rest'⟩, hrest, heq⟩ := Option.map_eq_some_iff.mp hsettles
    obtain ⟨-, rfl⟩ := Prod.mk.inj heq
    exact ih h hrest
  | releaseLock next ih =>
    intro ns rest h hsettles
    obtain ⟨-, rfl⟩ := Prod.mk.inj (Option.some.inj hsettles)
    exact h
  | _ =>
    intro ns rest _ hsettles
    cases hsettles

/-! ## 2. The daemon with whole exchanges -/

/-- The clients, with what each has copied out so far, and the daemon. -/
structure OneByOne (σ : Type) where
  progs : CInt → Prog := fun _ => .done 0
  alive : CInt → Bool := fun _ => false
  results : CInt → List Mem := fun _ => []
  daemon : Daemon σ

/-- The steps. -/
inductive WholeMove
  | call (p : CInt) (c : ClientCall)
  | leave (p : CInt)
  | exchange (pfd : ℕ) (choice : Choice)
  | connect (a : Accept)
  | hangup (pfd fuel : ℕ)

section Wholes

variable {σ : Type} (io : IomanX σ) (sizes : Sizes)

/-- The whole exchange of the client in entry `pfd` of the poll table. -/
def OneByOne.exchange (pfd : ℕ) (choice : Choice) (t : OneByOne σ) : Option (OneByOne σ) :=
  let p := t.daemon.gConnectionPollfds pfd
  match t.progs p with
  | .requireLock next =>
    (next.asks t.daemon.shm).bind fun asked =>
      let d := (eventHandlerFunc io pfd choice (some asked.req)
        { t.daemon with shm := asked.shm }).2
      let bytes := (d.stream p).drop (t.daemon.stream p).length
      ((asked.next (bytes.take asked.size)).settles).map fun (ns, rest) =>
        { t with
          progs := Function.update t.progs p rest
          results := Function.update t.results p (t.results p ++ ns.map fun n => d.shm.take n)
          daemon := d }
  | _ => none

/-- One step. -/
def moveWhole : WholeMove → OneByOne σ → Option (OneByOne σ)
  | .call p c, t =>
    match t.progs p, t.alive p with
    | .done _, true => some { t with progs := Function.update t.progs p (c.prog sizes) }
    | _, _ => none
  | .leave p, t => some { t with alive := Function.update t.alive p false }
  | .exchange pfd choice, t =>
    if pfd < t.daemon.gCurrentClientCount ∧ t.alive (t.daemon.gConnectionPollfds pfd) = true then
      t.exchange io pfd choice
    else none
  | .connect a, t =>
    if t.alive a.s then none
    else (handle io (.connect a) t.daemon).map fun d =>
      { t with
        progs := Function.update t.progs a.s (.done 0)
        alive := Function.update t.alive a.s (decide (a.s ∈ d.clients))
        daemon := d }
  | .hangup pfd fuel, t =>
    if t.alive (t.daemon.gConnectionPollfds pfd) then none
    else (handle io (.hangup pfd fuel) t.daemon).map fun d => { t with daemon := d }

end Wholes

/-! ## 3. The crowd, with what is copied out -/

/-- The crowd, and what each client has copied out. -/
structure Watched (σ : Type) where
  crowd : Crowd σ
  results : CInt → List Mem := fun _ => []

section Watching

variable {σ : Type} (io : IomanX σ) (sizes : Sizes)

/-- The results after a step: a copy out adds what the shared memory begins with. -/
def Watched.resultsAfter (m : Move) (w : Watched σ) : CInt → List Mem :=
  match m with
  | .act p =>
    match (w.crowd.peers p).prog with
    | .copyOut n _ =>
      Function.update w.results p (w.results p ++ [w.crowd.daemon.shm.take n])
    | _ => w.results
  | _ => w.results

/-- A step of the crowd, watched. -/
def watch (m : Move) (w : Watched σ) : Option (Watched σ) :=
  (move io sizes m w.crowd).map fun s => { crowd := s, results := w.resultsAfter m }

/-- A client dies only between two calls: it closes its socket, or its process ends. -/
def LeavesIdle (m : Move) (w : Watched σ) : Prop :=
  match m with
  | .die p => (w.crowd.peers p).prog.returned = true
  | _ => True

instance (m : Move) (w : Watched σ) : Decidable (LeavesIdle m w) :=
  match m with
  | .die p => inferInstanceAs (Decidable ((w.crowd.peers p).prog.returned = true))
  | .call .. | .act _ | .read _ | .run _ | .reply | .connect _ | .hangup .. => .isTrue trivial

/-- The step of `moveWhole` that a step of the crowd is the decisive part of. -/
def atomic (m : Move) (w : Watched σ) : List WholeMove :=
  match m with
  | .call p c => [.call p c]
  | .die p => [.leave p]
  | .run choice =>
    match w.crowd.doing with
    | .serving pfd _ => [.exchange pfd choice]
    | _ => []
  | .connect a => [.connect a]
  | .hangup pfd fuel => [.hangup pfd fuel]
  | _ => []

end Watching

/-! ## 4. What the client in its section has still to do -/

/-- What a client that has the lock is going to have asked: before its request is sent, while it
is on the socket, and while the daemon has it. -/
def Peer.asks (x : Peer) (shm : Mem) : Job → Option Asking
  | .idle =>
    match x.requests with
    | [] => x.prog.asks shm
    | req :: _ => (Prog.sendRequest req x.prog).asks shm
  | .running req => (Prog.sendRequest req x.prog).asks shm
  | .replying _ => none

/-- What a client has still to copy out, once its request was run: while the reply is with the
daemon, when it is on the socket, and after it was received. -/
def Peer.settles (x : Peer) : Job → Option (List ℕ × Prog)
  | .idle =>
    match x.prog with
    | .receiveReply size next =>
      if x.replies = [] then none else (next (x.replies.take size)).settles
    | prog => prog.settles
  | .replying bytes =>
    match x.prog with
    | .receiveReply size next => (next (bytes.take size)).settles
    | _ => none
  | .running _ => none

theorem Peer.settles_of_replied {x : Peer} {n : ℕ} (h : x.prog.Locks n .replied) :
    x.settles .idle = x.prog.settles := by
  obtain ⟨prog, hprog⟩ : ∃ prog, x.prog = prog := ⟨_, rfl⟩
  rw [hprog] at h
  simp only [Peer.settles, hprog]
  cases prog with
  | receiveReply size next => exact h.elim
  | _ => rfl

/-! ## 5. The relation -/

section Relation

variable {σ : Type} {io : IomanX σ} {sizes : Sizes} {w w' : Watched σ} {t t' : OneByOne σ}
  {p q : CInt}

/-- Where the client that has the lock is: nobody has it; its request is not run yet, and `moveWhole`
has it before its lock; or it is, and `moveWhole` has it behind the unlock. -/
inductive Holding (w : Watched σ) (t : OneByOne σ) : Prop
  | free (hlock : w.crowd.lock = none) (hshm : t.daemon.shm = w.crowd.daemon.shm)
  | asking (q : CInt) (next : Prog) (asked : Asking) (hlock : w.crowd.lock = some q)
      (hprog : t.progs q = .requireLock next) (hasks : next.asks t.daemon.shm = some asked)
      (hpeer : (w.crowd.peers q).asks w.crowd.daemon.shm (w.crowd.job q) = some asked)
      (hresults : w.results q = t.results q)
  | settling (q : CInt) (ns : List ℕ) (hlock : w.crowd.lock = some q)
      (hshm : t.daemon.shm = w.crowd.daemon.shm)
      (hpeer : (w.crowd.peers q).settles (w.crowd.job q) = some (ns, t.progs q))
      (hresults : t.results q = w.results q ++ ns.map fun n => w.crowd.daemon.shm.take n)

/-- The crowd and `moveWhole` are in the same place, but for the client that has the lock and the
shared memory that is its. -/
structure Follows (w : Watched σ) (t : OneByOne σ) : Prop where
  orderly : Orderly w.crowd
  dead : ∀ p, (w.crowd.peers p).alive = false →
    (w.crowd.peers p).requests = [] ∧ w.crowd.job p = .idle
  served : ∀ pfd req, w.crowd.doing = .serving pfd req →
    pfd < w.crowd.daemon.gCurrentClientCount
  alive : ∀ p, t.alive p = (w.crowd.peers p).alive
  outside : ∀ p, w.crowd.lock ≠ some p →
    ((w.crowd.peers p).alive = true → t.progs p = (w.crowd.peers p).prog) ∧
      w.results p = t.results p
  daemon : { t.daemon with shm := w.crowd.daemon.shm } = w.crowd.daemon
  holding : Holding w t

/-- A client that is not in a call does not have the lock. -/
theorem Orderly.lock_ne_of_done {s : Crowd σ} (h : Orderly s) {ret : ℤ}
    (hprog : (s.peers p).prog = .done ret) : s.lock ≠ some p := by
  intro hlock
  obtain ⟨n, -, hsits⟩ := h.sits p (h.owner p hlock)
  generalize s.job p = j at hsits
  cases hsits with
  | outside _ hnot _ _ => exact hnot hlock
  | _ => simp_all [Prog.Locks]

/-- A step that leaves the client with the lock alone. -/
theorem Holding.frame (h : Holding w t) (hlock : w'.crowd.lock = w.crowd.lock)
    (hshm : w'.crowd.daemon.shm = w.crowd.daemon.shm) (hshm' : t'.daemon.shm = t.daemon.shm)
    (hpeer : ∀ q, w.crowd.lock = some q → w'.crowd.peers q = w.crowd.peers q ∧
      w'.crowd.job q = w.crowd.job q ∧ w'.results q = w.results q)
    (hturn : ∀ q, w.crowd.lock = some q → t'.progs q = t.progs q ∧
      t'.results q = t.results q) : Holding w' t' := by
  cases h with
  | free hl hs => exact .free (hlock.trans hl) (by rw [hshm', hs, hshm])
  | asking q next asked hl hprog hasks hp hres =>
    obtain ⟨hpeers, hjob, hresults⟩ := hpeer q hl
    obtain ⟨hprogs, hresults'⟩ := hturn q hl
    refine .asking q next asked (hlock.trans hl) (hprogs.trans hprog) ?_ ?_ ?_
    · rw [hshm']
      exact hasks
    · rw [hpeers, hshm, hjob]
      exact hp
    · rw [hresults, hresults']
      exact hres
  | settling q ns hl hs hp hres =>
    obtain ⟨hpeers, hjob, hresults⟩ := hpeer q hl
    obtain ⟨hprogs, hresults'⟩ := hturn q hl
    refine .settling q ns (hlock.trans hl) ?_ ?_ ?_
    · rw [hshm', hs, hshm]
    · rw [hpeers, hjob, hprogs]
      exact hp
    · rw [hresults, hresults', hshm]
      exact hres

/-- **The frame rule**: a step at client `p` leaves the other clients where they are, in the crowd
and in `moveWhole`. -/
theorem Follows.frame (h : Follows w t) (p : CInt) (horderly : Orderly w'.crowd)
    (hpeers : ∀ q, q ≠ p → w'.crowd.peers q = w.crowd.peers q)
    (hjob : ∀ q, q ≠ p → w'.crowd.job q = w.crowd.job q)
    (hlock : ∀ q, q ≠ p → (w'.crowd.lock = some q ↔ w.crowd.lock = some q))
    (hresults : ∀ q, q ≠ p → w'.results q = w.results q)
    (hturn : ∀ q, q ≠ p → t'.progs q = t.progs q ∧ t'.alive q = t.alive q ∧
      t'.results q = t.results q)
    (hserved : ∀ pfd req, w'.crowd.doing = .serving pfd req →
      pfd < w'.crowd.daemon.gCurrentClientCount)
    (hdaemon : { t'.daemon with shm := w'.crowd.daemon.shm } = w'.crowd.daemon)
    (hdead : (w'.crowd.peers p).alive = false →
      (w'.crowd.peers p).requests = [] ∧ w'.crowd.job p = .idle)
    (halive : t'.alive p = (w'.crowd.peers p).alive)
    (hself : w'.crowd.lock ≠ some p →
      ((w'.crowd.peers p).alive = true → t'.progs p = (w'.crowd.peers p).prog) ∧
        w'.results p = t'.results p)
    (hholding : Holding w' t') : Follows w' t' := by
  refine ⟨horderly, fun q hq => ?_, hserved, fun q => ?_, fun q hq => ?_, hdaemon, hholding⟩
  · by_cases hqp : q = p
    · subst hqp
      exact hdead hq
    · rw [hpeers q hqp] at hq ⊢
      rw [hjob q hqp]
      exact h.dead q hq
  · by_cases hqp : q = p
    · subst hqp
      exact halive
    · rw [hpeers q hqp, (hturn q hqp).2.1, h.alive]
  · by_cases hqp : q = p
    · subst hqp
      exact hself hq
    · obtain ⟨hprogs, -, hres⟩ := hturn q hqp
      rw [hpeers q hqp, hprogs, hresults q hqp, hres]
      exact h.outside q fun hl => hq ((hlock q hqp).mpr hl)

/-- A living client `p` has acted, and `moveWhole` has not. -/
theorem Follows.acted (h : Follows w t) (hp : (w.crowd.peers p).alive = true)
    (horderly : Orderly w'.crowd) (halive : (w'.crowd.peers p).alive = true)
    (hpeers : ∀ q, q ≠ p → w'.crowd.peers q = w.crowd.peers q)
    (hdoing : w'.crowd.doing = w.crowd.doing)
    (hdaemon : w'.crowd.daemon = { w.crowd.daemon with shm := w'.crowd.daemon.shm })
    (hlock : ∀ q, q ≠ p → (w'.crowd.lock = some q ↔ w.crowd.lock = some q))
    (hresults : ∀ q, q ≠ p → w'.results q = w.results q)
    (hself : w'.crowd.lock ≠ some p →
      t.progs p = (w'.crowd.peers p).prog ∧ w'.results p = t.results p)
    (hholding : Holding w' t) : Follows w' t := by
  refine h.frame p horderly hpeers (fun q _ => ?_) hlock hresults (fun _ _ => ⟨rfl, rfl, rfl⟩)
    (fun pfd req hreq => ?_) ?_ (fun hdead => ?_) ?_ (fun hne => ?_) hholding
  · rw [Crowd.job, Crowd.job, hdoing, hdaemon]
  · rw [hdaemon]
    exact h.served pfd req (hdoing ▸ hreq)
  · rw [hdaemon, ← h.daemon]
  · rw [halive] at hdead
    cases hdead
  · rw [h.alive, hp, halive]
  · obtain ⟨hprog, hres⟩ := hself hne
    exact ⟨fun _ => hprog, hres⟩

/-- The client with the lock, when it has nothing to copy out yet. -/
theorem Follows.asking (h : Follows w t) (hlock : w.crowd.lock = some p)
    (hnone : (w.crowd.peers p).settles (w.crowd.job p) = none) :
    ∃ next asked, t.progs p = .requireLock next ∧ next.asks t.daemon.shm = some asked ∧
      (w.crowd.peers p).asks w.crowd.daemon.shm (w.crowd.job p) = some asked ∧
      w.results p = t.results p := by
  cases h.holding with
  | free hl _ => simp [hlock] at hl
  | asking q next asked hl hprog hasks hpeer hresults =>
    obtain rfl := Option.some.inj (hlock.symm.trans hl)
    exact ⟨next, asked, hprog, hasks, hpeer, hresults⟩
  | settling q ns hl _ hpeer _ =>
    obtain rfl := Option.some.inj (hlock.symm.trans hl)
    simp [hnone] at hpeer

/-- The client with the lock, when it has nothing to ask any more. -/
theorem Follows.settling (h : Follows w t) (hlock : w.crowd.lock = some p)
    (hnone : (w.crowd.peers p).asks w.crowd.daemon.shm (w.crowd.job p) = none) :
    ∃ ns, t.daemon.shm = w.crowd.daemon.shm ∧
      (w.crowd.peers p).settles (w.crowd.job p) = some (ns, t.progs p) ∧
      t.results p = w.results p ++ ns.map fun n => w.crowd.daemon.shm.take n := by
  cases h.holding with
  | free hl _ => simp [hlock] at hl
  | asking q next asked hl _ _ hpeer _ =>
    obtain rfl := Option.some.inj (hlock.symm.trans hl)
    simp [hnone] at hpeer
  | settling q ns hl hshm hpeer hresults =>
    obtain rfl := Option.some.inj (hlock.symm.trans hl)
    exact ⟨ns, hshm, hpeer, hresults⟩

/-! ## 6. The actions of a client

One lemma for each: what the client does, with the state it does it in. -/

section Actions

variable {n : ℕ} {next : Prog}

/-- The client that is taken back in, when it lives. -/
theorem Crowd.set_alive {s : Crowd σ} {x : Peer} (hx : x.alive = true) :
    ((s.set p x).peers p).alive = true := by
  rw [Crowd.set_peers_self, hx]

/-- `RequireLock`: its exchange begins. -/
theorem Follows.requires (h : Follows w t) (hp : (w.crowd.peers p).alive = true)
    (hsits : Sits n (w.crowd.peers p) w.crowd.daemon.shm (w.crowd.lock = some p) (w.crowd.job p))
    (hprog : (w.crowd.peers p).prog = .requireLock next) {s : Crowd σ} (horderly : Orderly s)
    (hact : w.crowd.act p = some s) : Follows { w with crowd := s } t := by
  obtain ⟨hidle, -, hpart, hreq, -⟩ := hsits.of_requireLock hprog
  simp only [Crowd.act, hprog] at hact
  obtain ⟨hfree, hact⟩ := Option.ite_none_right_eq_some.mp hact
  obtain rfl := Option.some.inj hact
  obtain ⟨asked, hasked⟩ : ∃ a, next.asks w.crowd.daemon.shm = some a := hpart.asks
  obtain ⟨hprogs, hresults⟩ := h.outside p (by simp [hfree])
  have hshm : t.daemon.shm = w.crowd.daemon.shm := by
    cases h.holding with
    | free _ hshm => exact hshm
    | _ => simp_all
  refine h.acted hp horderly (Crowd.set_alive hp) (fun q hq => Crowd.set_peers_of_ne hq _)
    rfl rfl (fun q hq => ?_) (fun _ _ => rfl) (fun hne => absurd rfl hne)
    (.asking p next asked rfl ?_ ?_ ?_ hresults)
  · simp [hfree, Ne.symm hq]
  · rw [hprogs hp, hprog]
  · rw [hshm, hasked]
  · change Peer.asks ((w.crowd.set p _).peers p) w.crowd.daemon.shm (w.crowd.job p) = _
    rw [Crowd.set_peers_self, hidle]
    simp only [Peer.asks, hreq, hasked]

/-- The copy in: the shared memory is the client's. -/
theorem Follows.copiesIn (h : Follows w t) (hp : (w.crowd.peers p).alive = true)
    (hsits : Sits n (w.crowd.peers p) w.crowd.daemon.shm (w.crowd.lock = some p) (w.crowd.job p))
    {bytes : Mem} (hprog : (w.crowd.peers p).prog = .copyIn bytes next) {s : Crowd σ}
    (horderly : Orderly s) (hact : w.crowd.act p = some s) : Follows { w with crowd := s } t := by
  obtain ⟨hidle, hholds, -, hreq, -⟩ := hsits.of_locked fun _ hpart => (hprog ▸ hpart).of_copyIn
  simp only [Crowd.act, hprog] at hact
  obtain rfl := Option.some.inj hact
  obtain ⟨first, asked, hfirst, hasks, hpeer, hresults⟩ := h.asking hholds (by
    simp [hidle, Peer.settles, hprog, Prog.settles])
  refine h.acted hp horderly (Crowd.set_alive hp) (fun q hq => Crowd.set_peers_of_ne hq _)
    rfl rfl (fun q hq => Iff.rfl) (fun _ _ => rfl) (fun hne => absurd hholds hne)
    (.asking p first asked hholds hfirst hasks ?_ hresults)
  change Peer.asks ((w.crowd.set p _).peers p) _ (w.crowd.job p) = _
  rw [hidle] at hpeer
  rw [Crowd.set_peers_self, hidle]
  simpa only [Peer.asks, hreq, hprog, Prog.asks] using hpeer

/-- `SendRequest`. -/
theorem Follows.sends (h : Follows w t) (hp : (w.crowd.peers p).alive = true)
    (hsits : Sits n (w.crowd.peers p) w.crowd.daemon.shm (w.crowd.lock = some p) (w.crowd.job p))
    {req : Request} (hprog : (w.crowd.peers p).prog = .sendRequest req next) {s : Crowd σ}
    (horderly : Orderly s) (hact : w.crowd.act p = some s) : Follows { w with crowd := s } t := by
  obtain ⟨hidle, hholds, -, hreq, -⟩ :=
    hsits.of_locked fun _ hpart => (hprog ▸ hpart).of_sendRequest
  simp only [Crowd.act, hprog] at hact
  obtain rfl := Option.some.inj hact
  obtain ⟨first, asked, hfirst, hasks, hpeer, hresults⟩ := h.asking hholds (by
    simp [hidle, Peer.settles, hprog, Prog.settles])
  refine h.acted hp horderly (Crowd.set_alive hp) (fun q hq => Crowd.set_peers_of_ne hq _)
    rfl rfl (fun q hq => Iff.rfl) (fun _ _ => rfl) (fun hne => absurd hholds hne)
    (.asking p first asked hholds hfirst hasks ?_ hresults)
  change Peer.asks ((w.crowd.set p _).peers p) w.crowd.daemon.shm (w.crowd.job p) = _
  rw [hidle] at hpeer
  rw [Crowd.set_peers_self, hidle]
  simpa only [Peer.asks, hreq, hprog, List.nil_append] using hpeer

/-- `ReceiveReply`. -/
theorem Follows.receives (h : Follows w t) (hp : (w.crowd.peers p).alive = true)
    (hsits : Sits n (w.crowd.peers p) w.crowd.daemon.shm (w.crowd.lock = some p) (w.crowd.job p))
    {size : ℕ} {next : List UInt8 → Prog}
    (hprog : (w.crowd.peers p).prog = .receiveReply size next) {s : Crowd σ}
    (horderly : Orderly s) (hact : w.crowd.act p = some s) : Follows { w with crowd := s } t := by
  simp only [Crowd.act, hprog] at hact
  obtain ⟨hne, hact⟩ := Option.ite_none_left_eq_some.mp hact
  obtain rfl := Option.some.inj hact
  have hrep : (w.crowd.peers p).replies ≠ [] := fun hnil => hne (by rw [hnil, List.take_nil])
  obtain ⟨hidle, hholds, -, hnext, hreq, -⟩ := hsits.of_receiveReply hprog hrep
  obtain ⟨ns, hshm, hsettles, hresults⟩ := h.settling hholds (by
    simp [hidle, Peer.asks, hreq, hprog, Prog.asks])
  rw [hidle] at hsettles
  simp only [Peer.settles, hprog, if_neg hrep] at hsettles
  refine h.acted hp horderly (Crowd.set_alive hp) (fun q hq => Crowd.set_peers_of_ne hq _)
    rfl rfl (fun q hq => Iff.rfl) (fun _ _ => rfl) (fun hne => absurd hholds hne)
    (.settling p ns hholds hshm ?_ hresults)
  change Peer.settles ((w.crowd.set p _).peers p) (w.crowd.job p) = _
  rw [Crowd.set_peers_self, hidle, Peer.settles_of_replied (by exact hnext _)]
  exact hsettles

/-- The copy out: one more result. -/
theorem Follows.copiesOut (h : Follows w t) (hp : (w.crowd.peers p).alive = true)
    (hsits : Sits n (w.crowd.peers p) w.crowd.daemon.shm (w.crowd.lock = some p) (w.crowd.job p))
    {k : ℕ} (hprog : (w.crowd.peers p).prog = .copyOut k next) {s : Crowd σ}
    (horderly : Orderly s) (hact : w.crowd.act p = some s) :
    Follows
      { crowd := s
        results := Function.update w.results p (w.results p ++ [w.crowd.daemon.shm.take k]) }
      t := by
  obtain ⟨hidle, hholds, hpart, hreq, -⟩ :=
    hsits.of_replied fun _ hpart => (hprog ▸ hpart).of_copyOut
  simp only [Crowd.act, hprog] at hact
  obtain rfl := Option.some.inj hact
  obtain ⟨ns, hshm, hsettles, hresults⟩ := h.settling hholds (by
    simp [hidle, Peer.asks, hreq, hprog, Prog.asks])
  rw [hidle, Peer.settles_of_replied hpart, hprog, Prog.settles] at hsettles
  obtain ⟨⟨ns', rest⟩, hrest, heq⟩ := Option.map_eq_some_iff.mp hsettles
  obtain ⟨rfl, rfl⟩ := Prod.mk.inj heq
  rw [hprog] at hpart
  refine h.acted hp horderly (Crowd.set_alive hp) (fun q hq => Crowd.set_peers_of_ne hq _)
    rfl rfl (fun q hq => Iff.rfl) (fun q hq => Function.update_of_ne hq ..)
    (fun hne => absurd hholds hne) (.settling p ns' hholds hshm ?_ ?_)
  · change Peer.settles ((w.crowd.set p _).peers p) (w.crowd.job p) = _
    rw [Crowd.set_peers_self, hidle, Peer.settles_of_replied (by exact hpart)]
    exact hrest
  · change t.results p = Function.update w.results p _ p ++ _
    rw [Function.update_self, hresults, List.map_cons, List.append_assoc, List.singleton_append]
    rfl

/-- `ReleaseLock`: its exchange is over. -/
theorem Follows.releases (h : Follows w t) (hp : (w.crowd.peers p).alive = true)
    (hsits : Sits n (w.crowd.peers p) w.crowd.daemon.shm (w.crowd.lock = some p) (w.crowd.job p))
    (hprog : (w.crowd.peers p).prog = .releaseLock next) {s : Crowd σ} (horderly : Orderly s)
    (hact : w.crowd.act p = some s) : Follows { w with crowd := s } t := by
  obtain ⟨hidle, hholds, hpart, hreq, -⟩ :=
    hsits.of_replied fun _ hpart => (hprog ▸ hpart).of_releaseLock
  simp only [Crowd.act, hprog] at hact
  obtain rfl := Option.some.inj hact
  obtain ⟨ns, hshm, hsettles, hresults⟩ := h.settling hholds (by
    simp [hidle, Peer.asks, hreq, hprog, Prog.asks])
  rw [hidle, Peer.settles_of_replied hpart, hprog] at hsettles
  obtain ⟨rfl, hnext⟩ := Prod.mk.inj (Option.some.inj hsettles)
  refine h.acted hp horderly (Crowd.set_alive hp) (fun q hq => Crowd.set_peers_of_ne hq _)
    rfl rfl (fun q hq => ?_) (fun _ _ => rfl) (fun _ => ⟨?_, ?_⟩) (.free rfl hshm)
  · simp [hholds, Ne.symm hq]
  · change t.progs p = ((w.crowd.set p _).peers p).prog
    rw [Crowd.set_peers_self]
    exact hnext.symm
  · rw [hresults, List.map_nil, List.append_nil]

end Actions

/-- An action of a living client. -/
theorem Follows.act (h : Follows w t) (hp : (w.crowd.peers p).alive = true)
    (hmove : watch io sizes (.act p) w = some w') : Follows w' t := by
  obtain ⟨s', hs', rfl⟩ := Option.map_eq_some_iff.mp hmove
  have hact : w.crowd.act p = some s' := by
    rw [move, if_pos hp] at hs'
    exact hs'
  have horderly : Orderly s' := h.orderly.act hp hact
  obtain ⟨n, -, hsits⟩ := h.orderly.sits p hp
  simp only [Watched.resultsAfter]
  cases hprog : (w.crowd.peers p).prog with
  | done ret => simp [Crowd.act, hprog] at hact
  | outOfFuel => simp [Crowd.act, hprog] at hact
  | requireLock next => exact h.requires hp hsits hprog horderly hact
  | releaseLock next => exact h.releases hp hsits hprog horderly hact
  | copyIn bytes next => exact h.copiesIn hp hsits hprog horderly hact
  | copyOut k next => exact h.copiesOut hp hsits hprog horderly hact
  | sendRequest req next => exact h.sends hp hsits hprog horderly hact
  | receiveReply size next => exact h.receives hp hsits hprog horderly hact

/-! ## 7. The daemon between two requests

What the daemon does for a client that comes or goes does not depend on the shared memory.  A
client may go while another one has copied in and not yet asked. -/

theorem rpcCommandClose_shm (fd q : CInt) (m : Mem) (d : Daemon σ) :
    (rpcCommandClose io fd q { d with shm := m }).2 =
      { (rpcCommandClose io fd q d).2 with shm := m } := by
  by_cases hret : (io (.scepfsClose (d.rpcRemapFd fd q)) d.world).1.ret = 0
  · simp [rpcCommandClose, closeCommon, scepfs, Call.usesShm, writeRpcret, writeSocket, hret]
  · simp [rpcCommandClose, closeCommon, scepfs, Call.usesShm, writeRpcret, writeSocket, hret]

theorem rpcCommandUmount_shm (fsname : CStr) (q : CInt) (m : Mem) (d : Daemon σ) :
    (rpcCommandUmount io fsname q { d with shm := m }).2 =
      { (rpcCommandUmount io fsname q d).2 with shm := m } := by
  obtain ⟨i, hi⟩ : ∃ i, d.slotOfPrefix fsname q = i := ⟨_, rfl⟩
  by_cases hslot : i = 32
  · simp [rpcCommandUmount, hi, hslot, writeRpcret, writeSocket]
  by_cases huse : d.inUse i
  · simp [rpcCommandUmount, hi, hslot, huse, writeRpcret, writeSocket]
  by_cases hother : 32 ≤ d.otherHolder i
  · by_cases hret : (io (.scepfsUmount (d.gMountlistItems i).mStrContainerPath) d.world).1.ret = 0
    · simp [rpcCommandUmount, hi, hslot, huse, hother, hret, scepfs, Call.usesShm, writeRpcret,
        writeSocket]
    · simp [rpcCommandUmount, hi, hslot, huse, hother, hret, scepfs, Call.usesShm, writeRpcret,
        writeSocket]
  · simp [rpcCommandUmount, hi, hslot, huse, hother, writeRpcret, writeSocket]

theorem cleanupFiles_shm {pfd : ℕ} (m : Mem) : ∀ (fuel i : ℕ) (d : Daemon σ),
    cleanupFiles io pfd fuel i { d with shm := m } =
      (cleanupFiles io pfd fuel i d).map fun d => { d with shm := m } := by
  intro fuel
  induction fuel with
  | zero => exact fun _ _ => rfl
  | succ fuel ih =>
    intro i d
    simp only [cleanupFiles]
    split
    · split
      · rw [rpcCommandClose_shm]
        exact ih i _
      · exact ih (i + 1) d
    · rfl

theorem cleanupMounts_shm {pfd : ℕ} (m : Mem) : ∀ (k i : ℕ) (d : Daemon σ),
    cleanupMounts io pfd k i { d with shm := m } =
      { cleanupMounts io pfd k i d with shm := m } := by
  intro k
  induction k with
  | zero => exact fun _ _ => rfl
  | succ k ih =>
    intro i d
    simp only [cleanupMounts]
    split
    · rw [rpcCommandUmount_shm]
      exact ih (i + 1) _
    · exact ih (i + 1) d

/-- A client comes or goes: the shared memory is neither read nor written. -/
theorem handle_shm {e : Event} (he : ∀ pfd choice req, e ≠ .request pfd choice req) (m : Mem)
    (d : Daemon σ) :
    handle io e { d with shm := m } = (handle io e d).map fun d => { d with shm := m } := by
  cases e with
  | connect a =>
    simp only [handle]
    split <;> rfl
  | request pfd choice req => exact absurd rfl (he pfd choice req)
  | hangup pfd fuel =>
    simp only [handle]
    split
    · rw [cleanupClient, cleanupClient, cleanupFiles_shm, Option.map_map, Option.map_map]
      refine congrArg (fun f => (cleanupFiles io pfd fuel 0 d).map f) (funext fun d => ?_)
      have hmounts : cleanupMounts io pfd 32 0 { d with shm := m } =
          { cleanupMounts io pfd 32 0 d with shm := m } := cleanupMounts_shm m 32 0 d
      simp only [Function.comp_apply, hmounts]
    · rfl

theorem handle_keeps_shm {e : Event} (he : ∀ pfd choice req, e ≠ .request pfd choice req)
    {d d' : Daemon σ} (h : handle io e d = some d') : d'.shm = d.shm := by
  have hsame : handle io e d = (handle io e d).map fun d' => { d' with shm := d.shm } :=
    handle_shm he d.shm d
  rw [h, Option.map_some] at hsame
  have heq : d' = { d' with shm := d.shm } := Option.some.inj hsame
  rw [heq]

/-- What happens to the daemon of the crowd happens to that of `moveWhole`. -/
theorem Follows.handled (h : Follows w t) {e : Event}
    (he : ∀ pfd choice req, e ≠ .request pfd choice req) {d : Daemon σ}
    (hd : handle io e w.crowd.daemon = some d) :
    ∃ d', handle io e t.daemon = some d' ∧ { d' with shm := d.shm } = d ∧
      d'.shm = t.daemon.shm := by
  have hshm : d.shm = w.crowd.daemon.shm := handle_keeps_shm he hd
  rw [← h.daemon, handle_shm he] at hd
  obtain ⟨d', hd', rfl⟩ := Option.map_eq_some_iff.mp hd
  exact ⟨d', hd', rfl, handle_keeps_shm he hd'⟩

/-! ## 8. The other steps -/

theorem Follows.call (h : Follows w t) {c : ClientCall} (hc : c.RepliedOnce)
    (hmove : watch io sizes (.call p c) w = some w') :
    ∃ t', moveWhole io sizes (.call p c) t = some t' ∧ Follows w' t' := by
  obtain ⟨s', hs', rfl⟩ := Option.map_eq_some_iff.mp hmove
  have horderly : Orderly s' := h.orderly.call hc hs'
  simp only [move] at hs'
  split at hs'
  · rename_i ret hprog hlive
    obtain rfl := Option.some.inj hs'
    have hlock : w.crowd.lock ≠ some p := h.orderly.lock_ne_of_done hprog
    have hholder : ∀ q, w.crowd.lock = some q → q ≠ p := fun q hq he => hlock (he ▸ hq)
    have hturn : t.progs p = .done ret := ((h.outside p hlock).1 hlive).trans hprog
    have halive : t.alive p = true := (h.alive p).trans hlive
    refine ⟨{ t with progs := Function.update t.progs p (c.prog sizes) }, ?_, ?_⟩
    · simp only [moveWhole, hturn, halive]
    · refine h.frame p horderly (fun q hq => Crowd.set_peers_of_ne hq _) (fun _ _ => rfl)
        (fun _ _ => Iff.rfl) (fun _ _ => rfl) (fun q hq => ⟨Function.update_of_ne hq .., rfl, rfl⟩)
        h.served h.daemon (fun hdead => ?_) ?_ (fun _ => ⟨fun _ => ?_, ?_⟩) ?_
      · change ((w.crowd.set p _).peers p).alive = false at hdead
        rw [Crowd.set_peers_self, hlive] at hdead
        cases hdead
      · show t.alive p = ((w.crowd.set p _).peers p).alive
        rw [Crowd.set_peers_self, halive, hlive]
      · show Function.update t.progs p _ p = ((w.crowd.set p _).peers p).prog
        rw [Crowd.set_peers_self, Function.update_self]
      · exact (h.outside p hlock).2
      · exact h.holding.frame rfl rfl rfl
          (fun q hq => ⟨Crowd.set_peers_of_ne (hholder q hq) _, rfl, rfl⟩)
          fun q hq => ⟨Function.update_of_ne (hholder q hq) .., rfl⟩
  · cases hs'

theorem Follows.die (h : Follows w t) (hleave : LeavesIdle (.die p) w)
    (hmove : watch io sizes (.die p) w = some w') :
    ∃ t', moveWhole io sizes (.leave p) t = some t' ∧ Follows w' t' := by
  obtain ⟨s', hs', rfl⟩ := Option.map_eq_some_iff.mp hmove
  have horderly : Orderly s' := h.orderly.die hs'
  obtain ⟨ret, hprog⟩ := Prog.done_of_returned hleave
  have hlock : w.crowd.lock ≠ some p := h.orderly.lock_ne_of_done hprog
  have hholder : ∀ q, w.crowd.lock = some q → q ≠ p := fun q hq he => hlock (he ▸ hq)
  have hgone : (w.crowd.peers p).requests = [] ∧ w.crowd.job p = .idle := by
    cases hlive : (w.crowd.peers p).alive with
    | false => exact h.dead p hlive
    | true =>
      obtain ⟨n, -, hsits⟩ := h.orderly.sits p hlive
      generalize w.crowd.job p = j at hsits ⊢
      cases hsits with
      | outside _ _ hreq _ => exact ⟨hreq, rfl⟩
      | _ => simp_all
  simp only [move, if_neg hlock] at hs'
  obtain rfl := Option.some.inj hs'
  refine ⟨{ t with alive := Function.update t.alive p false }, rfl, h.frame p horderly
    (fun q hq => Crowd.set_peers_of_ne hq _) (fun _ _ => rfl) (fun _ _ => Iff.rfl) (fun _ _ => rfl)
    (fun q hq => ⟨rfl, Function.update_of_ne hq .., rfl⟩) h.served h.daemon (fun _ => ?_) ?_
    (fun _ => ⟨fun hlive => ?_, (h.outside p hlock).2⟩) ?_⟩
  · show ((w.crowd.set p _).peers p).requests = [] ∧ _
    rw [Crowd.set_peers_self]
    exact hgone
  · show Function.update t.alive p false p = ((w.crowd.set p _).peers p).alive
    rw [Crowd.set_peers_self, Function.update_self]
  · change ((w.crowd.set p _).peers p).alive = true at hlive
    rw [Crowd.set_peers_self] at hlive
    cases hlive
  · exact h.holding.frame rfl rfl rfl
      (fun q hq => ⟨Crowd.set_peers_of_ne (hholder q hq) _, rfl, rfl⟩) fun q _ => ⟨rfl, rfl⟩

theorem Follows.read (h : Follows w t) {pfd : ℕ} (hmove : watch io sizes (.read pfd) w = some w') :
    Follows w' t := by
  obtain ⟨s', hs', rfl⟩ := Option.map_eq_some_iff.mp hmove
  have horderly : Orderly s' := h.orderly.read hs'
  obtain ⟨p, hp⟩ : ∃ p, w.crowd.daemon.gConnectionPollfds pfd = p := ⟨_, rfl⟩
  simp only [move, hp] at hs'
  split at hs'
  · rename_i hdoing
    split at hs'
    · rename_i hpfd
      split at hs'
      · cases hs'
      · rename_i req rest hreqs
        obtain rfl := Option.some.inj hs'
        have hidle : ∀ q, w.crowd.job q = .idle := Crowd.job_polling hdoing
        have hlive : (w.crowd.peers p).alive = true := by
          by_contra hdead
          have hnil := (h.dead p (Bool.eq_false_iff.mpr hdead)).1
          rw [hnil] at hreqs
          cases hreqs
        obtain ⟨n, -, hsits⟩ := h.orderly.sits p hlive
        rw [hidle p] at hsits
        cases hsits with
        | sent req' hprog hholds hreq hreplied hsize hrep hcopied =>
          obtain ⟨rfl, rfl⟩ := List.cons.inj (hreqs.symm.trans hreq)
          obtain ⟨first, asked, hfirst, hasks, hpeer, hresults⟩ := h.asking hholds (by
            obtain ⟨prog, hx⟩ : ∃ prog, (w.crowd.peers p).prog = prog := ⟨_, rfl⟩
            rw [hx] at hprog
            cases prog with
            | receiveReply size next => simp [hidle p, Peer.settles, hx, hrep]
            | _ => exact hprog.elim)
          refine h.frame p horderly (fun q hq => Crowd.set_peers_of_ne hq _) (fun q hq => ?_)
            (fun _ _ => Iff.rfl) (fun _ _ => rfl) (fun _ _ => ⟨rfl, rfl, rfl⟩)
            (fun pfd' req' hserving => ?_) h.daemon (fun hdead => ?_) ?_
            (fun hne => absurd hholds hne) (.asking p first asked hholds hfirst hasks ?_ hresults)
          · rw [hidle q]
            exact if_neg fun he => hq (he.symm.trans hp)
          · obtain ⟨rfl, -⟩ := Doing.serving.inj hserving
            exact hpfd
          · change ((w.crowd.set p _).peers p).alive = false at hdead
            rw [Crowd.set_peers_self, hlive] at hdead
            cases hdead
          · show t.alive p = ((w.crowd.set p _).peers p).alive
            rw [Crowd.set_peers_self, h.alive]
          · have hjob : Crowd.job { w.crowd.set p { w.crowd.peers p with requests := [] } with
                doing := .serving pfd req } p = .running req := if_pos hp
            show Peer.asks ((w.crowd.set p _).peers p) w.crowd.daemon.shm _ = _
            rw [hjob, Crowd.set_peers_self]
            rw [hidle p] at hpeer
            simpa only [Peer.asks, hreq] using hpeer
        | _ => simp_all
    · cases hs'
  · cases hs'

/-- **The request of a client is run**: this is its exchange. -/
theorem Follows.exchange (h : Follows w t) {choice : Choice}
    (hmove : watch io sizes (.run choice) w = some w') :
    ∃ t', run (moveWhole io sizes) (atomic (.run choice) w) t = some t' ∧
      Follows w' t' := by
  obtain ⟨s', hs', rfl⟩ := Option.map_eq_some_iff.mp hmove
  obtain ⟨pfd, req, hdoing⟩ : ∃ pfd req, w.crowd.doing = .serving pfd req := by
    simp only [move] at hs'
    split at hs'
    · exact ⟨_, _, by assumption⟩
    · cases hs'
  obtain ⟨p, hp⟩ : ∃ p, w.crowd.daemon.gConnectionPollfds pfd = p := ⟨_, rfl⟩
  have hjobs : ∀ q, w.crowd.job q = if p = q then .running req else .idle := by
    intro q
    simp only [Crowd.job, hdoing, hp]
  have hjob : w.crowd.job p = .running req := (hjobs p).trans (if_pos rfl)
  have hlive : (w.crowd.peers p).alive = true := by
    by_contra hdead
    have hidle := (h.dead p (Bool.eq_false_iff.mpr hdead)).2
    rw [hjob] at hidle
    cases hidle
  have hdeadRun : DeadRunAlone (.run choice) w.crowd := by
    intro pfd' req' hserving hdead
    obtain ⟨rfl, -⟩ := Doing.serving.inj (hdoing.symm.trans hserving)
    rw [hp, hlive] at hdead
    cases hdead
  have horderly : Orderly s' := h.orderly.run hdeadRun hs'
  obtain ⟨n, -, hsits⟩ := h.orderly.sits p hlive
  rw [hjob] at hsits
  cases hsits with
  | handled _ hprog hholds hreq hreplied hsize hrep hcopied =>
    obtain ⟨prog, hx⟩ : ∃ prog, (w.crowd.peers p).prog = prog := ⟨_, rfl⟩
    rw [hx] at hprog
    cases prog with
    | receiveReply size next =>
      obtain ⟨first, asked, hfirst, hasks, hpeer, hresults⟩ := h.asking hholds (by
        simp [hjob, Peer.settles])
      rw [hjob] at hpeer
      simp only [Peer.asks, hx, Prog.asks, Option.some.injEq] at hpeer
      subst hpeer
      obtain ⟨d, hd⟩ :
        ∃ d, d = (eventHandlerFunc io pfd choice (some req) w.crowd.daemon).2 := ⟨_, rfl⟩
      obtain ⟨bytes, hbytes⟩ :
        ∃ bytes, bytes = (d.stream p).drop (w.crowd.daemon.stream p).length := ⟨_, rfl⟩
      obtain ⟨ns, rest, hrest⟩ := (hprog.2 (bytes.take size)).settles
      -- outside the shared memory the two daemons are the same
      have hsame : t.daemon.gConnectionPollfds pfd = p ∧
          t.daemon.gCurrentClientCount = w.crowd.daemon.gCurrentClientCount ∧
          t.daemon.stream p = w.crowd.daemon.stream p := by
        rw [← hp, ← h.daemon]
        exact ⟨rfl, rfl, rfl⟩
      simp only [move, hdoing, hp, ← hd, ← hbytes] at hs'
      obtain rfl := Option.some.inj hs'
      refine ⟨{ t with
        progs := Function.update t.progs p rest
        results := Function.update t.results p (t.results p ++ ns.map fun n => d.shm.take n)
        daemon := d }, ?_, ?_⟩
      · have hlabel : atomic (.run choice) w = [.exchange pfd choice] := by
          simp only [atomic, hdoing]
        have halive : t.alive p = true := (h.alive p).trans hlive
        have hcount : pfd < w.crowd.daemon.gCurrentClientCount := h.served pfd req hdoing
        have hexchange : t.exchange io pfd choice = some { t with
            progs := Function.update t.progs p rest
            results := Function.update t.results p (t.results p ++ ns.map fun n => d.shm.take n)
            daemon := d } := by
          simp only [OneByOne.exchange, hsame.1, hfirst, hasks, Option.bind_some, h.daemon, ← hd,
            hsame.2.2, ← hbytes, hrest, Option.map_some]
        rw [hlabel]
        simp only [run, moveWhole, hsame.1, hsame.2.1, halive, hcount, and_self,
          if_true, hexchange, Option.bind_some]
      · have hself : Crowd.job { w.crowd.set p { w.crowd.peers p with left := some d.shm } with
            daemon := d
            doing := .answering p bytes } p = .replying bytes := if_pos rfl
        refine h.frame p horderly (fun q hq => Crowd.set_peers_of_ne hq _) (fun q hq => ?_)
          (fun _ _ => Iff.rfl) (fun _ _ => rfl)
          (fun q hq => ⟨Function.update_of_ne hq .., rfl, Function.update_of_ne hq ..⟩)
          (fun _ _ hserving => by cases hserving) rfl (fun hdead => ?_) ?_
          (fun hne => absurd hholds hne) (.settling p ns hholds rfl ?_ ?_)
        · rw [hjobs q, if_neg (Ne.symm hq)]
          exact if_neg (Ne.symm hq)
        · change ((w.crowd.set p _).peers p).alive = false at hdead
          rw [Crowd.set_peers_self, hlive] at hdead
          cases hdead
        · show t.alive p = ((w.crowd.set p _).peers p).alive
          rw [Crowd.set_peers_self, h.alive]
        · show Peer.settles ((w.crowd.set p _).peers p) _ =
            some (ns, Function.update t.progs p rest p)
          rw [hself, Crowd.set_peers_self, Function.update_self]
          simp only [Peer.settles, hx, hrest]
        · show Function.update t.results p _ p = w.results p ++ _
          rw [Function.update_self, hresults]
    | _ => exact hprog.elim

theorem Follows.reply (h : Follows w t) (hmove : watch io sizes .reply w = some w') :
    Follows w' t := by
  obtain ⟨s', hs', rfl⟩ := Option.map_eq_some_iff.mp hmove
  have horderly : Orderly s' := h.orderly.reply hs'
  simp only [move] at hs'
  split at hs'
  · rename_i p bytes hdoing
    obtain rfl := Option.some.inj hs'
    have hjobs : ∀ q, w.crowd.job q = if p = q then .replying bytes else .idle := by
      intro q
      simp only [Crowd.job, hdoing]
    have hjob : w.crowd.job p = .replying bytes := (hjobs p).trans (if_pos rfl)
    have hlive : (w.crowd.peers p).alive = true := by
      by_contra hdead
      have hidle := (h.dead p (Bool.eq_false_iff.mpr hdead)).2
      rw [hjob] at hidle
      cases hidle
    obtain ⟨n, hn, hsits⟩ := h.orderly.sits p hlive
    rw [hjob] at hsits
    cases hsits with
    | answered _ hprog hholds hreq hrep hlen hleft =>
      obtain ⟨ns, hshm, hsettles, hresults⟩ := h.settling hholds (by
        simp [hjob, Peer.asks])
      have hbytes : bytes ≠ [] := by
        rintro rfl
        exact hn hlen.symm
      refine h.frame p horderly (fun q hq => Crowd.set_peers_of_ne hq _) (fun q hq => ?_)
        (fun _ _ => Iff.rfl) (fun _ _ => rfl) (fun _ _ => ⟨rfl, rfl, rfl⟩)
        (fun _ _ hserving => by cases hserving) h.daemon (fun hdead => ?_) ?_
        (fun hne => absurd hholds hne) (.settling p ns hholds hshm ?_ hresults)
      · rw [hjobs q, if_neg (Ne.symm hq)]
        rfl
      · change ((w.crowd.set p _).peers p).alive = false at hdead
        rw [Crowd.set_peers_self, hlive] at hdead
        cases hdead
      · show t.alive p = ((w.crowd.set p _).peers p).alive
        rw [Crowd.set_peers_self, h.alive]
      · show Peer.settles ((w.crowd.set p _).peers p) .idle = _
        rw [hjob] at hsettles
        obtain ⟨prog, hx⟩ : ∃ prog, (w.crowd.peers p).prog = prog := ⟨_, rfl⟩
        rw [hx] at hprog
        cases prog with
        | receiveReply size next =>
          rw [Crowd.set_peers_self]
          simpa only [Peer.settles, hx, hrep, List.nil_append, if_neg hbytes] using hsettles
        | _ => exact hprog.elim
  · cases hs'

theorem Follows.connect (h : Follows w t) {a : Accept}
    (hmove : watch io sizes (.connect a) w = some w') :
    ∃ t', moveWhole io sizes (.connect a) t = some t' ∧ Follows w' t' := by
  obtain ⟨s', hs', rfl⟩ := Option.map_eq_some_iff.mp hmove
  have horderly : Orderly s' := h.orderly.connect hs'
  simp only [move] at hs'
  split at hs'
  · rename_i hdoing
    split at hs'
    · cases hs'
    · rename_i hdead
      obtain ⟨d, hd, rfl⟩ := Option.map_eq_some_iff.mp hs'
      have hidle : ∀ q, w.crowd.job q = .idle := Crowd.job_polling hdoing
      obtain ⟨d', hd', hsame, hshm⟩ := h.handled (by simp) hd
      have hclients : a.s ∈ d'.clients ↔ a.s ∈ d.clients := by
        rw [← hsame]
      have hlock : w.crowd.lock ≠ some a.s := fun hl => hdead (h.orderly.owner a.s hl)
      have hholder : ∀ q, w.crowd.lock = some q → q ≠ a.s := fun q hq he => hlock (he ▸ hq)
      refine ⟨{ t with
        progs := Function.update t.progs a.s (.done 0)
        alive := Function.update t.alive a.s (decide (a.s ∈ d'.clients))
        daemon := d' }, ?_, ?_⟩
      · have halive : ¬ t.alive a.s = true := by
          rw [h.alive]
          exact hdead
        simp only [moveWhole, if_neg halive, hd', Option.map_some]
      · refine h.frame a.s horderly (fun q hq => Crowd.set_peers_of_ne hq _) (fun q _ => ?_)
          (fun _ _ => Iff.rfl) (fun _ _ => rfl)
          (fun q hq => ⟨Function.update_of_ne hq .., Function.update_of_ne hq .., rfl⟩)
          (fun _ _ hserving => ?_) hsame (fun _ => ?_) ?_
          (fun _ => ⟨fun _ => ?_, (h.outside a.s hlock).2⟩) ?_
        · rw [hidle q, Crowd.job_polling (by exact hdoing)]
        · change w.crowd.doing = _ at hserving
          rw [hdoing] at hserving
          cases hserving
        · show ((w.crowd.set a.s _).peers a.s).requests = [] ∧ _
          rw [Crowd.set_peers_self, Crowd.job_polling (by exact hdoing)]
          exact ⟨rfl, rfl⟩
        · show Function.update t.alive a.s _ a.s = ((w.crowd.set a.s _).peers a.s).alive
          rw [Crowd.set_peers_self, Function.update_self]
          exact decide_eq_decide.mpr hclients
        · show Function.update t.progs a.s _ a.s = ((w.crowd.set a.s _).peers a.s).prog
          rw [Crowd.set_peers_self, Function.update_self]
        · refine h.holding.frame rfl (handle_keeps_shm (by simp) hd) hshm
            (fun q hq => ⟨Crowd.set_peers_of_ne (hholder q hq) _, ?_, rfl⟩)
            fun q hq => ⟨Function.update_of_ne (hholder q hq) .., rfl⟩
          rw [hidle q, Crowd.job_polling (by exact hdoing)]
  · cases hs'

theorem Follows.hangup (h : Follows w t) {pfd fuel : ℕ}
    (hmove : watch io sizes (.hangup pfd fuel) w = some w') :
    ∃ t', moveWhole io sizes (.hangup pfd fuel) t = some t' ∧ Follows w' t' := by
  obtain ⟨s', hs', rfl⟩ := Option.map_eq_some_iff.mp hmove
  have horderly : Orderly s' := h.orderly.hangup hs'
  simp only [move] at hs'
  split at hs'
  · rename_i hdoing
    split at hs'
    · cases hs'
    · rename_i hdead
      obtain ⟨d, hd, rfl⟩ := Option.map_eq_some_iff.mp hs'
      obtain ⟨d', hd', hsame, hshm⟩ := h.handled (by simp) hd
      have hpollfds : t.daemon.gConnectionPollfds pfd = w.crowd.daemon.gConnectionPollfds pfd := by
        rw [← h.daemon]
      have hjob : ∀ q, Crowd.job { w.crowd with daemon := d } q = w.crowd.job q := by
        intro q
        rw [Crowd.job_polling hdoing, Crowd.job_polling (by exact hdoing)]
      refine ⟨{ t with daemon := d' }, ?_, horderly, fun q hq => ?_, fun _ _ hserving => ?_,
        h.alive, h.outside, hsame, ?_⟩
      · have halive : ¬ t.alive (t.daemon.gConnectionPollfds pfd) = true := by
          rw [hpollfds, h.alive]
          exact hdead
        simp only [moveWhole, if_neg halive, hd', Option.map_some]
      · rw [hjob q]
        exact h.dead q hq
      · change w.crowd.doing = _ at hserving
        rw [hdoing] at hserving
        cases hserving
      · exact h.holding.frame rfl (handle_keeps_shm (by simp) hd) hshm
          (fun q _ => ⟨rfl, hjob q, rfl⟩) fun _ _ => ⟨rfl, rfl⟩
  · cases hs'

/-! ## 9. Calls of one exchange

A call that transfers more than the shared memory holds takes an exchange for each chunk, and
others may come in between.  Every other call is one exchange. -/

/-- What an exchange does to the functions of the clients. -/
theorem OneByOne.exchange_cases {pfd : ℕ} {choice : Choice}
    (h : t.exchange io pfd choice = some t') : ∃ next asked ns rest,
      t.progs (t.daemon.gConnectionPollfds pfd) = .requireLock next ∧
      next.asks t.daemon.shm = some asked ∧
      (asked.next ((((eventHandlerFunc io pfd choice (some asked.req)
        { t.daemon with shm := asked.shm }).2.stream (t.daemon.gConnectionPollfds pfd)).drop
          (t.daemon.stream (t.daemon.gConnectionPollfds pfd)).length).take asked.size)).settles =
        some (ns, rest) ∧
      t'.progs = Function.update t.progs (t.daemon.gConnectionPollfds pfd) rest := by
  simp only [OneByOne.exchange] at h
  split at h
  · rename_i next hnext
    obtain ⟨asked, hasked, hrest⟩ := Option.bind_eq_some_iff.mp h
    obtain ⟨⟨ns, rest⟩, hsettles, rfl⟩ := Option.map_eq_some_iff.mp hrest
    exact ⟨next, asked, ns, rest, hnext, hasked, hsettles, rfl⟩
  · cases h

/-- What holds of the function of every client holds of the ones after one of them was changed. -/
theorem forall_update {P : Prog → Prop} {progs : CInt → Prog} (h : ∀ p, P (progs p)) {q : CInt}
    {prog : Prog} (hprog : P prog) : ∀ p, P (Function.update progs q prog p) := by
  intro p
  by_cases hpq : p = q
  · rw [hpq, Function.update_self]
    exact hprog
  · rw [Function.update_of_ne hpq]
    exact h p

/-- What calls begin with and exchanges keep holds of the function of every client. -/
theorem moveWhole_progs {P : Prog → Prop} {m : WholeMove} (h : ∀ p, P (t.progs p))
    (hdone : P (.done 0)) (hcall : ∀ p c, m = .call p c → P (c.prog sizes))
    (hexchange : ∀ pfd choice t', t.exchange io pfd choice = some t' → ∀ p, P (t'.progs p))
    (hmove : moveWhole io sizes m t = some t') : ∀ p, P (t'.progs p) := by
  cases m with
  | call q c =>
    simp only [moveWhole] at hmove
    split at hmove
    · obtain rfl := Option.some.inj hmove
      exact forall_update h (hcall q c rfl)
    · cases hmove
  | leave q =>
    obtain rfl := Option.some.inj hmove
    exact h
  | exchange pfd choice =>
    obtain ⟨-, hmove⟩ := Option.ite_none_right_eq_some.mp hmove
    exact hexchange pfd choice t' hmove
  | connect a =>
    obtain ⟨-, hmove⟩ := Option.ite_none_left_eq_some.mp hmove
    obtain ⟨d, -, rfl⟩ := Option.map_eq_some_iff.mp hmove
    exact forall_update h hdone
  | hangup pfd fuel =>
    obtain ⟨-, hmove⟩ := Option.ite_none_left_eq_some.mp hmove
    obtain ⟨d, -, rfl⟩ := Option.map_eq_some_iff.mp hmove
    exact h

/-- A call in the run of whole exchanges is one of the crowd's. -/
theorem call_of_mem_labels {moves : List Move} {w : Watched σ} {p : CInt} {c : ClientCall}
    (h : WholeMove.call p c ∈ labels (watch io sizes) atomic moves w) : Move.call p c ∈ moves := by
  obtain ⟨m, hm, v, hv⟩ := mem_labels h
  cases m with
  | call q c' =>
    obtain ⟨rfl, rfl⟩ := WholeMove.call.inj (List.mem_singleton.mp hv)
    exact hm
  | run choice =>
    simp only [atomic] at hv
    split at hv
    · cases List.mem_singleton.mp hv
    · cases hv
  | die q => cases List.mem_singleton.mp hv
  | connect a => cases List.mem_singleton.mp hv
  | hangup pfd fuel => cases List.mem_singleton.mp hv
  | _ => cases hv

/-- **A step of the crowd is followed by `moveWhole`.** -/
theorem Follows.step (h : Follows w t) {m : Move} (hcall : ∀ p c, m = .call p c → c.RepliedOnce)
    (hleave : LeavesIdle m w) (hmove : watch io sizes m w = some w') :
    ∃ t', run (moveWhole io sizes) (atomic m w) t = some t' ∧ Follows w' t' := by
  have hsingle : ∀ {e : WholeMove}, (∃ t', moveWhole io sizes e t = some t' ∧ Follows w' t') →
      ∃ t', run (moveWhole io sizes) [e] t = some t' ∧ Follows w' t' := by
    rintro e ⟨t', ht', hfollows⟩
    exact ⟨t', run_cons.mpr ⟨t', ht', rfl⟩, hfollows⟩
  cases m with
  | call p c => exact hsingle (h.call (hcall p c rfl) hmove)
  | act p =>
    have hlive : (w.crowd.peers p).alive = true := by
      by_contra hdead
      simp [watch, move, hdead] at hmove
    exact ⟨t, rfl, h.act hlive hmove⟩
  | die p => exact hsingle (h.die hleave hmove)
  | read pfd => exact ⟨t, rfl, h.read hmove⟩
  | run choice => exact h.exchange hmove
  | reply => exact ⟨t, rfl, h.reply hmove⟩
  | connect a => exact hsingle (h.connect hmove)
  | hangup pfd fuel => exact hsingle (h.hangup hmove)

end Relation

end PfsShell.Pfsd
