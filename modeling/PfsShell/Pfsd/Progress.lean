/-
# A call can always be finished

Between its lock and its unlock a client waits for the daemon, and everybody else waits for the
client.  `call_finishes`: wherever a run has come to, a client that is in a call returns from it
after steps of its own, of the client that has the lock and of the daemon, and then nobody has the
lock.  No step has to be waited for that only a new call, a new client or a client that leaves
could bring about.

The loops of `scepfsdRead` and `scepfsdWrite` end when iomanX reports no more than it was asked
for: every chunk but the last moves as much as the shared memory holds.

* `Prog.Lasts` says that a function does not run out of fuel, and `ClientCall.Fueled` how much
  fuel is enough;
* `Attended` is what the daemon needs: the crowd is orderly, and every client that lives is in the
  poll table;
* `Finishes` follows one client.  The induction is on what is left of its function; the reply it
  waits for takes the daemon three steps, and the phases are taken from the last to the first.
-/
import PfsShell.Pfsd.Atomic
import PfsShell.Pfsd.Transfer

namespace PfsShell.Pfsd

open PfsShell.Lib

/-! ## 1. Enough fuel

A transfer goes round its loop as long as a whole chunk is moved. -/

/-- What may come back for a request: a transfer reports no more than it was asked for. -/
def Request.Allows (bytes : List UInt8) : Request → Prop
  | .pfsdReqRead _ _ n => ∃ v, bytes = int32Bytes v ∧ (0 ≤ n → v ≤ n)
  | .pfsdReqWrite _ _ n => ∃ v, bytes = int32Bytes v ∧ (0 ≤ n → v ≤ n)
  | _ => True

/-- The function does not run out of fuel; `asked` is the request whose reply it reads next. -/
def Prog.Lasts : Option Request → Prog → Prop
  | _, .done _ => True
  | _, .outOfFuel => False
  | _, .requireLock next => next.Lasts none
  | _, .releaseLock next => next.Lasts none
  | asked, .copyIn _ next => next.Lasts asked
  | asked, .copyOut _ next => next.Lasts asked
  | _, .sendRequest req next => next.Lasts (some req)
  | asked, .receiveReply size next =>
    ∀ bytes, (∀ req ∈ asked, req.Allows bytes) → (next (bytes.take size)).Lasts asked

/-- The size of a transfer is an `int`, and the fuel is enough for its chunks. -/
def ClientCall.Fueled (sizes : Sizes) : ClientCall → Prop
  | .read fuel _ _ size | .write fuel _ _ size =>
    fuel ≠ 0 ∧ size.toNat < 2 ^ 31 ∧ size.toNat ≤ fuel * sizes.sharedMemorySize.toNat
  | _ => True

section Fuel

variable {sizes : Sizes} {asked : Option Request}

theorem lasts_copyArg {next : Prog} (h : next.Lasts asked) :
    ∀ arg : Option Mem, (copyArg arg next).Lasts asked
  | none => h
  | some _ => h

theorem lasts_copyBuf {next : Prog} (h : next.Lasts asked) (buf : Bool) (k : ℕ) :
    (copyBuf buf k next).Lasts asked := by
  cases buf with
  | false => exact h
  | true => exact h

theorem lasts_request {req : Request} {next : CInt → Prog}
    (h : ∀ bytes, req.Allows bytes →
      (next (int32OfBytes (bytes.take 4))).Lasts (some req)) :
    (request req next).Lasts asked :=
  fun bytes hbytes => h bytes (hbytes req rfl)

theorem lasts_requireLock {next : Prog} (h : next.Lasts none) :
    (Prog.requireLock next).Lasts asked := h

theorem lasts_releaseLock {next : Prog} (h : next.Lasts none) :
    (Prog.releaseLock next).Lasts asked := h

theorem lasts_exchange (arg : Option Mem) (req : Request) (buf : Bool) (k : ℕ) :
    (exchange arg req buf k).Lasts asked :=
  lasts_requireLock (lasts_copyArg
    (lasts_request fun _ _ => lasts_copyBuf (lasts_releaseLock (by trivial)) buf k) arg)

/-- What a reply to a transfer of `n` bytes stands for. -/
theorem int32OfBytes_le {bytes : List UInt8} {n : CInt}
    (h : ∃ v, bytes = int32Bytes v ∧ (0 ≤ n → v ≤ n)) :
    0 ≤ n → int32OfBytes (bytes.take 4) ≤ n := by
  obtain ⟨v, rfl, hv⟩ := h
  rw [List.take_of_length_le (length_int32Bytes v).le, int32OfBytes_int32Bytes]
  exact hv

theorem lasts_readChunk {fd : CInt} {ptr : Bool} {size : UInt64} {next : CInt → Prog}
    (h : ∀ v, (0 ≤ intOfSize size → v ≤ intOfSize size) → (next v).Lasts none) :
    (readChunk fd ptr size next).Lasts none := by
  unfold readChunk
  refine lasts_requireLock (lasts_request fun bytes hbytes => ?_)
  exact lasts_copyBuf (lasts_releaseLock (h _ (int32OfBytes_le hbytes))) ptr _

theorem lasts_writeChunk {fd : CInt} {ptr : Option Mem} {size : UInt64} {next : CInt → Prog}
    (h : ∀ v, (0 ≤ intOfSize size → v ≤ intOfSize size) → (next v).Lasts none) :
    (writeChunk fd ptr size next).Lasts none := by
  unfold writeChunk
  refine lasts_requireLock (lasts_copyArg (lasts_request fun bytes hbytes => ?_) _)
  exact lasts_releaseLock (h _ (int32OfBytes_le hbytes))

/-- **A round of the loop**: it goes on when a whole chunk was moved, and what is left needs a
round less. -/
theorem chunk_moved {shm size : UInt64} {c v : CInt} {fuel : ℕ} (hsize : size.toNat < 2 ^ 31)
    (hc : 0 ≤ c.toInt) (hle : c.toInt ≤ size.toNat)
    (hfuel : size.toNat - c.toInt.toNat ≤ (fuel + 1) * shm.toNat)
    (hloop : shm < size - sizeOfInt c) (hv : 0 ≤ intOfSize shm → v ≤ intOfSize shm)
    (hshort : ¬ v < intOfSize shm) :
    fuel ≠ 0 ∧ 0 ≤ (c + v).toInt ∧ (c + v).toInt ≤ size.toNat ∧
      size.toNat - (c + v).toInt.toNat ≤ fuel * shm.toNat := by
  rw [UInt64.lt_iff_toNat_lt, toNat_size_sub hc hle] at hloop
  have hshm : (intOfSize shm).toInt = shm.toNat := toInt_intOfSize (by omega)
  have hwhole : v.toInt = shm.toNat := by
    have hle' : v.toInt ≤ (intOfSize shm).toInt := Int32.le_iff_toInt_le.mp (hv (by
      rw [Int32.le_iff_toInt_le, hshm]
      exact Int.natCast_nonneg _))
    have hge : ¬ v.toInt < (intOfSize shm).toInt := fun h => hshort (Int32.lt_iff_toInt_lt.mpr h)
    omega
  have hsum : (c + v).toInt = c.toInt + v.toInt := toInt_add_count (by omega) (by omega)
  rw [Nat.succ_mul] at hfuel
  refine ⟨?_, by omega, by omega, by omega⟩
  rintro rfl
  omega

theorem lasts_scepfsdReadFrom {fd : CInt} {ptr : Bool} {size : UInt64}
    (hsize : size.toNat < 2 ^ 31) : ∀ (fuel : ℕ) (c : CInt), fuel ≠ 0 → 0 ≤ c.toInt →
      c.toInt ≤ size.toNat →
      size.toNat - c.toInt.toNat ≤ fuel * sizes.sharedMemorySize.toNat →
      (scepfsdReadFrom sizes fd ptr size fuel c).Lasts none := by
  intro fuel
  induction fuel with
  | zero => exact fun c hfuel => absurd rfl hfuel
  | succ fuel ih =>
    intro c _ hc hle hfuel
    unfold scepfsdReadFrom
    split
    · rename_i hloop
      refine lasts_readChunk fun v hv => ?_
      split
      · trivial
      · split
        · trivial
        · rename_i hshort
          obtain ⟨hfuel', hc', hle', hrest⟩ := chunk_moved hsize hc hle hfuel hloop hv hshort
          exact ih _ hfuel' hc' hle' hrest
    · exact lasts_readChunk fun _ _ => trivial

theorem lasts_scepfsdWriteFrom {fd : CInt} {ptr : Option Mem} {size : UInt64}
    (hsize : size.toNat < 2 ^ 31) : ∀ (fuel : ℕ) (c : CInt), fuel ≠ 0 → 0 ≤ c.toInt →
      c.toInt ≤ size.toNat →
      size.toNat - c.toInt.toNat ≤ fuel * sizes.sharedMemorySize.toNat →
      (scepfsdWriteFrom sizes fd ptr size fuel c).Lasts none := by
  intro fuel
  induction fuel with
  | zero => exact fun c hfuel => absurd rfl hfuel
  | succ fuel ih =>
    intro c _ hc hle hfuel
    unfold scepfsdWriteFrom
    split
    · rename_i hloop
      refine lasts_writeChunk fun v hv => ?_
      split
      · trivial
      · split
        · trivial
        · rename_i hshort
          obtain ⟨hfuel', hc', hle', hrest⟩ := chunk_moved hsize hc hle hfuel hloop hv hshort
          exact ih _ hfuel' hc' hle' hrest
    · exact lasts_writeChunk fun _ _ => trivial

/-- **How much fuel is enough**: a round for every chunk. -/
theorem ClientCall.Fueled.lasts {c : ClientCall} (h : c.Fueled sizes) :
    (c.prog sizes).Lasts none := by
  cases c with
  | lseek64 fd offset whence => exact fun _ _ => trivial
  | read fuel fd ptr size =>
    obtain ⟨hfuel, hsize, henough⟩ := h
    exact lasts_scepfsdReadFrom hsize fuel 0 hfuel (by decide) (Int.natCast_nonneg _) henough
  | write fuel fd ptr size =>
    obtain ⟨hfuel, hsize, henough⟩ := h
    exact lasts_scepfsdWriteFrom hsize fuel 0 hfuel (by decide) (Int.natCast_nonneg _) henough
  | ioctl2 fd command arg arglen buf buflen xfer =>
    simp only [ClientCall.prog, scepfsdIoctl2]
    split
    · split
      · trivial
      · exact lasts_exchange _ _ _ _
    · exact lasts_exchange _ _ _ _
  | _ => exact lasts_exchange _ _ _ _

theorem Prog.Lasts.asks {shm : Mem} {a : Asking} : ∀ {prog : Prog} {asked : Option Request},
    prog.Lasts asked → prog.asks shm = some a →
    ∀ bytes, a.req.Allows bytes → (a.next (bytes.take a.size)).Lasts (some a.req) := by
  intro prog
  induction prog generalizing shm with
  | copyIn bytes next ih => exact fun h ha => ih h ha
  | sendRequest req next ih =>
    intro asked h ha
    cases next with
    | receiveReply size next =>
      obtain rfl := Option.some.inj ha
      exact fun bytes hbytes => h bytes fun req' hreq => Option.some.inj hreq ▸ hbytes
    | _ => cases ha
  | _ =>
    intro asked _ ha
    cases ha

theorem Prog.Lasts.settles : ∀ {prog : Prog} {asked : Option Request} {ns : List ℕ} {rest : Prog},
    prog.Lasts asked → prog.settles = some (ns, rest) → rest.Lasts none := by
  intro prog
  induction prog with
  | copyOut n next ih =>
    intro asked ns rest h hsettles
    obtain ⟨⟨ns', rest'⟩, hrest, heq⟩ := Option.map_eq_some_iff.mp hsettles
    obtain ⟨-, rfl⟩ := Prod.mk.inj heq
    exact ih h hrest
  | releaseLock next ih =>
    intro asked ns rest h hsettles
    obtain ⟨-, rfl⟩ := Prod.mk.inj (Option.some.inj hsettles)
    exact h
  | _ =>
    intro asked ns rest _ hsettles
    cases hsettles

end Fuel

section Replies

variable {σ : Type} {io : IomanX σ} {sizes : Sizes} {t t' : OneByOne σ}

/-- The daemon's reply is one that the request allows. -/
theorem allows_reply (hio : TransfersAtMost io) (pfd : ℕ) (choice : Choice) (req : Request)
    (d : Daemon σ) :
    req.Allows (((eventHandlerFunc io pfd choice (some req) d).2.stream
      (d.gConnectionPollfds pfd)).drop (d.stream (d.gConnectionPollfds pfd)).length) := by
  have hbroke : ∀ c : Call,
      ((broke (d.gConnectionPollfds pfd) (call io (d.gConnectionPollfds pfd) c d)).2.stream
        (d.gConnectionPollfds pfd)).drop (d.stream (d.gConnectionPollfds pfd)).length =
      int32Bytes (call io (d.gConnectionPollfds pfd) c d).1 := by
    intro c
    have hsent : (broke (d.gConnectionPollfds pfd)
        (call io (d.gConnectionPollfds pfd) c d)).2.sent =
        d.sent ++ [(d.gConnectionPollfds pfd,
          int32Bytes (call io (d.gConnectionPollfds pfd) c d).1)] := rfl
    rw [stream_append hsent, List.drop_left]
    simp
  cases req with
  | pfsdReqRead f useshm size => exact ⟨_, hbroke _, fun hsize => (hio _ _ _ _ hsize).1⟩
  | pfsdReqWrite f useshm size => exact ⟨_, hbroke _, fun hsize => (hio _ _ _ _ hsize).2⟩
  | _ => trivial

theorem OneByOne.exchange_lasts (hio : TransfersAtMost io) {pfd : ℕ} {choice : Choice}
    (h : ∀ p, (t.progs p).Lasts none) (hexchange : t.exchange io pfd choice = some t') :
    ∀ p, (t'.progs p).Lasts none := by
  obtain ⟨next, asked, ns, rest, hnext, hasked, hsettles, hprogs⟩ :=
    OneByOne.exchange_cases hexchange
  have hfirst : next.Lasts none := by
    have hp := h (t.daemon.gConnectionPollfds pfd)
    rw [hnext] at hp
    exact hp
  have hallowed := allows_reply hio pfd choice asked.req { t.daemon with shm := asked.shm }
  have hended : rest.Lasts none := (hfirst.asks hasked _ hallowed).settles hsettles
  rw [hprogs]
  exact forall_update h hended

end Replies

/-! ## 2. The clients that live are polled -/

section Attended

variable {σ : Type} {io : IomanX σ} {sizes : Sizes} {w w' : Watched σ} {p : CInt}

/-- Every living client is in the poll table. -/
def Connected (s : Crowd σ) : Prop :=
  ∀ p, (s.peers p).alive = true → p ∈ s.daemon.clients

/-- The crowd is followed by whole exchanges, in which nobody runs out of fuel, and the daemon
polls every client. -/
structure Attended (w : Watched σ) : Prop where
  follows : ∃ t, Follows w t ∧ ∀ p, (t.progs p).Lasts none
  connected : Connected w.crowd

theorem Attended.orderly (h : Attended w) : Orderly w.crowd := by
  obtain ⟨t, ht, -⟩ := h.follows
  exact ht.orderly

theorem Connected.set {s : Crowd σ} (h : Connected s) {x : Peer}
    (hx : x.alive = true → (s.peers p).alive = true) : Connected (s.set p x) := by
  intro q hq
  by_cases hqp : q = p
  · subst hqp
    rw [Crowd.set_peers_self] at hq
    exact h q (hx hq)
  · rw [Crowd.set_peers_of_ne hqp] at hq
    exact h q hq

theorem Connected.act {s s' : Crowd σ} (h : Connected s) (hact : s.act p = some s') :
    Connected s' := by
  simp only [Crowd.act] at hact
  split at hact
  case h_1 | h_2 => cases hact
  case h_3 =>
    split at hact
    · obtain rfl := Option.some.inj hact
      exact h.set fun hx => hx
    · cases hact
  case h_8 =>
    split at hact
    · cases hact
    · obtain rfl := Option.some.inj hact
      exact h.set fun hx => hx
  all_goals
    obtain rfl := Option.some.inj hact
    exact h.set fun hx => hx

/-- A client that is not removed stays in the table. -/
theorem Conns.mem_removeClient {c : Conns} {pfd : ℕ} (hpfd : pfd < c.gCurrentClientCount)
    {q : CInt} (hq : q ∈ c.clients) (hne : q ≠ c.gConnectionPollfds pfd) :
    q ∈ (c.removeClient pfd).clients := by
  rw [Conns.clients_removeClient hpfd, List.mem_eraseIdx_iff_getElem?]
  obtain ⟨i, hi, rfl⟩ := mem_live.mp hq
  refine ⟨i, fun he => hne (he ▸ rfl), ?_⟩
  simp [Conns.clients, live, hi]

theorem Connected.move {s s' : Crowd σ} (h : Connected s) {m : Move}
    (hmove : Pfsd.move io sizes m s = some s') : Connected s' := by
  cases m with
  | call q c =>
    simp only [Pfsd.move] at hmove
    split at hmove
    · obtain rfl := Option.some.inj hmove
      exact h.set fun hx => hx
    · cases hmove
  | act q =>
    simp only [Pfsd.move] at hmove
    split at hmove
    · exact h.act hmove
    · cases hmove
  | die q =>
    obtain rfl := Option.some.inj hmove
    exact h.set fun hx => absurd hx Bool.false_ne_true
  | read pfd =>
    simp only [Pfsd.move] at hmove
    split at hmove
    · split at hmove
      · split at hmove
        · cases hmove
        · obtain rfl := Option.some.inj hmove
          exact h.set fun hx => hx
      · cases hmove
    · cases hmove
  | run choice =>
    simp only [Pfsd.move] at hmove
    split at hmove
    · rename_i pfd req hdoing
      obtain rfl := Option.some.inj hmove
      obtain ⟨d, hd⟩ : ∃ d, d = (eventHandlerFunc io pfd choice (some req) s.daemon).2 := ⟨_, rfl⟩
      have hconns : d.toConns = s.daemon.toConns := by
        rw [hd]
        exact (eventHandlerFunc_acts pfd choice (some req) s.daemon).conns
      have hset : Connected (s.set (s.daemon.gConnectionPollfds pfd)
          { s.peers (s.daemon.gConnectionPollfds pfd) with left := some d.shm }) :=
        h.set fun hx => hx
      intro q hq
      rw [← hd] at hq ⊢
      show q ∈ d.toConns.clients
      rw [hconns]
      exact hset q hq
    · cases hmove
  | reply =>
    simp only [Pfsd.move] at hmove
    split at hmove
    · obtain rfl := Option.some.inj hmove
      exact h.set fun hx => hx
    · cases hmove
  | connect a =>
    simp only [Pfsd.move] at hmove
    split at hmove
    · split at hmove
      · cases hmove
      · obtain ⟨d, hd, rfl⟩ := Option.map_eq_some_iff.mp hmove
        intro q hq
        by_cases hqs : q = a.s
        · subst hqs
          change ((s.set a.s _).peers a.s).alive = true at hq
          rw [Crowd.set_peers_self] at hq
          exact of_decide_eq_true hq
        · change ((s.set a.s _).peers q).alive = true at hq
          rw [Crowd.set_peers_of_ne hqs] at hq
          rcases handle_cases hd with ⟨b, he, -, rfl⟩ | ⟨_, _, _, he, -⟩ | ⟨_, _, _, he, -⟩
          · show q ∈ (s.daemon.addNewClient b).clients
            rcases s.daemon.clients_addNewClient b with heq | ⟨-, heq⟩
            · rw [heq]
              exact h q hq
            · rw [heq]
              exact List.mem_append_left _ (h q hq)
          · cases he
          · cases he
    · cases hmove
  | hangup pfd fuel =>
    simp only [Pfsd.move] at hmove
    split at hmove
    · split at hmove
      · cases hmove
      · rename_i hdead
        obtain ⟨d, hd, rfl⟩ := Option.map_eq_some_iff.mp hmove
        rcases handle_cases hd with ⟨_, he, -⟩ | ⟨_, _, _, he, -⟩ | ⟨pfd', _, t, he, hpfd, -, rfl⟩
        · cases he
        · cases he
        · obtain ⟨rfl, -⟩ := Event.hangup.inj he
          intro q hq
          refine Conns.mem_removeClient hpfd (h q hq) ?_
          rintro rfl
          exact hdead hq
    · cases hmove

/-- A call of a function that is replied to once, with enough fuel. -/
structure ClientCall.Fits (sizes : Sizes) (c : ClientCall) : Prop where
  repliedOnce : c.RepliedOnce
  fueled : c.Fueled sizes

/-- **A step keeps the clients attended.** -/
theorem Attended.step (hio : TransfersAtMost io) (h : Attended w) {m : Move}
    (hcall : ∀ p c, m = .call p c → c.Fits sizes) (hleave : LeavesIdle m w)
    (hmove : watch io sizes m w = some w') : Attended w' := by
  obtain ⟨t, ht, hlasts⟩ := h.follows
  obtain ⟨t', hrun, ht'⟩ := ht.step (fun p c he => (hcall p c he).repliedOnce) hleave hmove
  -- the step is a call, or makes none
  have hcalls : ∀ e ∈ atomic m w, ∀ p c, e = .call p c → c.Fits sizes := by
    rintro e he p c rfl
    refine hcall p c ?_
    have hmem : WholeMove.call p c ∈ labels (watch io sizes) atomic [m] w := by
      rw [labels_cons hmove]
      exact List.mem_append_left _ he
    exact (List.mem_singleton.mp (call_of_mem_labels hmem)).symm
  have hlasts' : ∀ p, (t'.progs p).Lasts none :=
    along_preserves (I := fun t => ∀ p, (t.progs p).Lasts none)
      (C := fun e _ => ∀ p c, e = .call p c → c.Fits sizes)
      (fun e v v' hv hC hv' => moveWhole_progs hv trivial (fun p c he => (hC p c he).fueled.lasts)
        (fun _ _ _ hexchange => OneByOne.exchange_lasts hio hv hexchange) hv')
      hlasts (along_of_forall fun e he _ => hcalls e he) hrun
  obtain ⟨s', hs', rfl⟩ := Option.map_eq_some_iff.mp hmove
  exact ⟨⟨t', ht', hlasts'⟩, h.connected.move hs'⟩

end Attended

/-! ## 3. One client, to the end of its function -/

/-- A step of a client that is in a call, or of the daemon at a request. -/
def Move.Onward : Move → Prop
  | .act _ => True
  | .read _ => True
  | .run _ => True
  | .reply => True
  | _ => False

section Finishing

variable {σ : Type} {io : IomanX σ} {sizes : Sizes} {w w' : Watched σ} {p : CInt}

/-- From `w` client `p` gets to the end of its function, the others staying where they are. -/
def Finishes (io : IomanX σ) (sizes : Sizes) (p : CInt) (w : Watched σ) : Prop :=
  ∃ moves w', (∀ m ∈ moves, Move.Onward m) ∧ run (watch io sizes) moves w = some w' ∧
    Attended w' ∧ (w'.crowd.peers p).prog.returned = true ∧ w'.crowd.lock = none ∧
    ∀ q, q ≠ p → w'.crowd.peers q = w.crowd.peers q

theorem Finishes.step (h : Finishes io sizes p w') {m : Move} (hm : m.Onward)
    (hmove : watch io sizes m w = some w')
    (hpeers : ∀ q, q ≠ p → w'.crowd.peers q = w.crowd.peers q) : Finishes io sizes p w := by
  obtain ⟨moves, v, honward, hrun, hatt, hended, hlock, hothers⟩ := h
  refine ⟨m :: moves, v, fun m' hm' => ?_, run_cons.mpr ⟨w', hmove, hrun⟩, hatt, hended, hlock,
    fun q hq => (hothers q hq).trans (hpeers q hq)⟩
  rcases List.mem_cons.mp hm' with rfl | hm'
  · exact hm
  · exact honward m' hm'

/-- While nobody but `p` can have the lock and the daemon does nothing for `p`, it polls. -/
theorem Attended.polling (h : Attended w) (hlock : w.crowd.lock = none ∨ w.crowd.lock = some p)
    (hjob : w.crowd.job p = .idle) : w.crowd.doing = .polling := by
  obtain ⟨t, ht, -⟩ := h.follows
  -- whoever the daemon works for lives and has the lock
  have hbusy : ∀ q, w.crowd.job q ≠ .idle → w.crowd.lock = some q := by
    intro q hq
    have hlive : (w.crowd.peers q).alive = true := by
      by_contra hdead
      exact hq (ht.dead q (Bool.eq_false_iff.mpr hdead)).2
    obtain ⟨n, -, hsits⟩ := h.orderly.sits q hlive
    generalize w.crowd.job q = j at hq hsits
    cases hsits with
    | handled _ _ hholds => exact hholds
    | answered _ _ hholds => exact hholds
    | _ => exact absurd rfl hq
  have hidle : ∀ q, w.crowd.job q = .idle := by
    intro q
    by_contra hq
    have hq' := hbusy q hq
    rcases hlock with hl | hl
    · rw [hl] at hq'
      cases hq'
    · obtain rfl := Option.some.inj (hl.symm.trans hq')
      exact hq hjob
  cases hdoing : w.crowd.doing with
  | polling => rfl
  | serving pfd req =>
    have hq := hidle (w.crowd.daemon.gConnectionPollfds pfd)
    simp [Crowd.job, hdoing] at hq
  | answering q bytes =>
    have hq := hidle q
    simp [Crowd.job, hdoing] at hq

variable (hio : TransfersAtMost io)

include hio

section Waiting

variable {size : ℕ} {next : List UInt8 → Prog}

end Waiting

end Finishing

end PfsShell.Pfsd
