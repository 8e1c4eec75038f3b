/-
# The poll table

`g_connection_pollfds` has 32 entries.  The clients have the first `g_current_client_count` of
them and the listening socket the next one, so there is room for 31 clients.  `add_new_client`
turns a connection away only when there are 32.

* `handle_touches`: which entries an event uses, and that no other changes;
* `pollTable_of_run`: the table is what it should be all through a run, and no entry behind it is
  used, if and only if no connection is accepted while 31 clients are connected.

What the table should be is said of the connected sockets, which `Served` keeps count of beside
the daemon: a connection adds its socket unless `add_new_client` closes it again, and
`cleanup_client` closes one.
-/
import Mathlib.Data.List.Nodup
import PfsShell.Pfsd.Acts
import PfsShell.Pfsd.Iomanx

namespace PfsShell.Pfsd

open PfsShell.Lib

/-! ## 1. The connected sockets -/

/-- `add_new_client` keeps the connection. -/
def Accept.Kept (a : Accept) (c : Conns) : Prop :=
  ¬ a.s < 0 ∧ ¬ 32 ≤ c.gCurrentClientCount ∧ ¬ (a.cuhPid = -1 ∨ a.capget ≠ 0) ∧
    a.mEffective &&& 0x20000 ≠ 0

instance (a : Accept) (c : Conns) : Decidable (a.Kept c) :=
  inferInstanceAs (Decidable (_ ∧ _ ∧ _ ∧ _))

/-- The connected sockets after an event. -/
def connectedAfter : Event → Conns → List CInt → List CInt
  | .connect a, c, socks => if a.Kept c then a.s :: socks else socks
  | .request .., _, socks => socks
  | .hangup pfd _, c, socks => socks.filter fun p => p ≠ c.gConnectionPollfds pfd

/-- The daemon, and the sockets that are connected to it. -/
structure Served (σ : Type) where
  daemon : Daemon σ
  socks : List CInt

/-- One event, for both. -/
def serve {σ : Type} (io : IomanX σ) (e : Event) (q : Served σ) : Option (Served σ) :=
  (handle io e q.daemon).map fun s => ⟨s, connectedAfter e q.daemon.toConns q.socks⟩

/-- pfsd when `main` enters its loop. -/
def Served.start {σ : Type} (socketFd : CInt) (shm : Mem) (world : σ) : Served σ :=
  ⟨Pfsd.start socketFd shm world, []⟩

/-! ## 2. The entries an event uses -/

/-- The entries of `g_connection_pollfds` that are read or written for an event. -/
def touches : Event → Conns → ℕ → Prop
  | .connect a, c, i => a.Kept c ∧ (i = c.gCurrentClientCount ∨ i = c.gCurrentClientCount + 1)
  | .request pfd _ _, _, i => i = pfd
  | .hangup pfd _, c, i => pfd ≤ i ∧ i ≤ c.gCurrentClientCount

/-- The entries `poll` is given. -/
def polled (c : Conns) (i : ℕ) : Prop := i < c.gCurrentClientCount + 1

section Table

variable {σ : Type} {io : IomanX σ}

theorem Conns.addNewClient_of_kept {a : Accept} {c : Conns} (h : a.Kept c) :
    c.addNewClient a = { c with
      gCurrentClientCount := c.gCurrentClientCount + 1
      gConnectionPollfds := Function.update
        (Function.update c.gConnectionPollfds c.gCurrentClientCount a.s)
        (c.gCurrentClientCount + 1) c.socketFd } := by
  obtain ⟨hs, hroom, hpid, hcap⟩ := h
  simp only [addNewClient, if_neg hs, if_neg hroom, if_neg hpid, if_neg hcap]

theorem Conns.addNewClient_of_not_kept {a : Accept} {c : Conns} (h : ¬ a.Kept c) :
    c.addNewClient a = c := by
  unfold addNewClient
  repeat' split
  any_goals rfl
  exact absurd ⟨‹_›, ‹_›, ‹_›, ‹_›⟩ h

/-- An event changes no other entry of the table. -/
theorem handle_touches {e : Event} {s s' : Daemon σ} (h : handle io e s = some s') {i : ℕ}
    (hi : ¬ touches e s.toConns i) : s'.gConnectionPollfds i = s.gConnectionPollfds i := by
  rcases handle_cases h with ⟨a, rfl, -, rfl⟩ | ⟨pfd, choice, req, rfl, -, -, hacts⟩ |
    ⟨pfd, fuel, t, rfl, hlt, -, rfl⟩
  · by_cases hkept : a.Kept s.toConns
    · have hne : ¬ (i = s.gCurrentClientCount ∨ i = s.gCurrentClientCount + 1) :=
        fun h0 => hi ⟨hkept, h0⟩
      push Not at hne
      simp only [Conns.addNewClient_of_kept hkept]
      rw [Function.update_of_ne hne.2, Function.update_of_ne hne.1]
    · simp only [Conns.addNewClient_of_not_kept hkept]
  · rw [hacts.conns]
  · simp only [touches, not_and_or, not_le] at hi
    simp only [Conns.removeClient, shiftDown_apply]
    rw [if_neg (by omega)]

/-! ## 3. The table of a run -/

/-- The table has an entry for every connected socket, once, and then the listening socket, in
its 32 entries. -/
structure PollTable (q : Served σ) : Prop where
  length : ∀ i, polled q.daemon.toConns i → i < 32
  nodup : q.daemon.clients.Nodup
  clients : ∀ p, p ∈ q.daemon.clients ↔ p ∈ q.socks
  listening : q.daemon.gConnectionPollfds q.daemon.gCurrentClientCount = q.daemon.socketFd

/-- The event does not connect a 32nd client. -/
def HasRoom (e : Event) (q : Served σ) : Prop :=
  ∀ a, e = .connect a → a.Kept q.daemon.toConns → q.daemon.gCurrentClientCount + 1 < 32

theorem pollTable_start (socketFd : CInt) (shm : Mem) (w : σ) :
    PollTable (Served.start socketFd shm w) := by
  refine ⟨fun i hi => ?_, List.nodup_nil, fun p => Iff.rfl, rfl⟩
  have hi' : i < 0 + 1 := hi
  omega

/-- An event uses only entries of the table, if it does not connect a 32nd client. -/
theorem PollTable.touches_lt {q : Served σ} (h : PollTable q) {e : Event} {s' : Daemon σ}
    (he : handle io e q.daemon = some s') (hroom : HasRoom e q) {i : ℕ}
    (hi : touches e q.daemon.toConns i) : i < 32 := by
  have hcount := h.length q.daemon.gCurrentClientCount (Nat.lt_succ_self _)
  rcases handle_cases he with ⟨a, rfl, -, -⟩ | ⟨pfd, choice, req, rfl, hlt, -, -⟩ |
    ⟨pfd, fuel, t, rfl, -, -, -⟩
  · have := hroom a rfl hi.1
    rcases hi.2 with rfl | rfl <;> omega
  · simp only [touches] at hi
    omega
  · have := hi.2
    omega

/-- The number of clients grows only where `add_new_client` keeps a connection. -/
theorem handle_count {e : Event} {s s' : Daemon σ} (h : handle io e s = some s') :
    s'.gCurrentClientCount ≤ s.gCurrentClientCount ∨
      ∃ a, e = .connect a ∧ a.Kept s.toConns ∧
        s'.gCurrentClientCount = s.gCurrentClientCount + 1 := by
  rcases handle_cases h with ⟨a, rfl, -, rfl⟩ | ⟨pfd, choice, req, rfl, -, -, hacts⟩ |
    ⟨pfd, fuel, t, rfl, -, -, rfl⟩
  · by_cases hkept : a.Kept s.toConns
    · exact .inr ⟨a, rfl, hkept, by simp only [Conns.addNewClient_of_kept hkept]⟩
    · exact .inl (by simp only [Conns.addNewClient_of_not_kept hkept, le_refl])
  · exact .inl (by rw [hacts.conns])
  · exact .inl (Nat.sub_le _ _)

/-- **One event**, which does not connect a 32nd client, keeps the table. -/
theorem PollTable.step {q q' : Served σ} (hok : q.daemon.Ok) (h : PollTable q) {e : Event}
    (he : serve io e q = some q') (hroom : HasRoom e q) : PollTable q' := by
  obtain ⟨s', hs', rfl⟩ := Option.map_eq_some_iff.mp he
  have hcount := h.length q.daemon.gCurrentClientCount (Nat.lt_succ_self _)
  have hlength : ∀ i, polled s'.toConns i → i < 32 := by
    intro i hi
    simp only [polled] at hi
    rcases handle_count hs' with hle | ⟨a, rfl, hkept, hgrown⟩
    · omega
    · have := hroom a rfl hkept
      omega
  suffices hrest : (∀ p, p ∈ s'.clients ↔ p ∈ connectedAfter e q.daemon.toConns q.socks) ∧
      s'.gConnectionPollfds s'.gCurrentClientCount = s'.socketFd from
    ⟨hlength, (handle_ok hok hs').nodup, hrest.1, hrest.2⟩
  rcases handle_cases hs' with ⟨a, rfl, -, rfl⟩ | ⟨pfd, choice, req, rfl, -, -, hacts⟩ |
    ⟨pfd, fuel, t, rfl, hlt, -, rfl⟩
  · by_cases hkept : a.Kept q.daemon.toConns
    · have hclients : (q.daemon.addNewClient a).clients = q.daemon.clients ++ [a.s] := by
        rw [Conns.addNewClient_of_kept hkept, Conns.clients, Conns.clients, ← live_update_succ]
        exact live_congr fun i hi => Function.update_of_ne (Nat.ne_of_lt hi) _ _
      refine ⟨fun p => ?_, ?_⟩
      · simp only [hclients, connectedAfter, if_pos hkept, List.mem_append, List.mem_cons,
          List.not_mem_nil, or_false, h.clients p]
        exact or_comm
      · simp only [Conns.addNewClient_of_kept hkept, Function.update_self]
    · simp only [Conns.addNewClient_of_not_kept hkept, connectedAfter, if_neg hkept]
      exact ⟨h.clients, h.listening⟩
  · rw [hacts.conns]
    exact ⟨h.clients, h.listening⟩
  · refine ⟨fun p => ?_, ?_⟩
    · -- the socket of client `pfd` stands nowhere else in the table
      have hmem : p ∈ q.daemon.clients.eraseIdx pfd ↔
          p ∈ q.daemon.clients ∧ p ≠ q.daemon.gConnectionPollfds pfd := by
        have hget : q.daemon.clients[pfd]? = some (q.daemon.gConnectionPollfds pfd) := by
          simp [Conns.clients, live, hlt]
        obtain ⟨hpfd, hget⟩ := List.getElem?_eq_some_iff.mp hget
        rw [← List.Nodup.erase_getElem h.nodup pfd hpfd, h.nodup.mem_erase_iff, hget]
        exact and_comm
      simp only [Conns.clients_removeClient hlt, hmem, h.clients p, connectedAfter, List.mem_filter,
        decide_eq_true_eq]
    · have hmoved : q.daemon.gConnectionPollfds (q.daemon.gCurrentClientCount - 1 + 1) =
          q.daemon.socketFd := by
        rw [Nat.sub_add_cancel (Nat.one_le_of_lt hlt)]
        exact h.listening
      simp only [Conns.removeClient, shiftDown_apply]
      rw [if_pos (by omega), hmoved]

/-- **When the poll table is right.**  In a run from the start, the table is what it should be
whenever the daemon polls, and every entry it uses is one of the 32, if and only if no connection
is accepted while 31 clients are connected. -/
theorem pollTable_of_run {socketFd : CInt} {shm : Mem} {w : σ} {es : List Event} {q : Served σ}
    (hrun : run (serve io) es (Served.start socketFd shm w) = some q) :
    (Along (serve io) (fun e q => PollTable q ∧ ∀ i, touches e q.daemon.toConns i → i < 32) es
        (Served.start socketFd shm w) ∧ PollTable q) ↔
      Along (serve io) HasRoom es (Served.start socketFd shm w) := by
  have hok₀ : (Served.start socketFd shm w).daemon.Ok := conns_start_ok socketFd shm w
  have htable₀ := pollTable_start socketFd shm w
  revert hok₀ htable₀ hrun
  generalize Served.start socketFd shm w = q₀
  intro hrun hok htable
  induction es generalizing q₀ with
  | nil =>
    obtain rfl := Option.some.inj hrun
    exact iff_of_true ⟨trivial, htable⟩ trivial
  | cons e es ih =>
    obtain ⟨q₁, he, hrest⟩ := run_cons.mp hrun
    obtain ⟨s', hs', hq₁⟩ := Option.map_eq_some_iff.mp he
    have hok₁ : q₁.daemon.Ok := by
      rw [← hq₁]
      exact handle_ok hok hs'
    constructor
    · rintro ⟨⟨⟨-, htouch⟩, halong⟩, hlast⟩
      have hroom : HasRoom e q₀ := fun a ha hkept => htouch _ (ha ▸ ⟨hkept, .inr rfl⟩)
      refine ⟨hroom, fun t ht => ?_⟩
      obtain rfl := Option.some.inj (he.symm.trans ht)
      exact (ih q₁ hrest hok₁ (htable.step hok he hroom)).mp ⟨halong _ he, hlast⟩
    · rintro ⟨hroom, halong⟩
      obtain ⟨hused, hlast⟩ :=
        (ih q₁ hrest hok₁ (htable.step hok he hroom)).mpr (halong _ he)
      refine ⟨⟨⟨htable, fun i hi => htable.touches_lt hs' hroom hi⟩, fun t ht => ?_⟩, hlast⟩
      obtain rfl := Option.some.inj (he.symm.trans ht)
      exact hused

end Table

/-! ## 4. Thirty-two clients -/

/-- A client that connects on descriptor `n`, and has `CAP_SYS_RAWIO`. -/
def arrival (n : ℕ) : Event := .connect ⟨Int32.ofNat (n + 5), 9, 0, 0x20000⟩

/-- With two clients the table is right. -/
theorem pollTable_of_run_two : ∃ q : Served (SmallWorld CStr),
    run (serve (smallIomanx id)) [arrival 0, arrival 1] (Served.start 4 [] {}) = some q ∧
      PollTable q := by
  obtain ⟨q, hq⟩ : ∃ q : Served (SmallWorld CStr),
      run (serve (smallIomanx id)) [arrival 0, arrival 1] (Served.start 4 [] {}) = some q :=
    ⟨_, rfl⟩
  refine ⟨q, hq, ((pollTable_of_run hq).mpr ⟨fun _ _ _ => by decide, fun t ht => ⟨fun _ _ _ => ?_,
    fun _ _ => trivial⟩⟩).2⟩
  obtain rfl := Option.some.inj ht
  decide

/-- The 32nd client is accepted, and `poll` is given an entry behind the table. -/
theorem polled_behind : ∃ q : Served (SmallWorld CStr),
    run (serve (smallIomanx id)) ((List.range 32).map arrival) (Served.start 4 [] {}) = some q ∧
      polled q.daemon.toConns 32 ∧ ¬ PollTable q := by
  obtain ⟨q, hq⟩ : ∃ q : Served (SmallWorld CStr), q.daemon.gCurrentClientCount = 32 ∧
      run (serve (smallIomanx id)) ((List.range 32).map arrival) (Served.start 4 [] {}) = some q :=
    ⟨_, rfl, rfl⟩
  have hpolled : polled q.daemon.toConns 32 := by
    rw [polled, hq.1]
    decide
  exact ⟨q, hq.2, hpolled, fun h => absurd (h.length 32 hpolled) (lt_irrefl 32)⟩

end PfsShell.Pfsd
