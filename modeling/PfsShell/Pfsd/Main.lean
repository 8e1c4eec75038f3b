/-
# The main loop

`main` has a loop in a loop.  The inner one polls and serves what the poll reports; it is left
when `poll` fails, and also after a client was cleaned up, because the poll table has moved.
Then `main` reads `errno` to see whether the poll was interrupted, whichever way it got there.

* `main_polls_iff`: the states in which `main` polls again are those that events reach one by one,
  so what holds of every reachable state holds whenever `main` polls;
* `main_outlives`: when no poll fails, `main` is still polling after any number of rounds if
  and only if each cleanup happened to leave `EINTR` in `errno`, and not in debug mode;
* `main_returns`: one client that connects and hangs up ends the daemon.
-/
import PfsShell.Pfsd.Iomanx
import PfsShell.Pfsd.Clients

namespace PfsShell.Pfsd

open PfsShell.Lib

/-! ## 1. The loop -/

/-- What the world does from one `poll` to the next: what `poll` returns and reports, what the
system calls of the handlers return, and the value `errno` is left with. -/
structure Round where
  poll : CInt := 1
  /-- `POLLIN` of the listening socket, and what comes of `add_new_client`. -/
  listening : Bool := false
  accept : Accept := ⟨-1, 0, 0, 0⟩
  /-- `POLLHUP` and `POLLIN` of the clients, and the requests read from them. -/
  pollhup : ℕ → Bool := fun _ => false
  pollin : ℕ → Bool := fun _ => false
  choice : ℕ → Choice := fun _ => {}
  req : ℕ → Option Request := fun _ => none
  /-- For the loop of `cleanup_client`. -/
  fuel : ℕ := 0
  errno : CInt := 0

/-- `main` is in its loop, or has returned. -/
inductive MainState (σ : Type)
  | polling (s : Daemon σ)
  | returned (status : CInt)

section Loop

variable {σ : Type} (io : IomanX σ)

/-- The loop over the clients, with `k` of them left from client `i`; the flag is `flag`. -/
def serveClients (r : Round) : ℕ → ℕ → Daemon σ → Option (Bool × Daemon σ)
  | 0, _, s => some (true, s)
  | k + 1, i, s =>
    if r.pollhup i then (handle io (.hangup i r.fuel) s).map fun s => (false, s)
    else if r.pollin i then
      (handle io (.request i (r.choice i) (r.req i)) s).bind fun s => serveClients r k (i + 1) s
    else serveClients r k (i + 1) s

/-- The body of the inner loop. -/
def pollRound (r : Round) (s : Daemon σ) : Option (Bool × Daemon σ) :=
  if r.listening then (handle io (.connect r.accept) s).map fun s => (true, s)
  else serveClients io r s.gCurrentClientCount 0 s

/-- What follows the inner loop: whether `main` returns, and what. -/
def afterInner (debugMode : Bool) (errno : CInt) : Option CInt :=
  -- 4 is `EINTR`
  if errno ≠ 4 then some 1
  else if debugMode then some 0
  else none

/-- The loop of `main`, for as many rounds as there are. -/
def mainLoop (debugMode : Bool) : List Round → Daemon σ → Option (MainState σ)
  | [], s => some (.polling s)
  | r :: rs, s =>
    (if r.poll < 0 then some (false, s) else pollRound io r s).bind fun (flag, s) =>
      if flag then mainLoop debugMode rs s
      else
        match afterInner debugMode r.errno with
        | some status => some (.returned status)
        | none => mainLoop debugMode rs s

/-- A round as a step of the daemon: `none` when something in it cannot happen or does not
end. -/
def roundStep (r : Round) (s : Daemon σ) : Option (Daemon σ) := (pollRound io r s).map Prod.snd

end Loop

/-! ## 2. A round is a run of the daemon -/

section Rounds

variable {σ : Type} {io : IomanX σ} {r : Round} {s s' : Daemon σ} {flag : Bool}

theorem serveClients_run {k i : ℕ} (h : serveClients io r k i s = some (flag, s')) :
    Reaches (handle io) s s' := by
  induction k generalizing i s with
  | zero =>
    obtain ⟨-, rfl⟩ := Prod.mk.inj (Option.some.inj h)
    exact .refl s
  | succ k ih =>
    unfold serveClients at h
    split at h
    · obtain ⟨t, ht, heq⟩ := Option.map_eq_some_iff.mp h
      obtain ⟨-, rfl⟩ := Prod.mk.inj heq
      exact .single ht
    · split at h
      · obtain ⟨t, ht, hrest⟩ := Option.bind_eq_some_iff.mp h
        exact (Reaches.single ht).trans (ih hrest)
      · exact ih h

/-- **From one poll to the next the daemon handles events.** -/
theorem pollRound_run (h : roundStep io r s = some s') : Reaches (handle io) s s' := by
  obtain ⟨⟨flag, t⟩, ht, rfl⟩ := Option.map_eq_some_iff.mp h
  unfold pollRound at ht
  split at ht
  · obtain ⟨u, hu, heq⟩ := Option.map_eq_some_iff.mp ht
    obtain ⟨-, rfl⟩ := Prod.mk.inj heq
    exact .single hu
  · exact serveClients_run ht

/-- However `main` comes to poll again, it has handled events. -/
theorem mainLoop_run {debugMode : Bool} {rs : List Round}
    (h : mainLoop io debugMode rs s = some (.polling s')) : Reaches (handle io) s s' := by
  induction rs generalizing s with
  | nil =>
    obtain rfl := MainState.polling.inj (Option.some.inj h)
    exact .refl s
  | cons r rs ih =>
    obtain ⟨⟨flag, t⟩, ht, hrest⟩ := Option.bind_eq_some_iff.mp h
    have hround : Reaches (handle io) s t := by
      split at ht
      · obtain ⟨-, rfl⟩ := Prod.mk.inj (Option.some.inj ht)
        exact .refl s
      · exact pollRound_run (r := r) (congrArg (Option.map Prod.snd) ht)
    refine hround.trans ?_
    dsimp only at hrest
    split at hrest
    · exact ih hrest
    · split at hrest
      · cases hrest
      · exact ih hrest

/-- A round in which one event is reported, and after which `errno` is `EINTR`. -/
def Event.round : Event → Round
  | .connect a => { listening := true, accept := a, errno := 4 }
  | .request pfd choice req =>
    { pollin := (· = pfd), choice := fun _ => choice, req := fun _ => req, errno := 4 }
  | .hangup pfd fuel => { pollhup := (· = pfd), fuel := fuel, errno := 4 }

/-- The loop passes over the clients of which nothing is reported. -/
theorem serveClients_skip {m i : ℕ}
    (hquiet : ∀ j, i ≤ j → j < i + m → r.pollhup j = false ∧ r.pollin j = false) (k : ℕ)
    (s : Daemon σ) : serveClients io r (m + k) i s = serveClients io r k (i + m) s := by
  induction m generalizing i with
  | zero => rw [Nat.zero_add, Nat.add_zero]
  | succ m ih =>
    obtain ⟨hhup, hin⟩ := hquiet i le_rfl (by omega)
    rw [Nat.succ_add, serveClients, hhup, hin, if_neg Bool.false_ne_true,
      if_neg Bool.false_ne_true, ih fun j hj hlt => hquiet j (by omega) (by omega), Nat.add_assoc,
      Nat.add_comm 1 m]

/-- It cleans up one that is gone, and serves one that has sent something. -/
theorem serveClients_hangup {k i : ℕ} (h : r.pollhup i = true) (s : Daemon σ) :
    serveClients io r (k + 1) i s =
      (handle io (.hangup i r.fuel) s).map fun s => (false, s) := by
  rw [serveClients, if_pos h]

theorem serveClients_request {k i : ℕ} (hhup : r.pollhup i = false) (hin : r.pollin i = true)
    (s : Daemon σ) : serveClients io r (k + 1) i s =
      (handle io (.request i (r.choice i) (r.req i)) s).bind fun s =>
        serveClients io r k (i + 1) s := by
  rw [serveClients, if_neg (Bool.eq_false_iff.mp hhup), if_pos hin]

/-- An event of a client. -/
theorem exists_behind {n pfd : ℕ} {t : Option (Daemon σ)}
    (h : (if pfd < n then t else none) = some s') : ∃ k, n = pfd + (k + 1) := by
  split at h
  · exact ⟨n - pfd - 1, by omega⟩
  · cases h

/-- The round handles its event. -/
theorem pollRound_round {e : Event} (h : handle io e s = some s') :
    ∃ flag, pollRound io e.round s = some (flag, s') := by
  cases e with
  | connect a => exact ⟨true, congrArg (Option.map fun s => (true, s)) h⟩
  | request pfd choice req =>
    -- the clients in front of this one, this one, and those behind it
    obtain ⟨k, hk⟩ := exists_behind h
    have hquiet : ∀ j, j ≠ pfd → (Event.request pfd choice req).round.pollhup j = false ∧
        (Event.request pfd choice req).round.pollin j = false :=
      fun j hj => ⟨rfl, decide_eq_false hj⟩
    have hround : pollRound io (Event.request pfd choice req).round s =
        serveClients io (Event.request pfd choice req).round s.gCurrentClientCount 0 s := rfl
    refine ⟨true, ?_⟩
    rw [hround, hk, serveClients_skip (fun j _ hj => hquiet j (by omega)), Nat.zero_add,
      serveClients_request rfl (decide_eq_true rfl)]
    refine (congrArg (Option.bind · _) h).trans ?_
    exact serveClients_skip (m := k) (fun j hj _ => hquiet j (by omega)) 0 s'
  | hangup pfd fuel =>
    obtain ⟨k, hk⟩ := exists_behind h
    have hround : pollRound io (Event.hangup pfd fuel).round s =
        serveClients io (Event.hangup pfd fuel).round s.gCurrentClientCount 0 s := rfl
    refine ⟨false, ?_⟩
    rw [hround, hk, serveClients_skip (fun j _ hj => ⟨decide_eq_false (by omega), rfl⟩),
      Nat.zero_add, serveClients_hangup (decide_eq_true rfl)]
    exact congrArg (Option.map fun s => (false, s)) h

/-- Events, one in a round. -/
theorem mainLoop_rounds {es : List Event} (h : run (handle io) es s = some s') :
    mainLoop io false (es.map Event.round) s = some (.polling s') := by
  induction es generalizing s with
  | nil =>
    obtain rfl := Option.some.inj h
    rfl
  | cons e es ih =>
    obtain ⟨t, ht, hrest⟩ := run_cons.mp h
    obtain ⟨flag, hround⟩ := pollRound_round ht
    have hpoll : e.round.poll = 1 ∧ e.round.errno = 4 := by cases e <;> exact ⟨rfl, rfl⟩
    rw [List.map_cons, mainLoop, hpoll.1, if_neg (by decide), hround, hpoll.2, ← ih hrest]
    cases flag <;> rfl

/-- **`main` does nothing but handle events**, and leaves none out: the states in which it polls
again, after any polls and with any `errno`, are those that events reach. -/
theorem main_polls_iff : (∃ debugMode rs, mainLoop io debugMode rs s = some (.polling s')) ↔
    Reaches (handle io) s s' :=
  ⟨fun ⟨_, _, h⟩ => mainLoop_run h, fun ⟨_, h⟩ => ⟨false, _, mainLoop_rounds h⟩⟩

/-! ## 3. When the inner loop is left -/

/-- The round finds a client gone, and looks at it. -/
def Round.HangsUp (r : Round) (s : Daemon σ) : Prop :=
  r.listening = false ∧ ∃ i < s.gCurrentClientCount, r.pollhup i = true

theorem serveClients_flag {k i : ℕ} (h : serveClients io r k i s = some (flag, s')) :
    flag = false ↔ ∃ j, i ≤ j ∧ j < i + k ∧ r.pollhup j = true := by
  induction k generalizing i s with
  | zero =>
    obtain ⟨rfl, -⟩ := Prod.mk.inj (Option.some.inj h)
    refine iff_of_false (by decide) ?_
    rintro ⟨j, hij, hj, -⟩
    omega
  | succ k ih =>
    unfold serveClients at h
    split at h
    · rename_i hhup
      obtain ⟨t, ht, heq⟩ := Option.map_eq_some_iff.mp h
      obtain ⟨rfl, -⟩ := Prod.mk.inj heq
      exact iff_of_true rfl ⟨i, le_rfl, by omega, hhup⟩
    · rename_i hhup
      -- client `i` is still there, so the client that is gone is a later one
      have hlater : (∃ j, i + 1 ≤ j ∧ j < i + 1 + k ∧ r.pollhup j = true) ↔
          ∃ j, i ≤ j ∧ j < i + (k + 1) ∧ r.pollhup j = true := by
        constructor
        · rintro ⟨j, hij, hj, hjhup⟩
          exact ⟨j, by omega, by omega, hjhup⟩
        · rintro ⟨j, hij, hj, hjhup⟩
          have hne : j ≠ i := fun he => hhup (he ▸ hjhup)
          exact ⟨j, by omega, by omega, hjhup⟩
      rw [← hlater]
      split at h
      · obtain ⟨t, ht, hrest⟩ := Option.bind_eq_some_iff.mp h
        exact ih hrest
      · exact ih h

/-- A round clears the flag exactly when it finds a client gone. -/
theorem pollRound_flag (h : pollRound io r s = some (flag, s')) : flag = false ↔ r.HangsUp s := by
  unfold pollRound at h
  split at h
  · rename_i hlisten
    obtain ⟨t, ht, heq⟩ := Option.map_eq_some_iff.mp h
    obtain ⟨rfl, -⟩ := Prod.mk.inj heq
    exact iff_of_false (by decide) fun hhup => by simp [hhup.1] at hlisten
  · rename_i hlisten
    rw [serveClients_flag h]
    simp [Round.HangsUp, hlisten]

/-! ## 4. The daemon outlives its clients, or not -/

/-- If the round finds a client gone, its cleanup leaves `EINTR` in `errno`, and the daemon is
not in debug mode. -/
def Round.Survived (debugMode : Bool) (r : Round) (s : Daemon σ) : Prop :=
  r.HangsUp s → r.errno = 4 ∧ debugMode = false

theorem afterInner_eq_none {debugMode : Bool} {errno : CInt} :
    afterInner debugMode errno = none ↔ errno = 4 ∧ debugMode = false := by
  unfold afterInner
  split
  · rename_i h
    exact iff_of_false (by simp) fun hand => h hand.1
  · rename_i h
    cases debugMode with
    | false => exact iff_of_true rfl ⟨not_not.mp h, rfl⟩
    | true => exact iff_of_false (by simp) (by simp)

/-- **When the daemon outlives its clients.**  In a run without a failing poll, `main` is still
polling after the rounds, with all of them served, if and only if every round that found a
client gone left `EINTR` in `errno`, outside debug mode. -/
theorem main_outlives {debugMode : Bool} {rs : List Round} (hpoll : ∀ r ∈ rs, ¬ r.poll < 0)
    {s t : Daemon σ} (hrun : run (roundStep io) rs s = some t) :
    mainLoop io debugMode rs s = some (.polling t) ↔
      Along (roundStep io) (Round.Survived debugMode) rs s := by
  induction rs generalizing s with
  | nil =>
    obtain rfl := Option.some.inj hrun
    exact iff_of_true rfl trivial
  | cons r rs ih =>
    obtain ⟨u, hu, hrest⟩ := run_cons.mp hrun
    obtain ⟨⟨flag, v⟩, hround, rfl⟩ := Option.map_eq_some_iff.mp hu
    have hflag := pollRound_flag hround
    have hrs := ih (fun q hq => hpoll q (List.mem_cons_of_mem _ hq)) hrest
    have halong : Along (roundStep io) (Round.Survived debugMode) (r :: rs) s ↔
        r.Survived debugMode s ∧ Along (roundStep io) (Round.Survived debugMode) rs v := by
      simp [Along, hu]
    rw [halong, ← hrs]
    simp only [mainLoop, if_neg (hpoll r List.mem_cons_self), hround, Option.bind_some]
    cases flag with
    | true =>
      have hno : ¬ r.HangsUp s := fun h => by cases hflag.mpr h
      simp [Round.Survived, hno]
    | false =>
      have hup : r.HangsUp s := hflag.mp rfl
      have hsurvived : r.Survived debugMode s ↔ afterInner debugMode r.errno = none := by
        rw [afterInner_eq_none]
        exact ⟨fun h => h hup, fun h _ => h⟩
      rw [hsurvived]
      cases hafter : afterInner debugMode r.errno with
      | none => simp
      | some status => simp

end Rounds

/-! ## 5. Two short lives -/

/-- Client 5 connects. -/
def connects : Round := { listening := true, accept := ⟨5, 9, 0, 0x20000⟩ }

/-- The first client hangs up, and its cleanup leaves `errno` as given. -/
def hangsUp (errno : CInt) : Round := { pollhup := (· = 0), fuel := 1, errno := errno }

/-- A signal has been caught before the client was cleaned up. -/
theorem main_outlives_eintr : ∃ t : Daemon (SmallWorld CStr),
    mainLoop (smallIomanx id) false [connects, hangsUp 4] (start 4 [] {}) =
      some (.polling t) := by
  obtain ⟨t, ht⟩ : ∃ t : Daemon (SmallWorld CStr),
      run (roundStep (smallIomanx id)) [connects, hangsUp 4] (start 4 [] {}) = some t := ⟨_, rfl⟩
  refine ⟨t, (main_outlives (by decide) ht).mpr ⟨?_, fun _ _ => ⟨fun _ => ⟨rfl, rfl⟩, ?_⟩⟩⟩
  · intro h
    cases h.1
  · exact fun _ _ => trivial

/-- No poll fails, and the daemon returns 1. -/
theorem main_returns :
    mainLoop (smallIomanx id) false [connects, hangsUp 0] (start 4 [] ({} : SmallWorld CStr)) =
      some (.returned 1) := rfl

end PfsShell.Pfsd
