/-
# What get and put leave in the destination

`do_get` and `do_put` copy one file over another, which may be there already.  The two files, what
the destination held before, and how every call goes (in full, short, with an error) are a
`Scenario`; `copying` is iomanX and the host in it.

The loop moves some first part of the source (`Scenario.moved`): up to a read that fails, or a
write that fails or does not take everything.  It lands at the start of the destination, whose
rest stays as it was, since neither function opens it with a truncation
(`copyLoop_moved`).  Whatever ended the loop, the result is then that of the last `close`.

So a copy that reports success has made the files equal exactly when the destination agreed with
the source behind the part that was moved (`copies_equal`).
-/
import PfsShell.Shell.Commands

namespace PfsShell.Shell

open PfsShell.Lib

/-! ## 1. A copy and its calls -/

/-- How a read or a write goes: it moves at most `n` bytes (a read of a file that has not ended
at least one), or it fails. -/
inductive Result
  | moves (n : ℕ)
  | fails (e : ℕ)

/-- The source, the destination if there is one, and how the calls go: the opens and closes of
iomanX and of the host, and the reads and writes in order. -/
structure Scenario where
  source : List UInt8
  previous : Option (List UInt8) := none
  opens : ℤ := 3
  hostOpens : Option ℕ := some 3
  closes : ℤ := 0
  hostCloses : ℤ := 0
  results : ℕ → Result := fun _ => .moves (2 ^ 20)

/-- The files while the copy runs: the number of reads and writes so far, the positions in the
source and the destination, and what the destination holds. -/
structure Copying extends Scenario where
  count : ℕ := 0
  taken : ℕ := 0
  placed : ℕ := 0
  dest : Option (List UInt8)

/-- Before the copy. -/
def Scenario.start (c : Scenario) : Copying := { c with dest := c.previous }

/-- The destination is opened.  It is created when it is not there, and emptied with a
truncation. -/
def Copying.openDest (w : Copying) (ret : ℤ) (trunc : Bool) : Reply × Copying :=
  ({ ret := ret },
    if 0 ≤ ret then { w with dest := some (if trunc then [] else w.dest.getD []) } else w)

/-- A read of `size` bytes. -/
def Copying.read (w : Copying) (size : ℕ) : Reply × Copying :=
  match w.results w.count with
  | .fails e => ({ ret := Int.negSucc e }, { w with count := w.count + 1 })
  | .moves n =>
    let data := (w.source.drop w.taken).take (min (n + 1) size)
    ({ ret := data.length, data := data },
      { w with count := w.count + 1, taken := w.taken + data.length })

/-- A write. -/
def Copying.write (w : Copying) (data : List UInt8) : Reply × Copying :=
  match w.results w.count with
  | .fails e => ({ ret := Int.negSucc e }, { w with count := w.count + 1 })
  | .moves n =>
    let data := data.take n
    let old := w.dest.getD []
    ({ ret := data.length },
      { w with
        count := w.count + 1
        placed := w.placed + data.length
        dest := some (old.take w.placed ++ data ++ old.drop (w.placed + data.length)) })

/-- iomanX and the host during a copy. -/
def copying : IomanX Copying
  | .hostOpen _ flags _, w =>
    let ret : ℤ := w.hostOpens.elim (-1) (↑)
    if flags &&& oWronly = 0 then ({ ret := ret }, w) else w.openDest ret (flags &&& oTrunc ≠ 0)
  | .open _ flags _, w =>
    if flags &&& fioOWronly = 0 then ({ ret := w.opens }, w)
    else w.openDest w.opens (flags &&& fioOTrunc ≠ 0)
  | .hostRead _ size, w => w.read size
  | .read _ size, w => w.read size
  | .hostWrite _ data, w => w.write data
  | .write _ data, w => w.write data
  | .hostClose _, w => ({ ret := w.hostCloses }, w)
  | .close _, w => ({ ret := w.closes }, w)
  | _, w => ({}, w)

/-- How much of a source of `left` more bytes is moved, in reads of at most `cap` bytes, from the
`i`-th read or write on. -/
def movedFrom (cap : ℕ) (results : ℕ → Result) : ℕ → ℕ → ℕ → ℕ
  | 0, _, _ => 0
  | fuel + 1, i, left =>
    match results i, results (i + 1) with
    | .moves n, .moves m =>
      let len := min (min (n + 1) cap) left
      if m < len then m else len + movedFrom cap results fuel (i + 2) (left - len)
    | _, _ => 0

/-- How much of the source is moved. -/
def Scenario.moved (c : Scenario) (cap : ℕ) : ℕ :=
  movedFrom cap c.results c.source.length 0 c.source.length

/-! ## 2. The loop -/

theorem movedFrom_fails {cap i left e : ℕ} {results : ℕ → Result} (h : results i = .fails e) :
    ∀ more, movedFrom cap results more i left = 0
  | 0 => rfl
  | more + 1 => by simp only [movedFrom, h]

theorem movedFrom_ended {cap : ℕ} {results : ℕ → Result} :
    ∀ more i, movedFrom cap results more i 0 = 0
  | 0, _ => rfl
  | more + 1, i => by
    simp only [movedFrom, Nat.min_zero, Nat.not_lt_zero, if_false, Nat.zero_sub,
      movedFrom_ended more, Nat.add_zero]
    split <;> rfl

/-- The next part of the source is put after the first `k` bytes. -/
theorem placed_part {source old data : List UInt8} {k : ℕ} (hk : k ≤ source.length)
    (hdata : data = (source.drop k).take data.length) :
    (source.take k ++ old.drop k).take k ++ data ++
        (source.take k ++ old.drop k).drop (k + data.length) =
      source.take (k + data.length) ++ old.drop (k + data.length) := by
  have hlen : (source.take k).length = k := List.length_take_of_le hk
  rw [List.take_add, ← hdata, List.take_left' hlen, ← List.drop_drop, List.drop_left' hlen,
    List.drop_drop]

/-- A read that does not fail. -/
theorem Copying.read_moves {w : Copying} {n : ℕ} (h : w.results w.count = .moves n) (cap : ℕ) :
    w.read cap =
      ({ ret := ((w.source.drop w.taken).take (min (n + 1) cap)).length,
         data := (w.source.drop w.taken).take (min (n + 1) cap) },
       { w with
         count := w.count + 1
         taken := w.taken + ((w.source.drop w.taken).take (min (n + 1) cap)).length }) := by
  simp only [Copying.read, h]

/-- A write of the next part of the source that does not fail: the destination holds what it
takes of it. -/
theorem Copying.write_moves {w : Copying} {source old data : List UInt8} {k m : ℕ}
    (h : w.results w.count = .moves m) (hplaced : w.placed = k) (hk : k ≤ source.length)
    (hdest : w.dest = some (source.take k ++ old.drop k))
    (hdata : data.take m = (source.drop k).take (data.take m).length) :
    w.write data = ({ ret := (data.take m).length },
      { w with
        count := w.count + 1
        placed := k + (data.take m).length
        dest := some (source.take (k + (data.take m).length) ++
          old.drop (k + (data.take m).length)) }) := by
  simp only [Copying.write, h, hdest, hplaced, Option.getD_some, placed_part hk hdata]

section Loop

variable {read : Call} {write : List UInt8 → Call} {complain : ℤ → ℤ → Message} {cap : ℕ}

/-- **The loop moves the first part of the source, over the first part of what the destination
held.** -/
theorem copyLoop_moved (hread : ∀ w, copying read w = w.read cap)
    (hwrite : ∀ data w, copying (write data) w = w.write data) (hcap : 0 < cap)
    {c : Scenario} {old : List UInt8} :
    ∀ (fuel k more : ℕ) (result : ℤ) (s : Session Copying), s.world.toScenario = c →
      s.world.taken = k → s.world.placed = k → k ≤ c.source.length →
      s.world.dest = some (c.source.take k ++ old.drop k) →
      c.source.length - k < fuel → c.source.length - k ≤ more →
      ∃ r t, copyLoop copying read write complain fuel result s = some (r, t) ∧
        t.world.toScenario = c ∧
        ∃ k', k' = k + movedFrom cap c.results more s.world.count (c.source.length - k) ∧
          t.world.dest = some (c.source.take k' ++ old.drop k')
  | 0, _, _, _, _, _, _, _, _, _, hfuel, _ => absurd hfuel (Nat.not_lt_zero _)
  | fuel + 1, k, more, result, s, hc, htaken, hplaced, hk, hdest, hfuel, hmore => by
    obtain ⟨w, hw⟩ : ∃ w, s.world = w := ⟨_, rfl⟩
    rw [hw] at hc htaken hplaced hdest ⊢
    unfold copyLoop
    dsimp only [Session.call]
    rw [hw, hread]
    cases hres : w.results w.count with
    | fails e =>
      have hneg : ¬ (0 : ℤ) < Int.negSucc e := by omega
      have hmoved : movedFrom cap c.results more w.count (c.source.length - k) = 0 :=
        movedFrom_fails (hc ▸ hres) more
      simp only [Copying.read, hres, if_neg hneg]
      exact ⟨_, _, rfl, hc, k, by rw [hmoved, Nat.add_zero], hdest⟩
    | moves n =>
      obtain ⟨data, hdata⟩ :
        ∃ data, data = (c.source.drop k).take (min (n + 1) cap) := ⟨_, rfl⟩
      have hlen : data.length = min (min (n + 1) cap) (c.source.length - k) := by
        rw [hdata, List.length_take, List.length_drop]
      have hreads : w.read cap = ({ ret := data.length, data := data },
          { w with count := w.count + 1, taken := k + data.length }) := by
        rw [Copying.read_moves hres, htaken, show w.source = c.source by rw [← hc], ← hdata]
      rw [hreads]
      by_cases hended : c.source.length - k = 0
      · have hzero : data.length = 0 := by omega
        rw [if_neg (by simp [hzero])]
        refine ⟨_, _, rfl, hc, k, ?_, hdest⟩
        rw [hended, movedFrom_ended, Nat.add_zero]
      · have hpos : (0 : ℤ) < data.length := by omega
        rw [if_pos hpos]
        dsimp only
        rw [Int.toNat_natCast, List.take_length, hwrite]
        obtain ⟨more, rfl⟩ : ∃ m, more = m + 1 := ⟨more - 1, by omega⟩
        cases hres' : w.results (w.count + 1) with
        | fails e =>
          have hne : Int.negSucc e ≠ (data.length : ℤ) := by omega
          simp only [Copying.write, hres', if_pos hne]
          refine ⟨_, _, rfl, hc, k, ?_, hdest⟩
          simp only [movedFrom, ← hc, hres, hres', Nat.add_zero]
        | moves m =>
          -- what the write takes of it
          have hpart : data.take m = (c.source.drop k).take (data.take m).length := by
            rw [hdata, List.take_take, List.length_take]
            exact List.take_eq_take_min
          have htake : (data.take m).length = min m data.length := List.length_take
          have hwrites : ({ w with count := w.count + 1, taken := k + data.length } :
              Copying).write data = _ := Copying.write_moves hres' hplaced hk hdest hpart
          rw [hwrites]
          dsimp only
          by_cases hshort : m < data.length
          · have hne : ((data.take m).length : ℤ) ≠ data.length := by omega
            rw [if_pos hne]
            refine ⟨_, _, rfl, hc, k + (data.take m).length, ?_, rfl⟩
            simp only [movedFrom, ← hc, hres, hres']
            rw [hc, ← hlen, if_pos hshort]
            omega
          · have heq : (data.take m).length = data.length := by omega
            rw [if_neg (by simpa using heq), heq]
            obtain ⟨r, t, hrun, htc, k', hk', ht⟩ :=
              copyLoop_moved hread hwrite hcap fuel (k + data.length) more data.length
                { s with
                  world := { w with
                    count := w.count + 1 + 1
                    taken := k + data.length
                    placed := k + data.length
                    dest := some (c.source.take (k + data.length) ++
                      old.drop (k + data.length)) }
                  calls := s.calls ++ [⟨read, data.length⟩] ++ [⟨write data, data.length⟩] }
                hc rfl rfl (by omega) rfl (by omega) (by omega)
            refine ⟨r, t, hrun, htc, k', ?_, ht⟩
            simp only [movedFrom, ← hc, hres, hres']
            rw [hc, ← hlen, if_neg hshort, hk', ← Nat.sub_sub]
            exact Nat.add_assoc _ _ _

/-- The whole loop. -/
theorem copyLoop_copies (hread : ∀ w, copying read w = w.read cap)
    (hwrite : ∀ data w, copying (write data) w = w.write data) (hcap : 0 < cap)
    {c : Scenario} {fuel : ℕ} (hfuel : c.source.length < fuel) {s : Session Copying}
    (hs : s.world = { c.start with dest := some (c.previous.getD []) }) :
    ∃ r t, copyLoop copying read write complain fuel 0 s = some (r, t) ∧
      t.world.toScenario = c ∧ t.world.dest =
        some (c.source.take (c.moved cap) ++ (c.previous.getD []).drop (c.moved cap)) := by
  obtain ⟨r, t, hrun, hc, k, hk, hdest⟩ :=
    copyLoop_moved hread hwrite hcap (c := c) fuel 0 c.source.length 0 s (by rw [hs]; rfl)
      (by rw [hs]; rfl) (by rw [hs]; rfl) (Nat.zero_le _) (by rw [hs]; rfl) hfuel le_rfl
  have hmoved : k = c.moved cap := by
    rw [hk, hs]
    exact Nat.zero_add _
  exact ⟨r, t, hrun, hc, hmoved ▸ hdest⟩

end Loop

/-! ## 3. What success means -/

/-- Behind the part that is moved, the destination held what the source holds. -/
def Scenario.Agrees (c : Scenario) (cap : ℕ) : Prop :=
  (c.previous.getD []).drop (c.moved cap) = c.source.drop (c.moved cap)

/-- A copy that returns 0 has made the destination equal to the source. -/
def Faithful (c : Scenario) (r : ℤ × Session Copying) : Prop :=
  r.1 = 0 → r.2.world.dest = some c.source

theorem take_append_drop_iff {source old : List UInt8} {k : ℕ} :
    source.take k ++ old.drop k = source ↔ old.drop k = source.drop k := by
  conv_lhs => rhs; rw [← List.take_append_drop k source]
  exact List.append_right_inj _

section Copies

variable {c : Scenario} {fuel : ℕ} {argv : List CStr} {s : Session Copying}

theorem opensSource (path : CStr) (w : Copying) :
    copying (.hostOpen path oRdonly 0) w = ({ ret := w.hostOpens.elim (-1) (↑) }, w) ∧
      copying (.open path fioORdonly 0) w = ({ ret := w.opens }, w) := ⟨rfl, rfl⟩

theorem opensDest (path : CStr) (mode : ℕ) (w : Copying) :
    copying (.hostOpen path (oCreat ||| oWronly) mode) w =
        w.openDest (w.hostOpens.elim (-1) (↑)) false ∧
      copying (.open path (fioOWronly ||| fioOCreat) mode) w = w.openDest w.opens false :=
  ⟨rfl, rfl⟩

theorem faithful_of_ne {r : ℤ × Session Copying} (h : r.1 ≠ 0) : Faithful c r :=
  fun h0 => absurd h0 h

/-- After the loop, it depends on the close and on what the destination held. -/
theorem faithful_iff {cap : ℕ} {r : ℤ × Session Copying} (hdest : r.2.world.dest =
      some (c.source.take (c.moved cap) ++ (c.previous.getD []).drop (c.moved cap))) :
    Faithful c r ↔ r.1 ≠ 0 ∨ c.Agrees cap := by
  unfold Faithful Scenario.Agrees
  rw [hdest, Option.some.injEq, take_append_drop_iff, imp_iff_not_or]

theorem openDest_of_nonneg {ret : ℤ} (h : 0 ≤ ret) : c.start.openDest ret false =
    ({ ret := ret }, { c.start with dest := some (c.previous.getD []) }) := by
  rw [Copying.openDest, if_pos h]
  rfl

theorem openDest_of_neg {ret : ℤ} (h : ¬ 0 ≤ ret) :
    c.start.openDest ret false = ({ ret := ret }, c.start) := by
  rw [Copying.openDest, if_neg h]

theorem hostOpens_none (h : c.hostOpens = none) : c.start.hostOpens.elim (-1 : ℤ) (↑) = -1 := by
  have hstart : c.start.hostOpens = none := h
  rw [hstart, Option.elim_none]

theorem hostOpens_some {fd : ℕ} (h : c.hostOpens = some fd) :
    c.start.hostOpens.elim (-1 : ℤ) (↑) = fd := by
  have hstart : c.start.hostOpens = some fd := h
  rw [hstart, Option.elim_some]

/-- **do_put** returns, and its success means equal content exactly when it does not come to the
copy, or the close fails, or the destination agreed with the source behind what was moved. -/
theorem doPut_faithful (hfits : (inCurrentDir s.ctx (arg argv 1)).isSome)
    (hs : s.world = c.start) (hfuel : c.source.length < fuel) :
    ∃ r, doPut copying fuel argv s = some r ∧
      (Faithful c r ↔ c.hostOpens = none ∨ c.opens < 0 ∨ c.closes ≠ 0 ∨ c.Agrees (8 * 4096)) := by
  obtain ⟨tmp, htmp⟩ := Option.isSome_iff_exists.mp hfits
  obtain ⟨s₁, hcall₁, hs₁⟩ := Session.call_world (s := s) (opensSource (arg argv 1) s.world).1
  rw [hs] at hcall₁ hs₁
  simp only [doPut, htmp, Option.bind_some, hcall₁]
  cases hopen : c.hostOpens with
  | none =>
    simp only [hostOpens_none hopen, ne_eq, not_true_eq_false, if_false]
    refine ⟨_, rfl, fun _ => .inl trivial, fun _ => faithful_of_ne ?_⟩
    exact (by decide : (-1 : ℤ) ≠ 0)
  | some fd =>
    have hne : (fd : ℤ) ≠ -1 := by omega
    simp only [hostOpens_some hopen, if_pos hne]
    have hopens : copying (.open tmp (fioOWronly ||| fioOCreat) 0o666) s₁.world =
        c.start.openDest c.opens false := by
      rw [hs₁]
      exact (opensDest tmp 0o666 c.start).2
    by_cases hpos : 0 ≤ c.opens
    · rw [openDest_of_nonneg hpos] at hopens
      obtain ⟨s₂, hcall₂, hs₂⟩ := Session.call_world hopens
      simp only [hcall₂, if_pos hpos]
      obtain ⟨r, t, hrun, hc, hdest⟩ : ∃ r t, copyLoop copying (.hostRead fd (8 * 4096))
          (.write c.opens) (fun result len =>
            if result < 0 then .failed tmp result else .wroteShort tmp result len) fuel 0 s₂ =
              some (r, t) ∧ _ :=
        copyLoop_copies (fun _ => rfl) (fun _ _ => rfl) (by decide) hfuel hs₂
      simp only [hrun, Option.map_some]
      refine ⟨_, rfl, ?_⟩
      have hcloses : t.world.closes = c.closes := by rw [← hc]
      rw [faithful_iff hdest]
      have hnot : ¬ c.opens < 0 := not_lt.mpr hpos
      simp only [reduceCtorEq, hnot, false_or]
      exact or_congr_left (hcloses ▸ Iff.rfl)
    · rw [openDest_of_neg hpos] at hopens
      obtain ⟨s₂, hcall₂, -⟩ := Session.call_world hopens
      simp only [hcall₂, if_neg hpos]
      refine ⟨_, rfl, fun _ => .inr (.inl (not_le.mp hpos)), fun _ => faithful_of_ne ?_⟩
      exact fun h0 => hpos h0.ge

/-- **do_get** likewise, with the host's close. -/
theorem doGet_faithful (hfits : (inCurrentDir s.ctx (arg argv 1)).isSome)
    (hs : s.world = c.start) (hfuel : c.source.length < fuel) :
    ∃ r, doGet copying fuel argv s = some r ∧
      (Faithful c r ↔ c.opens < 0 ∨ c.hostOpens = none ∨ c.hostCloses ≠ 0 ∨ c.Agrees 4096) := by
  obtain ⟨tmp, htmp⟩ := Option.isSome_iff_exists.mp hfits
  obtain ⟨s₁, hcall₁, hs₁⟩ := Session.call_world (s := s) (opensSource tmp s.world).2
  rw [hs] at hcall₁ hs₁
  have hret : c.start.opens = c.opens := rfl
  simp only [doGet, htmp, Option.bind_some, hcall₁, hret]
  by_cases hpos : 0 ≤ c.opens
  · simp only [if_pos hpos]
    have hopens : copying (.hostOpen (arg argv 1) (oCreat ||| oWronly) 0o664) s₁.world =
        c.start.openDest (c.start.hostOpens.elim (-1) (↑)) false := by
      rw [hs₁]
      exact (opensDest (arg argv 1) 0o664 c.start).1
    have hnot : ¬ c.opens < 0 := not_lt.mpr hpos
    cases hopen : c.hostOpens with
    | none =>
      rw [hostOpens_none hopen, openDest_of_neg (by decide)] at hopens
      obtain ⟨s₂, hcall₂, -⟩ := Session.call_world hopens
      simp only [hcall₂, ne_eq, not_true_eq_false, if_false]
      refine ⟨_, rfl, fun _ => .inr (.inl trivial), fun _ => faithful_of_ne ?_⟩
      exact (by decide : (-1 : ℤ) ≠ 0)
    | some fd =>
      rw [hostOpens_some hopen, openDest_of_nonneg (Int.natCast_nonneg fd)] at hopens
      obtain ⟨s₂, hcall₂, hs₂⟩ := Session.call_world hopens
      have hne : (fd : ℤ) ≠ -1 := by omega
      simp only [hcall₂, if_pos hne]
      obtain ⟨r, t, hrun, hc, hdest⟩ : ∃ r t, copyLoop copying (.read c.opens 4096)
          (.hostWrite fd) (fun _ _ => .perror (arg argv 1)) fuel 0 s₂ = some (r, t) ∧ _ :=
        copyLoop_copies (fun _ => rfl) (fun _ _ => rfl) (by decide) hfuel hs₂
      simp only [hrun, Option.map_some]
      refine ⟨_, rfl, ?_⟩
      have hcloses : t.world.hostCloses = c.hostCloses := by rw [← hc]
      rw [faithful_iff hdest]
      simp only [reduceCtorEq, hnot, false_or]
      exact or_congr_left (hcloses ▸ Iff.rfl)
  · simp only [if_neg hpos]
    refine ⟨_, rfl, fun _ => .inl (not_le.mp hpos), fun _ => faithful_of_ne ?_⟩
    exact fun h0 => hpos h0.ge

/-- **When a copy's success means equal content.** -/
theorem copies_faithful (hfits : (inCurrentDir s.ctx (arg argv 1)).isSome)
    (hs : s.world = c.start) (hfuel : c.source.length < fuel) :
    (∃ r, doPut copying fuel argv s = some r ∧
      (Faithful c r ↔
        c.hostOpens = none ∨ c.opens < 0 ∨ c.closes ≠ 0 ∨ c.Agrees (8 * 4096))) ∧
    ∃ r, doGet copying fuel argv s = some r ∧
      (Faithful c r ↔ c.opens < 0 ∨ c.hostOpens = none ∨ c.hostCloses ≠ 0 ∨ c.Agrees 4096) :=
  ⟨doPut_faithful hfits hs hfuel, doGet_faithful hfits hs hfuel⟩

/-- Two bytes, where nothing was. -/
def twoBytes : Scenario := { source := [1, 2] }

/-- `put f` and `get f`. -/
def copyArgs : List CStr := [[], ascii ['f']]

theorem copies_faithful_two :
    (∃ r, doPut copying 3 copyArgs { world := twoBytes.start } = some r ∧ Faithful twoBytes r) ∧
    ∃ r, doGet copying 3 copyArgs { world := twoBytes.start } = some r ∧ Faithful twoBytes r := by
  obtain ⟨⟨r, hr, hput⟩, q, hq, hget⟩ :
      (∃ r, doPut copying 3 copyArgs { world := twoBytes.start } = some r ∧ _) ∧
      ∃ r, doGet copying 3 copyArgs { world := twoBytes.start } = some r ∧ _ :=
    copies_faithful rfl rfl (by decide)
  have hputs : twoBytes.Agrees (8 * 4096) := rfl
  have hgets : twoBytes.Agrees 4096 := rfl
  exact ⟨⟨r, hr, hput.mpr (.inr (.inr (.inr hputs)))⟩,
    q, hq, hget.mpr (.inr (.inr (.inr hgets)))⟩

/-- One byte, where two were. -/
def oneOverTwo : Scenario := { source := [1], previous := some [2, 3] }

/-- One byte, whose write fails. -/
def failedWrite : Scenario :=
  { source := [1], results := fun i => if i = 1 then .fails 27 else .moves 4096 }

/-- **Both copies return 0.**  The second byte that was there is still there after the put, and the
file got is empty. -/
theorem copies_unfaithful :
    (∃ t, doPut copying 2 copyArgs { world := oneOverTwo.start } = some (0, t) ∧
      t.world.dest = some [1, 3]) ∧
    ∃ t, doGet copying 2 copyArgs { world := failedWrite.start } = some (0, t) ∧
      t.world.dest = some [] :=
  ⟨⟨_, rfl, rfl⟩, ⟨_, rfl, rfl⟩⟩

end Copies

end PfsShell.Shell
