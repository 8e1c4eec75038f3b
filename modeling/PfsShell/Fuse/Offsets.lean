/-
# Offsets through pfsfuse

A read through FUSE is to be made at the offset it is asked for, and so is a write
(`Transferred`).  The position is sought first, and `iomanx_adapter_lseek` takes what `lseek64`
returns for an `int`: of an offset beyond 2 GiB it keeps the low 32 bits.  Where these are
negative, a seek that succeeded is taken for one that failed; where they are -48, the position is
sought once more, with those 32 bits.

* `adapter_transfers_iff`: what is transferred is transferred at its offset exactly when the
  offset is in the lower half of its 4 GiB, or, without `lseek64`, below 2 GiB.
-/
import PfsShell.Fuse.Adapter

namespace PfsShell.Fuse

/-! ## 1. Open files -/

/-- What iomanX knows about its descriptors: the size of the file one is open on, its position
there, and whether the driver has `lseek64`. -/
structure Files (σ : Type) where
  size : σ → ℤ → Option ℕ
  pos : σ → ℤ → ℤ
  wide : σ → ℤ → Prop

/-- **What iomanX answers to a seek** within an open file, from its start: it goes there and says
so, unless the driver has no such call.  No position is negative. -/
structure SeekLaws {σ : Type} (io : IomanX σ) (F : Files σ) : Prop where
  lseek64 : ∀ w fd (n : ℕ) (offset : ℤ), F.size w fd = some n → F.wide w fd →
    0 ≤ offset → offset ≤ n → offset < 2 ^ 63 →
    (io (.lseek64 fd offset fioSeekSet) w).1.ret = offset ∧
      F.pos (io (.lseek64 fd offset fioSeekSet) w).2 fd = offset ∧
      F.size (io (.lseek64 fd offset fioSeekSet) w).2 = F.size w
  unsupported : ∀ w fd offset, ¬ F.wide w fd →
    (io (.lseek64 fd offset fioSeekSet) w).1.ret = -48 ∧
      F.size (io (.lseek64 fd offset fioSeekSet) w).2 = F.size w
  lseek : ∀ w fd (n : ℕ) (offset : ℤ), F.size w fd = some n → 0 ≤ offset → offset ≤ n →
    offset < 2 ^ 31 →
    (io (.lseek fd offset fioSeekSet) w).1.ret = offset ∧
      F.pos (io (.lseek fd offset fioSeekSet) w).2 fd = offset
  negative : ∀ w fd (n : ℕ) (offset : ℤ), F.size w fd = some n → offset < 0 →
    (io (.lseek fd offset fioSeekSet) w).1.ret < 0

/-- The descriptor of a call. -/
def Call.fd : Call → ℤ
  | .lseek64 fd _ _ | .lseek fd _ _ | .read fd _ | .write fd _ _ | .dread fd _ | .close fd => fd
  | .dopen _ => -1

/-- A call that was made: the position its descriptor was at before, and the answer. -/
structure Entry where
  call : Call
  pos : ℤ
  reply : Reply

/-- iomanX with a record of the calls, the earliest first. -/
def recording {σ : Type} (io : IomanX σ) (F : Files σ) : IomanX (σ × List Entry) := fun c w =>
  ((io c w.1).1, (io c w.1).2, w.2 ++ [⟨c, F.pos w.1 c.fd, (io c w.1).1⟩])

/-! ## 2. What a transfer is for -/

/-- The seeks in front of a transfer: the last one succeeded, and only where there is no `lseek64`
it is not the first. -/
inductive Sought (fd offset : ℤ) : List Entry → Prop
  | lseek64 {e : Entry} : e.call = .lseek64 fd offset fioSeekSet → 0 ≤ e.reply.ret →
      Sought fd offset [e]
  | lseek {e e' : Entry} : e.call = .lseek64 fd offset fioSeekSet → e.reply.ret = -48 →
      e'.call = .lseek fd offset fioSeekSet → 0 ≤ e'.reply.ret → Sought fd offset [e, e']

/-- **The call `c` was made at `offset`**, once, and what it answered is returned. -/
def Transferred {σ : Type} (offset : ℤ) (c : Call) (before : List Entry)
    (r : Reply × σ × List Entry) : Prop :=
  ∃ seeks, Sought c.fd offset seeks ∧ r.2.2 = before ++ seeks ++ [⟨c, offset, r.1⟩]

/-- The offsets that get through: the low 32 bits of one are not negative, or, without `lseek64`,
it has no more than these. -/
def PassesInt {σ : Type} (F : Files σ) (w : σ) (fd offset : ℤ) : Prop :=
  (F.wide w fd → offset % 2 ^ 32 < 2 ^ 31) ∧ (¬ F.wide w fd → offset < 2 ^ 31)

/-! ## 3. The seek -/

theorem toInt_eq (z : ℤ) : (z % 2 ^ 32 < 2 ^ 31 → toInt z = z % 2 ^ 32) ∧
    (2 ^ 31 ≤ z % 2 ^ 32 → toInt z = z % 2 ^ 32 - 2 ^ 32) := by
  unfold toInt
  rw [Int.bmod_def]
  omega

section Seek

variable {σ : Type} {io : IomanX σ} {F : Files σ} {fi : FuseFileInfo} {w : σ} {n : ℕ}
  {offset : ℤ} {calls : List Entry}

/-- The seek of `recording io`, from the calls in `calls`. -/
abbrev sought (io : IomanX σ) (F : Files σ) (fi : FuseFileInfo) (offset : ℤ) (w : σ)
    (calls : List Entry) : ℤ × σ × List Entry :=
  iomanxAdapterLseek (recording io F) offset fioSeekSet (some fi) (w, calls)

/-- With `lseek64`. -/
theorem sought_wide (F : Files σ) (calls : List Entry)
    (h : toInt (io (.lseek64 (toInt fi.fh) offset fioSeekSet) w).1.ret ≠ -48) :
    sought io F fi offset w calls =
      (toInt (io (.lseek64 (toInt fi.fh) offset fioSeekSet) w).1.ret,
        (recording io F (.lseek64 (toInt fi.fh) offset fioSeekSet) (w, calls)).2) := by
  simp only [sought, iomanxAdapterLseek]
  exact if_neg h

/-- Without it, or with an answer that looks so. -/
theorem sought_narrow (F : Files σ) (calls : List Entry)
    (h : toInt (io (.lseek64 (toInt fi.fh) offset fioSeekSet) w).1.ret = -48) :
    sought io F fi offset w calls =
      ((recording io F (.lseek (toInt fi.fh) (toInt offset) fioSeekSet)
        (recording io F (.lseek64 (toInt fi.fh) offset fioSeekSet) (w, calls)).2).1.ret,
        (recording io F (.lseek (toInt fi.fh) (toInt offset) fioSeekSet)
          (recording io F (.lseek64 (toInt fi.fh) offset fioSeekSet) (w, calls)).2).2) := by
  simp only [sought, iomanxAdapterLseek]
  exact if_pos h

/-- **An offset that gets through** is sought, and the descriptor stands there. -/
theorem lseek_passes (calls : List Entry) (laws : SeekLaws io F)
    (hopen : F.size w (toInt fi.fh) = some n)
    (hin : 0 ≤ offset ∧ offset ≤ n ∧ offset < 2 ^ 63)
    (hpass : PassesInt F w (toInt fi.fh) offset) :
    0 ≤ (sought io F fi offset w calls).1 ∧
      F.pos (sought io F fi offset w calls).2.1 (toInt fi.fh) = offset ∧
      ∃ seeks, Sought (toInt fi.fh) offset seeks ∧
        (sought io F fi offset w calls).2.2 = calls ++ seeks := by
  obtain ⟨h0, hn, h63⟩ := hin
  by_cases hwide : F.wide w (toInt fi.fh)
  · obtain ⟨hret, hpos, -⟩ := laws.lseek64 w _ n offset hopen hwide h0 hn h63
    have hlow := (toInt_eq offset).1 (hpass.1 hwide)
    have hne : toInt (io (.lseek64 (toInt fi.fh) offset fioSeekSet) w).1.ret ≠ -48 := by
      rw [hret, hlow]
      omega
    rw [sought_wide F calls hne]
    refine ⟨?_, hpos, [_], .lseek64 rfl ?_, rfl⟩
    · show 0 ≤ toInt (io (.lseek64 (toInt fi.fh) offset fioSeekSet) w).1.ret
      rw [hret, hlow]
      omega
    · show 0 ≤ (io (.lseek64 (toInt fi.fh) offset fioSeekSet) w).1.ret
      rw [hret]
      exact h0
  · obtain ⟨hret, hsize⟩ := laws.unsupported w (toInt fi.fh) offset hwide
    have hlt := hpass.2 hwide
    have hlow : toInt offset = offset := by
      rw [(toInt_eq offset).1 (by omega)]
      omega
    obtain ⟨hret', hpos⟩ := laws.lseek _ (toInt fi.fh) n offset (by rw [hsize]; exact hopen)
      h0 hn hlt
    have h48 : toInt (io (.lseek64 (toInt fi.fh) offset fioSeekSet) w).1.ret = -48 := by
      rw [hret]
      decide
    rw [sought_narrow F calls h48, hlow]
    have hnonneg : 0 ≤ (io (.lseek (toInt fi.fh) offset fioSeekSet)
        (io (.lseek64 (toInt fi.fh) offset fioSeekSet) w).2).1.ret := by
      rw [hret']
      exact h0
    exact ⟨hnonneg, hpos, [_, _], .lseek rfl hret rfl hnonneg,
      List.append_assoc calls [_] [_]⟩

/-- **Any other is refused**, or leaves the descriptor elsewhere. -/
theorem lseek_misses (calls : List Entry) (laws : SeekLaws io F)
    (hopen : F.size w (toInt fi.fh) = some n)
    (hin : 0 ≤ offset ∧ offset ≤ n ∧ offset < 2 ^ 63)
    (hpass : ¬ PassesInt F w (toInt fi.fh) offset) :
    (sought io F fi offset w calls).1 < 0 ∨
      F.pos (sought io F fi offset w calls).2.1 (toInt fi.fh) ≠ offset := by
  obtain ⟨h0, hn, h63⟩ := hin
  by_cases hwide : F.wide w (toInt fi.fh)
  · obtain ⟨hret, -, hsize⟩ := laws.lseek64 w _ n offset hopen hwide h0 hn h63
    have hhigh : 2 ^ 31 ≤ offset % 2 ^ 32 := by
      by_contra hlt
      exact hpass ⟨fun _ => by omega, fun h => absurd hwide h⟩
    have hlow := (toInt_eq offset).2 hhigh
    left
    by_cases h48 : toInt (io (.lseek64 (toInt fi.fh) offset fioSeekSet) w).1.ret = -48
    · -- the low 32 bits are those of -48
      have h48' : toInt offset = -48 := by
        rw [← h48, hret]
      rw [sought_narrow F calls h48]
      exact laws.negative _ _ n _ (by rw [← hopen, ← hsize]; rfl) (by omega)
    · rw [sought_wide F calls h48]
      show toInt (io (.lseek64 (toInt fi.fh) offset fioSeekSet) w).1.ret < 0
      rw [hret, hlow]
      omega
  · obtain ⟨hret, hsize⟩ := laws.unsupported w (toInt fi.fh) offset hwide
    have hlt : 2 ^ 31 ≤ offset := by
      by_contra hlt
      exact hpass ⟨fun h => absurd h hwide, fun _ => by omega⟩
    have h48 : toInt (io (.lseek64 (toInt fi.fh) offset fioSeekSet) w).1.ret = -48 := by
      rw [hret]
      decide
    have hopen' : F.size (io (.lseek64 (toInt fi.fh) offset fioSeekSet) w).2 (toInt fi.fh) =
        some n := by
      rw [hsize]
      exact hopen
    rw [sought_narrow F calls h48]
    rcases Int.lt_or_le (toInt offset) 0 with hneg | hnonneg
    · exact .inl (laws.negative _ _ n _ hopen' hneg)
    · right
      have hcases := toInt_eq offset
      have hpos := (laws.lseek _ (toInt fi.fh) n (toInt offset) hopen' hnonneg (by omega)
        (by omega)).2
      intro heq
      have hwrong : toInt offset = offset := hpos.symm.trans heq
      omega

/-- A call that moves data. -/
def Call.IsTransfer (c : Call) : Prop := ∀ fd offset whence,
  c ≠ .lseek64 fd offset whence ∧ c ≠ .lseek fd offset whence

/-- The seek makes no such call. -/
theorem lseek_calls (io : IomanX σ) (F : Files σ) (fi : FuseFileInfo) (offset : ℤ) (w : σ)
    (calls : List Entry) : ∃ front e,
      (sought io F fi offset w calls).2.2 = front ++ [e] ∧ ¬ e.call.IsTransfer := by
  simp only [sought, iomanxAdapterLseek]
  split
  · exact ⟨_, _, rfl, fun h => (h _ _ _).2 rfl⟩
  · exact ⟨_, _, rfl, fun h => (h _ _ _).1 rfl⟩

/-! ## 4. The transfer -/

/-- What follows the seek in `iomanx_adapter_read` and `iomanx_adapter_write`. -/
def transferAfter {σ : Type} (io : IomanX σ) (c : Call) (r : ℤ × σ) : Reply × σ :=
  if r.1 < 0 then ({ ret := r.1 }, r.2) else io c r.2

theorem adapterRead_eq {τ : Type} (io : IomanX τ) (size : ℕ) (w : τ) :
    iomanxAdapterRead io size offset (some fi) w =
      transferAfter io (.read (toInt fi.fh) (toInt size))
        (iomanxAdapterLseek io offset fioSeekSet (some fi) w) := rfl

theorem adapterWrite_eq {τ : Type} (io : IomanX τ) (buf : List UInt8) (size : ℕ) (w : τ) :
    iomanxAdapterWrite io buf size offset (some fi) w =
      transferAfter io (.write (toInt fi.fh) buf (toInt size))
        (iomanxAdapterLseek io offset fioSeekSet (some fi) w) := rfl

/-- **A transfer is made at its offset** exactly when the offset gets through. -/
theorem transferAfter_iff (laws : SeekLaws io F) (hopen : F.size w (toInt fi.fh) = some n)
    (hin : 0 ≤ offset ∧ offset ≤ n ∧ offset < 2 ^ 63) {c : Call} (hfd : c.fd = toInt fi.fh)
    (hc : c.IsTransfer) :
    Transferred offset c calls (transferAfter (recording io F) c (sought io F fi offset w calls)) ↔
      PassesInt F w (toInt fi.fh) offset := by
  constructor
  · rintro ⟨seeks, -, hlog⟩
    by_contra hpass
    by_cases hneg : (sought io F fi offset w calls).1 < 0
    · rw [transferAfter, if_pos hneg] at hlog
      obtain ⟨front, e, hlast, he⟩ := lseek_calls io F fi offset w calls
      have hend := (List.append_inj' (hlast.symm.trans hlog) rfl).2
      rw [List.singleton_inj.mp hend] at he
      exact he hc
    · have hpos := (lseek_misses calls laws hopen hin hpass).resolve_left hneg
      rw [transferAfter, if_neg hneg] at hlog
      have hend := (List.append_inj' hlog rfl).2
      have hat := congrArg Entry.pos (List.singleton_inj.mp hend)
      rw [← hfd] at hpos
      exact hpos hat
  · intro hpass
    obtain ⟨hres, hpos, seeks, hsought, hlog⟩ := lseek_passes calls laws hopen hin hpass
    refine ⟨seeks, by rw [hfd]; exact hsought, ?_⟩
    rw [transferAfter, if_neg (Int.not_lt.mpr hres)]
    show (sought io F fi offset w calls).2.2 ++
      [⟨c, F.pos (sought io F fi offset w calls).2.1 c.fd, _⟩] = _
    rw [hlog, hfd, hpos]
    rfl

theorem read_transferred_iff (laws : SeekLaws io F) (fi : FuseFileInfo)
    (hopen : F.size w (toInt fi.fh) = some n) (hin : 0 ≤ offset ∧ offset ≤ n ∧ offset < 2 ^ 63)
    (size : ℕ) :
    Transferred offset (.read (toInt fi.fh) (toInt size)) calls
      (iomanxAdapterRead (recording io F) size offset (some fi) (w, calls)) ↔
        PassesInt F w (toInt fi.fh) offset := by
  have hc : (Call.read (toInt fi.fh) (toInt size)).IsTransfer := by
    intro fd offset whence
    exact ⟨by simp, by simp⟩
  rw [adapterRead_eq]
  exact transferAfter_iff laws hopen hin rfl hc

theorem write_transferred_iff (laws : SeekLaws io F) (fi : FuseFileInfo)
    (hopen : F.size w (toInt fi.fh) = some n) (hin : 0 ≤ offset ∧ offset ≤ n ∧ offset < 2 ^ 63)
    (buf : List UInt8) (size : ℕ) :
    Transferred offset (.write (toInt fi.fh) buf (toInt size)) calls
      (iomanxAdapterWrite (recording io F) buf size offset (some fi) (w, calls)) ↔
        PassesInt F w (toInt fi.fh) offset := by
  have hc : (Call.write (toInt fi.fh) buf (toInt size)).IsTransfer := by
    intro fd offset whence
    exact ⟨by simp, by simp⟩
  rw [adapterWrite_eq]
  exact transferAfter_iff laws hopen hin rfl hc

end Seek

/-- **Reads and writes of an open file** are made at the offset FUSE asks for exactly when it gets
through an `int`. -/
theorem adapter_transfers_iff {σ : Type} {io : IomanX σ} {F : Files σ} (laws : SeekLaws io F)
    (fi : FuseFileInfo) {w : σ} {n : ℕ} {offset : ℤ} (hopen : F.size w (toInt fi.fh) = some n)
    (hin : 0 ≤ offset ∧ offset ≤ n ∧ offset < 2 ^ 63) (calls : List Entry) (buf : List UInt8)
    (size : ℕ) :
    (Transferred offset (.read (toInt fi.fh) (toInt size)) calls
      (iomanxAdapterRead (recording io F) size offset (some fi) (w, calls)) ↔
        PassesInt F w (toInt fi.fh) offset) ∧
    (Transferred offset (.write (toInt fi.fh) buf (toInt size)) calls
      (iomanxAdapterWrite (recording io F) buf size offset (some fi) (w, calls)) ↔
        PassesInt F w (toInt fi.fh) offset) :=
  ⟨read_transferred_iff laws fi hopen hin size, write_transferred_iff laws fi hopen hin buf size⟩

/-! ## 5. One file -/

/-- A file of zeros that every descriptor is open on. -/
structure ZeroFile where
  size : ℕ
  pos : ℤ := 0

/-- A driver with `lseek64`, for that file. -/
def zeroFile : IomanX ZeroFile
  | .lseek64 _ offset _, w =>
    if 0 ≤ offset ∧ offset ≤ w.size then ({ ret := offset }, { w with pos := offset })
    else ({ ret := -22 }, w)
  | .lseek _ offset _, w =>
    if 0 ≤ offset ∧ offset ≤ w.size then ({ ret := offset }, { w with pos := offset })
    else ({ ret := -22 }, w)
  | .read _ size, w =>
    let k := min size.toNat (w.size - w.pos).toNat
    ({ ret := k, data := List.replicate k 0 }, { w with pos := w.pos + k })
  | .write _ _ size, w =>
    ({ ret := size }, { size := max w.size (w.pos + size).toNat, pos := w.pos + size })
  | _, w => ({}, w)

def zeroFiles : Files ZeroFile where
  size w _ := some w.size
  pos w _ := w.pos
  wide _ _ := True

theorem zeroFile_laws : SeekLaws zeroFile zeroFiles where
  lseek64 w fd n offset hopen _ h0 hn _ := by
    obtain rfl : w.size = n := Option.some.inj hopen
    have hgo : zeroFile (.lseek64 fd offset fioSeekSet) w =
        ({ ret := offset }, { w with pos := offset }) := if_pos ⟨h0, hn⟩
    rw [hgo]
    exact ⟨rfl, rfl, rfl⟩
  unsupported _ _ _ hwide := absurd trivial hwide
  lseek w fd n offset hopen h0 hn _ := by
    obtain rfl : w.size = n := Option.some.inj hopen
    have hgo : zeroFile (.lseek fd offset fioSeekSet) w =
        ({ ret := offset }, { w with pos := offset }) := if_pos ⟨h0, hn⟩
    rw [hgo]
    exact ⟨rfl, rfl⟩
  negative w fd n offset _ hneg := by
    have hgo : zeroFile (.lseek fd offset fioSeekSet) w = ({ ret := -22 }, w) :=
      if_neg fun h => absurd h.1 (Int.not_le.mpr hneg)
    rw [hgo]
    exact (by decide : (-22 : ℤ) < 0)

/-- Behind 4 GiB it is read as it should be. -/
theorem adapter_transfers_behind :
    Transferred 4294967301 (.read (toInt (3 : ℕ)) (toInt (4096 : ℕ))) []
      (iomanxAdapterRead (recording zeroFile zeroFiles) 4096 4294967301 (some ⟨3⟩)
        (⟨8589934592, 0⟩, [])) :=
  (adapter_transfers_iff zeroFile_laws ⟨3⟩ (n := 8589934592) rfl (by decide) [] [] 4096).1.mpr
    ⟨fun _ => by decide, fun h => absurd trivial h⟩

/-- At 2 GiB it is not read: the offset comes back as an error.  48 bytes in front of 4 GiB the
offset is taken for the answer of a driver without `lseek64`. -/
theorem read_at_two_gib : SeekLaws zeroFile zeroFiles ∧
    ¬ Transferred 2147483648 (.read (toInt (3 : ℕ)) (toInt (4096 : ℕ))) []
      (iomanxAdapterRead (recording zeroFile zeroFiles) 4096 2147483648 (some ⟨3⟩)
        (⟨8589934592, 0⟩, [])) ∧
    (iomanxAdapterRead zeroFile 4096 2147483648 (some ⟨3⟩) ⟨8589934592, 0⟩).1.ret = -2147483648 ∧
    (iomanxAdapterRead zeroFile 4096 4294967248 (some ⟨3⟩) ⟨8589934592, 0⟩).1.ret = -22 := by
  refine ⟨zeroFile_laws, ?_, by decide, by decide⟩
  intro h
  have hpass : PassesInt zeroFiles ⟨8589934592, 0⟩ (toInt (3 : ℕ)) 2147483648 :=
    (read_transferred_iff zeroFile_laws ⟨3⟩ (n := 8589934592) rfl (by decide) 4096).mp h
  exact absurd (hpass.1 trivial) (by decide)

end PfsShell.Fuse
