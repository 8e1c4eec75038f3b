/-
# Transfers larger than the shared memory

`scepfsdRead` and `scepfsdWrite` have one loop: while more is left than the shared memory holds,
they call themselves for one full chunk at `ptr + chunked_size`, and what is left after the loop is
one more request, which they copy from or to `ptr` itself.  Here a transfer is the list of its
requests, each with its place in the caller's memory (`transfer`); `answered_scepfsdWriteFrom` and
`answered_scepfsdReadFrom` say that these are the requests the two functions send.

The value returned is the truth, and the chunks lie one behind the other, as long as that last
request is not reached behind a full chunk (`transfers_truthful_iff`): it is copied from the wrong
place, and an error of it is added to what went before (`last_chunk_lost`).
-/
import PfsShell.Lib.Tiling
import PfsShell.Pfsd.Client

namespace PfsShell.Pfsd

open PfsShell.Lib

/-! ## 1. Sizes -/

theorem toInt_intOfSize {n : UInt64} (h : n.toNat < 2 ^ 31) : (intOfSize n).toInt = n.toNat := by
  have hcast : n.toInt64.toInt = n.toNat := by
    have hbits : n.toInt64.toInt = n.toBitVec.toInt := rfl
    rw [hbits, BitVec.toInt_eq_toNat_bmod]
    exact Int.bmod_eq_of_le (by rw [UInt64.toNat_toBitVec]; omega)
      (by rw [UInt64.toNat_toBitVec]; omega)
  rw [intOfSize, Int64.toInt_toInt32, hcast]
  exact Int.bmod_eq_of_le (by omega) (by omega)

theorem toNat_sizeOfInt {c : CInt} (h : 0 ≤ c.toInt) : (sizeOfInt c).toNat = c.toInt.toNat := by
  have hcast : c.toInt64.toInt = c.toInt := Int32.toInt_toInt64 c
  have hnonneg : 0 ≤ c.toInt64 := by
    rw [Int64.le_iff_toInt_le, hcast]
    exact h
  rw [sizeOfInt, Int64.toNat_toUInt64_of_le hnonneg, Int64.toNatClampNeg, hcast]

/-- `size - chunked_size`, as long as no more was transferred than asked. -/
theorem toNat_size_sub {n : UInt64} {c : CInt} (h : 0 ≤ c.toInt) (hle : c.toInt ≤ n.toNat) :
    (n - sizeOfInt c).toNat = n.toNat - c.toInt.toNat := by
  rw [UInt64.toNat_sub_of_le, toNat_sizeOfInt h]
  rw [UInt64.le_iff_toNat_le, toNat_sizeOfInt h]
  omega

/-! ## 2. The requests of a transfer -/

/-- One request: the place of its bytes in the caller's memory, its `m_size`, and the daemon's
answer. -/
structure Chunk where
  offset : ℕ
  mSize : CInt
  ret : CInt
  deriving DecidableEq

/-- How many bytes the daemon transferred. -/
def Chunk.moved (c : Chunk) : ℕ := c.ret.toInt.toNat

/-- The loop and the last request of `scepfsdRead` and `scepfsdWrite`, from request `k` on, when
the daemon answers `r`; with the value returned. -/
def transferFrom (sharedMemorySize size : UInt64) (r : ℕ → CInt) :
    ℕ → ℕ → CInt → Option (List Chunk × CInt)
  | 0, _, _ => none
  | fuel + 1, k, chunkedSize =>
    if sharedMemorySize < size - sizeOfInt chunkedSize then
      -- the call of the function itself, for a chunk of the shared memory's size
      let result := r k
      let chunk := ⟨chunkedSize.toNatClampNeg, intOfSize sharedMemorySize, result⟩
      if result < 0 then some ([chunk], result)
      else if result < intOfSize sharedMemorySize then some ([chunk], result + chunkedSize)
      else (transferFrom sharedMemorySize size r fuel (k + 1) (chunkedSize + result)).map
        fun t => (chunk :: t.1, t.2)
    else
      -- the last request is at `ptr`
      some ([⟨0, intOfSize (size - sizeOfInt chunkedSize), r k⟩], r k + chunkedSize)

/-- A whole transfer. -/
def transfer (sharedMemorySize size : UInt64) (r : ℕ → CInt) : Option (List Chunk × CInt) :=
  transferFrom sharedMemorySize size r (size.toNat + 1) 0 0

/-! ## 3. They are the requests of the two functions -/

/-- What a client function sends, each request with what it copied to the shared memory for it,
and what it returns, when the replies are `r`, from the `k`-th on. -/
def Prog.answered (r : ℕ → CInt) : ℕ → Option Mem → Prog → List (Option Mem × Request) × Option ℤ
  | _, _, .done ret => ([], some ret)
  | _, _, .outOfFuel => ([], none)
  | k, arg, .requireLock next => next.answered r k arg
  | k, arg, .releaseLock next => next.answered r k arg
  | k, _, .copyIn bytes next => next.answered r k (some bytes)
  | k, arg, .copyOut _ next => next.answered r k arg
  | k, arg, .sendRequest req next =>
    ((arg, req) :: (next.answered r k none).1, (next.answered r k none).2)
  | k, arg, .receiveReply _ next => (next (int32Bytes (r k))).answered r (k + 1) arg

section Answered

variable {r : ℕ → CInt} {sizes : Sizes} {fd : CInt}

theorem answered_writeChunk (r : ℕ → CInt) (k : ℕ) (fd : CInt) (data : Mem) (size : UInt64)
    (next : CInt → Prog) :
    (writeChunk fd (some data) size next).answered r k none =
      ((some (data.take (intOfSize size).toNatClampNeg), .pfsdReqWrite fd 1 (intOfSize size)) ::
          ((next (r k)).answered r (k + 1) none).1,
        ((next (r k)).answered r (k + 1) none).2) := by
  simp only [writeChunk, Prog.answered, copyArg, Option.map_some, request,
    int32OfBytes_int32Bytes, Option.isSome_some]
  rfl

theorem answered_readChunk (r : ℕ → CInt) (k : ℕ) (fd : CInt) (size : UInt64)
    (next : CInt → Prog) :
    (readChunk fd true size next).answered r k none =
      ((none, .pfsdReqRead fd 1 (intOfSize size)) :: ((next (r k)).answered r (k + 1) none).1,
        ((next (r k)).answered r (k + 1) none).2) := by
  simp only [readChunk, Prog.answered, copyBuf, request, int32OfBytes_int32Bytes]
  rfl

/-- What `scepfsdWrite` copies to the shared memory and sends for a chunk. -/
def Chunk.write (fd : CInt) (data : Mem) (c : Chunk) : Option Mem × Request :=
  (some ((data.drop c.offset).take c.mSize.toNatClampNeg), .pfsdReqWrite fd 1 c.mSize)

/-- What `scepfsdRead` sends for a chunk. -/
def Chunk.read (fd : CInt) (c : Chunk) : Option Mem × Request :=
  (none, .pfsdReqRead fd 1 c.mSize)

/-- **The requests of `scepfsdWrite`, and the value it returns.** -/
theorem answered_scepfsdWriteFrom {data : Mem} {size : UInt64} :
    ∀ {fuel k : ℕ} {chunkedSize : CInt} {cs : List Chunk} {ret : CInt},
      transferFrom sizes.sharedMemorySize size r fuel k chunkedSize = some (cs, ret) →
      (scepfsdWriteFrom sizes fd (some data) size fuel chunkedSize).answered r k none =
        (cs.map (Chunk.write fd data), some ret.toInt)
  | 0, _, _, _, _, h => by cases h
  | fuel + 1, k, chunkedSize, cs, ret, h => by
    unfold transferFrom at h
    unfold scepfsdWriteFrom
    split at h
    · rename_i hfull
      simp only [if_pos hfull, Option.map_some, answered_writeChunk]
      dsimp only at h
      split at h
      · rename_i hneg
        obtain ⟨rfl, rfl⟩ := Prod.mk.inj (Option.some.inj h)
        simp only [if_pos hneg, Prog.answered]
        rfl
      · rename_i hneg
        split at h
        · rename_i hshort
          obtain ⟨rfl, rfl⟩ := Prod.mk.inj (Option.some.inj h)
          simp only [if_neg hneg, if_pos hshort, Prog.answered]
          rfl
        · rename_i hshort
          obtain ⟨⟨cs', ret'⟩, hrest, heq⟩ := Option.map_eq_some_iff.mp h
          obtain ⟨rfl, rfl⟩ := Prod.mk.inj heq
          simp only [if_neg hneg, if_neg hshort, answered_scepfsdWriteFrom hrest]
          rfl
    · rename_i hfull
      obtain ⟨rfl, rfl⟩ := Prod.mk.inj (Option.some.inj h)
      simp only [if_neg hfull, answered_writeChunk, Prog.answered]
      rfl

/-- **The requests of `scepfsdRead`, and the value it returns.** -/
theorem answered_scepfsdReadFrom {size : UInt64} :
    ∀ {fuel k : ℕ} {chunkedSize : CInt} {cs : List Chunk} {ret : CInt},
      transferFrom sizes.sharedMemorySize size r fuel k chunkedSize = some (cs, ret) →
      (scepfsdReadFrom sizes fd true size fuel chunkedSize).answered r k none =
        (cs.map (Chunk.read fd), some ret.toInt)
  | 0, _, _, _, _, h => by cases h
  | fuel + 1, k, chunkedSize, cs, ret, h => by
    unfold transferFrom at h
    unfold scepfsdReadFrom
    split at h
    · rename_i hfull
      simp only [if_pos hfull, Bool.true_or, answered_readChunk]
      dsimp only at h
      split at h
      · rename_i hneg
        obtain ⟨rfl, rfl⟩ := Prod.mk.inj (Option.some.inj h)
        simp only [if_pos hneg, Prog.answered]
        rfl
      · rename_i hneg
        split at h
        · rename_i hshort
          obtain ⟨rfl, rfl⟩ := Prod.mk.inj (Option.some.inj h)
          simp only [if_neg hneg, if_pos hshort, Prog.answered]
          rfl
        · rename_i hshort
          obtain ⟨⟨cs', ret'⟩, hrest, heq⟩ := Option.map_eq_some_iff.mp h
          obtain ⟨rfl, rfl⟩ := Prod.mk.inj heq
          simp only [if_neg hneg, if_neg hshort, answered_scepfsdReadFrom hrest]
          rfl
    · rename_i hfull
      obtain ⟨rfl, rfl⟩ := Prod.mk.inj (Option.some.inj h)
      simp only [if_neg hfull, answered_readChunk, Prog.answered]
      rfl

end Answered

/-! ## 4. What a transfer should do -/

/-- How many bytes the daemon transferred over all chunks. -/
def total (cs : List Chunk) : ℕ := (cs.map Chunk.moved).sum

/-- The value returned is an error that the daemon sent or the number of bytes transferred, and
after a chunk that failed a count is the number of bytes before it. -/
structure Reports (cs : List Chunk) (ret : CInt) : Prop where
  value : (∃ c ∈ cs, c.ret < 0 ∧ ret = c.ret) ∨ ret.toInt = total cs
  failed : ∀ done c rest, cs = done ++ c :: rest → c.ret < 0 → 0 ≤ ret → ret.toInt = total done

/-- What the daemon took from the caller's memory is its first bytes, in order and each once. -/
def Covers (cs : List Chunk) : Prop :=
  cs.flatMap (fun c => List.range' c.offset c.moved) = List.range (total cs)

/-- The caller's memory after `scepfsdRead`: each request copies `m_size` bytes of the shared
memory, which holds `d k` at the `k`-th. -/
def readInto (d : ℕ → ℕ → UInt8) : ℕ → List Chunk → (ℕ → UInt8) → ℕ → UInt8
  | _, [], m => m
  | k, c :: cs, m =>
    readInto d (k + 1) cs (overlay m c.offset (window (d k) 0 c.mSize.toNatClampNeg))

/-- The bytes the daemon delivered, one chunk behind the other. -/
def delivered (d : ℕ → ℕ → UInt8) : ℕ → List Chunk → List UInt8
  | _, [] => []
  | k, c :: cs => window (d k) 0 c.moved ++ delivered d (k + 1) cs

/-- The caller's memory begins with what the daemon delivered, whatever that is and whatever the
shared memory holds behind it. -/
def Fills (cs : List Chunk) : Prop :=
  ∀ d m, window (readInto d 0 cs m) 0 (total cs) = delivered d 0 cs

/-- The transfer ends, reports the truth, and moved the right bytes. -/
def Truthful (moves : List Chunk → Prop) (sharedMemorySize size : UInt64) (r : ℕ → CInt) : Prop :=
  ∃ cs ret, transfer sharedMemorySize size r = some (cs, ret) ∧ Reports cs ret ∧ moves cs

/-- How many full chunks come before the last request, when none of them is cut short. -/
def fullChunks (sharedMemorySize size : UInt64) : ℕ := (size.toNat - 1) / sharedMemorySize.toNat

/-- Each answer is an error or a count of at most what was asked for. -/
def Answers (sharedMemorySize size : UInt64) (r : ℕ → CInt) : Prop :=
  (∀ k < fullChunks sharedMemorySize size, (r k).toInt ≤ sharedMemorySize.toNat) ∧
  (r (fullChunks sharedMemorySize size)).toInt ≤
    (size.toNat - fullChunks sharedMemorySize size * sharedMemorySize.toNat : ℕ)

/-! ## 5. Chunks one behind the other -/

theorem total_append (cs cs' : List Chunk) : total (cs ++ cs') = total cs + total cs' := by
  simp [total]

@[simp] theorem total_singleton (c : Chunk) : total [c] = c.moved := by simp [total]

/-- Each chunk is placed behind what was transferred before it. -/
inductive InOrder : List Chunk → Prop
  | nil : InOrder []
  | concat {cs : List Chunk} {c : Chunk} (h : InOrder cs) (hplace : c.offset = total cs)
      (hmoved : c.moved ≤ c.mSize.toNatClampNeg) : InOrder (cs ++ [c])

theorem InOrder.covers {cs : List Chunk} (h : InOrder cs) : Covers cs := by
  induction h with
  | nil => rfl
  | @concat cs c _ hplace _ ih =>
    have hrange : List.range (total cs) ++ List.range' (total cs) c.moved =
        List.range (total cs + c.moved) := by
      rw [List.range_eq_range', List.range_eq_range', ← List.range'_append_1, Nat.zero_add]
    rw [Covers, List.flatMap_append, ih, total_append, total_singleton, List.flatMap_singleton,
      hplace, hrange]

theorem readInto_append (d : ℕ → ℕ → UInt8) (cs' : List Chunk) :
    ∀ (cs : List Chunk) (k : ℕ) (m : ℕ → UInt8),
      readInto d k (cs ++ cs') m = readInto d (k + cs.length) cs' (readInto d k cs m)
  | [], _, _ => rfl
  | c :: cs, k, m => by
    rw [List.cons_append, readInto, readInto_append d cs' cs, readInto, List.length_cons]
    congr 1
    omega

theorem delivered_append (d : ℕ → ℕ → UInt8) (cs' : List Chunk) :
    ∀ (cs : List Chunk) (k : ℕ),
      delivered d k (cs ++ cs') = delivered d k cs ++ delivered d (k + cs.length) cs'
  | [], _ => rfl
  | c :: cs, k => by
    rw [List.cons_append, delivered, delivered_append d cs' cs, delivered, List.length_cons,
      List.append_assoc, Nat.add_right_comm, Nat.add_assoc]

theorem InOrder.fills {cs : List Chunk} (h : InOrder cs) : Fills cs := by
  induction h with
  | nil => exact fun _ _ => rfl
  | @concat cs c _ hplace hmoved ih =>
    intro d m
    have hnew : window (overlay (readInto d 0 cs m) (total cs)
        (window (d cs.length) 0 c.mSize.toNatClampNeg)) (total cs) c.moved =
        window (d cs.length) 0 c.moved := by
      rw [window_overlay_take _ _ (by rw [length_window]; exact hmoved)]
      exact take_drop_window (d cs.length) 0 (k := 0) (by omega)
    rw [readInto_append, delivered_append, total_append, total_singleton, Nat.zero_add, readInto,
      readInto, delivered, delivered, List.append_nil, hplace, window_add, Nat.zero_add,
      window_overlay_of_disjoint _ (.inl (by omega)), ih d m, hnew]

/-! ## 6. The chunks of a transfer -/

section Spec

variable {S size : UInt64} {r : ℕ → CInt}

/-- `n` full chunks, the first of them the `k`-th. -/
def full (S : UInt64) (k n : ℕ) : List Chunk :=
  (List.range' k n).map fun j => ⟨j * S.toNat, intOfSize S, intOfSize S⟩

theorem lt_fullChunks_iff (hS : 0 < S.toNat) {k : ℕ} :
    k < fullChunks S size ↔ (k + 1) * S.toNat < size.toNat := by
  rw [fullChunks, ← Nat.succ_le_iff, Nat.le_div_iff_mul_le hS, Nat.succ_eq_add_one]
  have hpos : 0 < (k + 1) * S.toNat := Nat.mul_pos (Nat.succ_pos k) hS
  omega

theorem fullChunks_mul_le (S size : UInt64) : fullChunks S size * S.toNat ≤ size.toNat :=
  (Nat.div_mul_le_self _ _).trans (Nat.sub_le _ _)

/-- The test of the loop, after `k` full chunks. -/
theorem loop_iff (hS : 0 < S.toNat) {k : ℕ} {c : CInt} (hc : c.toInt = (k * S.toNat : ℕ))
    (hk : k ≤ fullChunks S size) : S < size - sizeOfInt c ↔ k < fullChunks S size := by
  have hle : k * S.toNat ≤ size.toNat :=
    (Nat.mul_le_mul_right _ hk).trans (fullChunks_mul_le S size)
  rw [lt_fullChunks_iff hS, UInt64.lt_iff_toNat_lt, toNat_size_sub (by omega) (by omega), hc,
    Nat.add_one_mul, Int.toNat_natCast]
  omega

/-- There is a full chunk only when the shared memory is smaller than the transfer. -/
theorem lt_size_of_full (hS : 0 < S.toNat) (hq : 0 < fullChunks S size) :
    S.toNat < size.toNat := by
  have h := (lt_fullChunks_iff hS).mp hq
  omega

theorem fullChunks_eq_zero_iff (hS : 0 < S.toNat) : fullChunks S size = 0 ↔ size ≤ S := by
  rw [UInt64.le_iff_toNat_le]
  have h : 0 < fullChunks S size ↔ (0 + 1) * S.toNat < size.toNat := lt_fullChunks_iff hS
  rw [Nat.zero_add, Nat.one_mul] at h
  omega

/-- The sum of two counts within the transfer does not overflow. -/
theorem toInt_add_count {a b : CInt} (hb : 0 ≤ b.toInt) (hsum : a.toInt + b.toInt < 2 ^ 31) :
    (a + b).toInt = a.toInt + b.toInt := by
  have ha : -2 ^ 31 ≤ a.toInt := a.le_toInt
  rw [Int32.toInt_add]
  exact Int.bmod_eq_of_le (by omega) (by omega)

/-- Full chunks that are all transferred in full. -/
theorem transferFrom_full (hS : 0 < S.toNat) (hsize : size.toNat < 2 ^ 31) :
    ∀ {n k : ℕ} {c : CInt}, c.toInt = (k * S.toNat : ℕ) → k + n ≤ fullChunks S size →
      (∀ i, k ≤ i → i < k + n → (r i).toInt = S.toNat) →
      ∃ c' : CInt, c'.toInt = ((k + n) * S.toNat : ℕ) ∧ ∀ fuel,
        transferFrom S size r (fuel + n) k c =
          (transferFrom S size r fuel (k + n) c').map fun t => (full S k n ++ t.1, t.2)
  | 0, k, c, hc, _, _ => by
    refine ⟨c, hc, fun fuel => ?_⟩
    cases transferFrom S size r fuel k c <;> simp [full]
  | n + 1, k, c, hc, hk, hr => by
    have hlt : k < fullChunks S size := by omega
    have hnext : (k + 1) * S.toNat < size.toNat := (lt_fullChunks_iff hS).mp hlt
    have hint : (intOfSize S).toInt = S.toNat :=
      toInt_intOfSize ((lt_size_of_full hS (by omega)).trans hsize)
    have hrk : r k = intOfSize S :=
      Int32.toInt_inj.mp ((hr k (Nat.le_refl k) (by omega)).trans hint.symm)
    have hsum : (c + r k).toInt = ((k + 1) * S.toNat : ℕ) := by
      rw [Nat.add_one_mul] at hnext ⊢
      rw [hrk, toInt_add_count (by omega) (by omega), hc, hint]
      omega
    obtain ⟨c', hc', hrest⟩ := transferFrom_full hS hsize (n := n) hsum (by omega)
      fun i hi hi' => hr i (by omega) (by omega)
    refine ⟨c', by rw [hc']; congr 2; omega, fun fuel => ?_⟩
    have hneg : ¬ r k < 0 := by
      rw [hrk, Int32.lt_iff_toInt_lt, hint]
      exact not_lt.mpr (Int.natCast_nonneg _)
    have hshort : ¬ r k < intOfSize S := by
      rw [hrk, Int32.lt_iff_toInt_lt]
      exact lt_irrefl _
    have hplace : c.toNatClampNeg = k * S.toNat := by
      rw [Int32.toNatClampNeg, hc, Int.toNat_natCast]
    rw [← Nat.add_assoc, transferFrom, if_pos ((loop_iff hS hc (by omega)).mpr hlt)]
    simp only [if_neg hneg, if_neg hshort, hrest fuel, hplace, Option.map_map]
    rw [show k + 1 + n = k + (n + 1) by omega, hrk]
    congr 1

theorem full_succ (S : UInt64) (k n : ℕ) :
    full S k (n + 1) = full S k n ++ [⟨(k + n) * S.toNat, intOfSize S, intOfSize S⟩] := by
  rw [full, List.range'_1_concat, List.map_append]
  rfl

/-- Full chunks lie one behind the other. -/
theorem inOrder_full (hS : S.toNat < 2 ^ 31) :
    ∀ n, InOrder (full S 0 n) ∧ total (full S 0 n) = n * S.toNat
  | 0 => ⟨.nil, by simp [full, total]⟩
  | n + 1 => by
    obtain ⟨hin, htotal⟩ := inOrder_full hS n
    have hmoved : (intOfSize S).toInt.toNat = S.toNat := by
      rw [toInt_intOfSize hS, Int.toNat_natCast]
    rw [full_succ]
    refine ⟨.concat hin ?_ (Nat.le_refl _), ?_⟩
    · rw [htotal, Nat.zero_add]
    · rw [total_append, htotal, total_singleton, Chunk.moved, hmoved, Nat.add_one_mul]

theorem not_neg_of_mem_full (hS : S.toNat < 2 ^ 31) {n : ℕ} {c : Chunk} (h : c ∈ full S 0 n) :
    ¬ c.ret < 0 := by
  obtain ⟨j, -, rfl⟩ := List.mem_map.mp h
  rw [Int32.lt_iff_toInt_lt, toInt_intOfSize hS]
  exact not_lt.mpr (Int.natCast_nonneg _)

/-- A full chunk that is cut short, or fails, is the last request. -/
theorem transfer_stops (hS : 0 < S.toNat) (hsize : size.toNat < 2 ^ 31) {j : ℕ}
    (hj : j < fullChunks S size) (hfull : ∀ i < j, (r i).toInt = S.toNat)
    (hstop : (r j).toInt < S.toNat) :
    ∃ ret, transfer S size r = some (full S 0 j ++ [⟨j * S.toNat, intOfSize S, r j⟩], ret) ∧
      (r j < 0 → ret = r j) ∧ (¬ r j < 0 → ret.toInt = (j * S.toNat : ℕ) + (r j).toInt) := by
  obtain ⟨c, hc, hrun⟩ := transferFrom_full (r := r) hS hsize (n := j) (k := 0) (c := 0)
    (by simp) (by omega) (fun i _ hi => hfull i (by omega))
  rw [Nat.zero_add] at hc hrun
  have hnext : (j + 1) * S.toNat < size.toNat := (lt_fullChunks_iff hS).mp hj
  rw [Nat.add_one_mul] at hnext
  have hj' : j ≤ j * S.toNat := Nat.le_mul_of_pos_right j hS
  obtain ⟨fuel, hfuel⟩ : ∃ fuel, size.toNat + 1 = fuel + 1 + j := ⟨size.toNat - j, by omega⟩
  have hplace : c.toNatClampNeg = j * S.toNat := by
    rw [Int32.toNatClampNeg, hc, Int.toNat_natCast]
  have hshort : r j < intOfSize S := by
    rw [Int32.lt_iff_toInt_lt, toInt_intOfSize (by omega)]
    exact hstop
  rw [transfer, hfuel, hrun, transferFrom, if_pos ((loop_iff hS hc (by omega)).mpr hj)]
  simp only [hplace]
  by_cases hneg : r j < 0
  · exact ⟨r j, by rw [if_pos hneg]; rfl, fun _ => rfl, fun h => absurd hneg h⟩
  · refine ⟨r j + c, by rw [if_neg hneg, if_pos hshort]; rfl, fun h => absurd h hneg, fun _ => ?_⟩
    rw [toInt_add_count (by omega) (by omega), hc]
    omega

/-- When no full chunk is cut short, the last request is behind them, and its place is not. -/
theorem transfer_last (hS : 0 < S.toNat) (hsize : size.toNat < 2 ^ 31)
    (hr : Answers S size r) (hfull : ∀ i < fullChunks S size, (r i).toInt = S.toNat) :
    ∃ m ret : CInt, transfer S size r =
        some (full S 0 (fullChunks S size) ++ [⟨0, m, r (fullChunks S size)⟩], ret) ∧
      m.toInt = (size.toNat - fullChunks S size * S.toNat : ℕ) ∧
      ret.toInt = (fullChunks S size * S.toNat : ℕ) + (r (fullChunks S size)).toInt := by
  obtain ⟨c, hc, hrun⟩ := transferFrom_full (r := r) hS hsize (n := fullChunks S size) (k := 0)
    (c := 0) (by simp) (by omega) (fun i _ hi => hfull i (by omega))
  rw [Nat.zero_add] at hc hrun
  have hle := fullChunks_mul_le S size
  have hq : fullChunks S size ≤ fullChunks S size * S.toNat := Nat.le_mul_of_pos_right _ hS
  obtain ⟨fuel, hfuel⟩ : ∃ fuel, size.toNat + 1 = fuel + 1 + fullChunks S size :=
    ⟨size.toNat - fullChunks S size, by omega⟩
  have hleft : (size - sizeOfInt c).toNat = size.toNat - fullChunks S size * S.toNat := by
    rw [toNat_size_sub (by omega) (by omega), hc, Int.toNat_natCast]
  refine ⟨intOfSize (size - sizeOfInt c), r (fullChunks S size) + c, ?_, ?_, ?_⟩
  · rw [transfer, hfuel, hrun, transferFrom,
      if_neg ((loop_iff hS hc (Nat.le_refl _)).not.mpr (Nat.lt_irrefl _))]
    rfl
  · rw [toInt_intOfSize (by omega), hleft]
  · have hlast := hr.2
    rw [toInt_add_count (by omega) (by omega), hc]
    omega

/-! ## 7. When a transfer tells the truth -/

/-- A chunk behind full ones, with the value that goes with it, is the truth. -/
theorem reports_behind_full (hS : S.toNat < 2 ^ 31) {n : ℕ} {c : Chunk} {ret : CInt}
    (herror : c.ret < 0 → ret = c.ret)
    (hcount : ¬ c.ret < 0 → ret.toInt = (n * S.toNat : ℕ) + c.ret.toInt) :
    Reports (full S 0 n ++ [c]) ret := by
  obtain ⟨-, htotal⟩ := inOrder_full hS n
  constructor
  · by_cases hneg : c.ret < 0
    · exact .inl ⟨c, List.mem_append_right _ List.mem_cons_self, hneg, herror hneg⟩
    · refine .inr ?_
      have hpos : 0 ≤ c.ret.toInt := by
        rw [Int32.lt_iff_toInt_lt] at hneg
        exact not_lt.mp hneg
      rw [hcount hneg, total_append, htotal, total_singleton, Chunk.moved]
      omega
  · intro done c' rest heq hneg hret
    have hmem : c' ∈ full S 0 n ++ [c] := by
      rw [heq]
      exact List.mem_append_right _ List.mem_cons_self
    rcases List.mem_append.mp hmem with hmem | hmem
    · exact absurd hneg (not_neg_of_mem_full hS hmem)
    · obtain rfl := List.mem_singleton.mp hmem
      exact absurd (herror hneg ▸ hneg) (Int32.not_lt.mpr hret)

/-- What the last request at `ptr` reports is not the truth when it fails behind a full chunk. -/
theorem not_reports_last (hS : 0 < S.toNat) (hS' : S.toNat < 2 ^ 31) {n : ℕ} (hn : 0 < n)
    {c : Chunk} {ret : CInt} (hneg : c.ret < 0)
    (hret : ret.toInt = (n * S.toNat : ℕ) + c.ret.toInt) : ¬ Reports (full S 0 n ++ [c]) ret := by
  obtain ⟨-, htotal⟩ := inOrder_full hS' n
  have hpos : 0 < n * S.toNat := Nat.mul_pos hn hS
  have hneg' : c.ret.toInt < 0 := by
    rw [Int32.lt_iff_toInt_lt] at hneg
    exact hneg
  rintro ⟨⟨c', hmem, hc', rfl⟩ | hvalue, -⟩
  · rcases List.mem_append.mp hmem with hmem | hmem
    · exact not_neg_of_mem_full hS' hmem hc'
    · rw [List.mem_singleton.mp hmem] at hret
      omega
  · rw [hret, total_append, htotal, total_singleton, Chunk.moved] at hvalue
    omega

/-- The last request takes its bytes from the front again. -/
theorem not_covers_last (hS : 0 < S.toNat) (hS' : S.toNat < 2 ^ 31) {n : ℕ} (hn : 0 < n)
    {c : Chunk} (hplace : c.offset = 0) (hmoved : 0 < c.moved) :
    ¬ Covers (full S 0 n ++ [c]) := by
  obtain ⟨hin, htotal⟩ := inOrder_full hS' n
  have hpos : 0 < n * S.toNat := Nat.mul_pos hn hS
  intro h
  rw [Covers, List.flatMap_append, hin.covers, total_append, htotal, total_singleton,
    List.flatMap_singleton, hplace] at h
  have hnodup : (List.range (n * S.toNat) ++ List.range' 0 c.moved).Nodup := h ▸ List.nodup_range
  -- byte 0 is in the first chunk and in the last request
  refine (List.nodup_append.mp hnodup).2.2 0 (List.mem_range.mpr hpos) 0 ?_ rfl
  rw [List.mem_range'_1]
  omega

/-- The last request overwrites the front of what was delivered. -/
theorem not_fills_last (hS : 0 < S.toNat) (hS' : S.toNat < 2 ^ 31) {n : ℕ} (hn : 0 < n)
    {c : Chunk} (hplace : c.offset = 0) (hsize : 0 < c.mSize.toInt) :
    ¬ Fills (full S 0 n ++ [c]) := by
  obtain ⟨hin, htotal⟩ := inOrder_full hS' n
  have hpos : 0 < n * S.toNat := Nat.mul_pos hn hS
  have hlen : (full S 0 n).length = n := by simp [full]
  intro h
  -- the shared memory holds zeros for the full chunks, and ones at the last request
  obtain ⟨d, hd⟩ : ∃ d : ℕ → ℕ → UInt8, d = fun k _ => if k < n then 0 else 1 := ⟨_, rfl⟩
  have hzero : (delivered d 0 (full S 0 n ++ [c]))[0]? = some 0 := by
    have hmoved : (intOfSize S).toInt.toNat = S.toNat := by
      rw [toInt_intOfSize hS', Int.toNat_natCast]
    obtain ⟨n, rfl⟩ := Nat.exists_eq_succ_of_ne_zero hn.ne'
    rw [full, List.range'_succ, List.map_cons, List.cons_append, delivered, Chunk.moved, hmoved,
      List.getElem?_append_left (by rw [length_window]; exact hS)]
    simp [window, live, hd, hS]
  have hfirst : readInto d 0 (full S 0 n ++ [c]) (fun _ => 0) 0 = 1 := by
    have hcopied : 0 < (window (d (0 + (full S 0 n).length)) 0 c.mSize.toNatClampNeg).length := by
      rw [length_window, Int32.toNatClampNeg]
      omega
    rw [readInto_append, readInto, readInto, hplace, overlay_of_mem (Nat.le_refl 0) hcopied]
    simp [window, live, hd, hlen]
  have hone : (window (readInto d 0 (full S 0 n ++ [c]) fun _ => 0) 0
      (total (full S 0 n ++ [c])))[0]? = some 1 := by
    have hlt : 0 < total (full S 0 n ++ [c]) := by
      rw [total_append, htotal]
      omega
    simp only [window, live, List.getElem?_map, List.getElem?_range hlt, Option.map_some,
      Nat.zero_add, hfirst]
  rw [h d, hzero] at hone
  exact absurd (Option.some.inj hone) (by decide)

/-- The two ends of a transfer: a full chunk is cut short or fails, or none is. -/
theorem answers_cases (hr : Answers S size r) :
    (∃ j < fullChunks S size, (∀ i < j, (r i).toInt = S.toNat) ∧ (r j).toInt < S.toNat) ∨
    ∀ i < fullChunks S size, (r i).toInt = S.toNat := by
  by_cases h : scan (fun i => (r i).toInt ≠ S.toNat) (fullChunks S size) < fullChunks S size
  · refine .inl ⟨_, h, fun i hi => not_not.mp (not_of_lt_scan hi), ?_⟩
    exact lt_of_le_of_ne (hr.1 _ h) (scan_holds h)
  · have heq := Nat.le_antisymm (scan_le _) (Nat.not_lt.mp h)
    exact .inr fun i hi => not_not.mp (scan_eq_self_iff.mp heq i hi)

/-- When a full chunk is cut short, or there is none, both functions tell the truth. -/
theorem truthful_of_stops (hS : 0 < S.toNat) (hsize : size.toNat < 2 ^ 31)
    (hr : Answers S size r)
    (h : size ≤ S ∨ ∃ k < fullChunks S size, (r k).toInt ≠ S.toNat) :
    ∃ cs ret, transfer S size r = some (cs, ret) ∧ Reports cs ret ∧ InOrder cs := by
  rcases answers_cases hr with ⟨j, hj, hfull, hstop⟩ | hfull
  · have hS' : S.toNat < 2 ^ 31 := (lt_size_of_full hS (by omega)).trans hsize
    obtain ⟨hin, htotal⟩ := inOrder_full hS' j
    obtain ⟨ret, hrun, herror, hcount⟩ := transfer_stops hS hsize hj hfull hstop
    refine ⟨_, ret, hrun, reports_behind_full hS' herror hcount, .concat hin htotal.symm ?_⟩
    show (r j).toInt.toNat ≤ (intOfSize S).toInt.toNat
    rw [toInt_intOfSize hS']
    omega
  · rcases h with hle | ⟨k, hk, hne⟩
    · have hq := (fullChunks_eq_zero_iff hS).mpr hle
      obtain ⟨m, ret, hrun, hm, hret⟩ := transfer_last hS hsize hr hfull
      have hlast := hr.2
      rw [hq] at hrun hm hret hlast
      have hsame : ret = r 0 := by
        rw [Nat.zero_mul, Int.natCast_zero, zero_add] at hret
        exact Int32.toInt_inj.mp hret
      have hplaced : InOrder (full S 0 0) := .nil
      refine ⟨_, ret, hrun, ?_, hplaced.concat rfl ?_⟩
      · constructor
        · by_cases hneg : r 0 < 0
          · exact .inl ⟨_, List.mem_cons_self, hneg, hsame⟩
          · refine .inr ?_
            have hpos : 0 ≤ (r 0).toInt := by
              rw [Int32.lt_iff_toInt_lt] at hneg
              exact not_lt.mp hneg
            rw [hsame]
            show (r 0).toInt = (total [⟨0, m, r 0⟩] : ℕ)
            rw [total_singleton, Chunk.moved]
            exact (Int.toNat_of_nonneg hpos).symm
        · intro done c rest heq hneg hpos
          have hmem : c ∈ full S 0 0 ++ [⟨0, m, r 0⟩] := by
            rw [heq]
            exact List.mem_append_right _ List.mem_cons_self
          obtain rfl := List.mem_singleton.mp (show c ∈ [⟨0, m, r 0⟩] from hmem)
          exact absurd (hsame ▸ hpos) (Int32.not_le.mpr hneg)
      · show (r 0).toInt.toNat ≤ m.toInt.toNat
        omega
    · exact absurd (hfull k hk) hne

/-- **When a transfer tells the truth.**  `scepfsdWrite` does exactly when nothing is transferred
by a last request that comes behind a full chunk; `scepfsdRead`, which copies the shared memory
whatever was transferred, exactly when there is no such request. -/
theorem transfers_truthful_iff (hS : 0 < S.toNat) (hsize : size.toNat < 2 ^ 31)
    (hr : Answers S size r) :
    (Truthful Covers S size r ↔ size ≤ S ∨ (∃ k < fullChunks S size, (r k).toInt ≠ S.toNat) ∨
      r (fullChunks S size) = 0) ∧
    (Truthful Fills S size r ↔ size ≤ S ∨ ∃ k < fullChunks S size, (r k).toInt ≠ S.toNat) := by
  by_cases h : size ≤ S ∨ ∃ k < fullChunks S size, (r k).toInt ≠ S.toNat
  · obtain ⟨cs, ret, hrun, hreports, hin⟩ := truthful_of_stops hS hsize hr h
    refine ⟨iff_of_true ⟨cs, ret, hrun, hreports, hin.covers⟩ ?_,
      iff_of_true ⟨cs, ret, hrun, hreports, hin.fills⟩ h⟩
    exact h.imp_right Or.inl
  · rw [not_or, ← fullChunks_eq_zero_iff hS] at h
    obtain ⟨hq, hfull⟩ := h
    have hfull : ∀ i < fullChunks S size, (r i).toInt = S.toNat := by
      intro i hi
      by_contra hne
      exact hfull ⟨i, hi, hne⟩
    have hq : 0 < fullChunks S size := Nat.pos_of_ne_zero hq
    have hS' : S.toNat < 2 ^ 31 := (lt_size_of_full hS hq).trans hsize
    obtain ⟨hin, htotal⟩ := inOrder_full hS' (fullChunks S size)
    obtain ⟨m, ret, hrun, hm, hret⟩ := transfer_last hS hsize hr hfull
    have hleft : fullChunks S size * S.toNat < size.toNat := by
      have hlt : fullChunks S size - 1 < fullChunks S size := Nat.sub_lt hq Nat.one_pos
      have hprev := (lt_fullChunks_iff hS).mp hlt
      rwa [Nat.sub_add_cancel hq] at hprev
    have hunique : ∀ {cs ret'}, transfer S size r = some (cs, ret') →
        cs = full S 0 (fullChunks S size) ++ [⟨0, m, r (fullChunks S size)⟩] ∧ ret' = ret :=
      fun h => Prod.mk.inj (Option.some.inj (h.symm.trans hrun))
    constructor
    · constructor
      · rintro ⟨cs, ret', hrun', hreports, hcovers⟩
        obtain ⟨rfl, rfl⟩ := hunique hrun'
        refine .inr (.inr (Int32.toInt_inj.mp ?_))
        rcases lt_trichotomy (r (fullChunks S size)).toInt 0 with hneg | hzero | hpos
        · have hneg' : r (fullChunks S size) < 0 := by
            rw [Int32.lt_iff_toInt_lt]
            exact hneg
          exact absurd hreports (not_reports_last hS hS' hq hneg' hret)
        · exact hzero
        · refine absurd hcovers (not_covers_last hS hS' hq rfl ?_)
          show 0 < (r (fullChunks S size)).toInt.toNat
          omega
      · rintro (hle | ⟨k, hk, hne⟩ | hzero)
        · exact absurd ((fullChunks_eq_zero_iff hS).mpr hle) hq.ne'
        · exact absurd (hfull k hk) hne
        · rw [hzero] at hrun hret
          have hmoved : ∀ c : Chunk, c.ret = 0 → c.moved = 0 := fun c hc => by
            rw [Chunk.moved, hc]
            rfl
          refine ⟨_, ret, hrun, ⟨.inr ?_, ?_⟩, ?_⟩
          · rw [hret, total_append, htotal, total_singleton, hmoved _ rfl]
            simp
          · intro done c rest heq hneg _
            have hmem : c ∈ full S 0 (fullChunks S size) ++ [⟨0, m, 0⟩] := by
              rw [heq]
              exact List.mem_append_right _ List.mem_cons_self
            rcases List.mem_append.mp hmem with hmem | hmem
            · exact absurd hneg (not_neg_of_mem_full hS' hmem)
            · have hzero : c.ret = 0 := by rw [List.mem_singleton.mp hmem]
              rw [hzero] at hneg
              exact absurd hneg (by decide)
          · rw [Covers, List.flatMap_append, hin.covers, total_append, total_singleton,
              List.flatMap_singleton, hmoved _ rfl, List.range'_zero, List.append_nil,
              Nat.add_zero]
    · constructor
      · rintro ⟨cs, ret', hrun', -, hfills⟩
        obtain ⟨rfl, rfl⟩ := hunique hrun'
        exact absurd hfills (not_fills_last hS hS' hq rfl (by rw [hm]; omega))
      · rintro (hle | ⟨k, hk, hne⟩)
        · exact absurd ((fullChunks_eq_zero_iff hS).mpr hle) hq.ne'
        · exact absurd (hfull k hk) hne

end Spec

/-- Six bytes through a shared memory of four, where the daemon takes two of the first four. -/
theorem transfers_truthful_short :
    Truthful Covers 4 6 (fun _ => 2) ∧ Truthful Fills 4 6 (fun _ => 2) := by
  have hcut : ∃ k < fullChunks 4 6, (2 : CInt).toInt ≠ (4 : UInt64).toNat :=
    ⟨0, by decide, by decide⟩
  have hr : Answers 4 6 fun _ => 2 := ⟨by decide, by decide⟩
  have h := transfers_truthful_iff (by decide) (by decide) hr
  exact ⟨h.1.mpr (.inr (.inl hcut)), h.2.mpr (.inr hcut)⟩

/-- The daemon transfers the first 0x20000 bytes, and then has an error. -/
def failsAtLast (k : ℕ) : CInt := if k = 0 then 0x20000 else -5

/-- **One byte more than the shared memory holds**: the daemon transferred 131072 bytes and then
answered -5, and the caller is told that 131067 bytes were transferred. -/
theorem last_chunk_lost : Answers 0x20000 0x20001 failsAtLast ∧
    (∃ cs, transfer 0x20000 0x20001 failsAtLast = some (cs, 131067) ∧ total cs = 131072) ∧
    ¬ Truthful Covers 0x20000 0x20001 failsAtLast ∧
    ¬ Truthful Fills 0x20000 0x20001 failsAtLast := by
  have hq : fullChunks 0x20000 0x20001 = 1 := by decide
  have hr : Answers 0x20000 0x20001 failsAtLast := ⟨by decide, by decide⟩
  obtain ⟨m, ret, hrun, -, hret⟩ := transfer_last (by decide) (by decide) hr (by decide)
  rw [hq] at hrun hret
  have herror : failsAtLast 1 < 0 := by decide
  have hlie : ¬ Reports (full 0x20000 0 1 ++ [⟨0, m, failsAtLast 1⟩]) ret :=
    not_reports_last (by decide) (by decide) Nat.one_pos herror hret
  have hfalse : ∀ moves : List Chunk → Prop,
      ¬ Truthful moves 0x20000 0x20001 failsAtLast := by
    rintro moves ⟨cs, ret', hrun', hreports, -⟩
    obtain ⟨rfl, rfl⟩ := Prod.mk.inj (Option.some.inj (hrun'.symm.trans hrun))
    exact hlie hreports
  have hvalue : ret = 131067 := Int32.toInt_inj.mp hret
  refine ⟨hr, ⟨_, hvalue ▸ hrun, ?_⟩, hfalse _, hfalse _⟩
  have hmoved : Chunk.moved ⟨0, m, failsAtLast 1⟩ = 0 :=
    Int.toNat_of_nonpos (Int32.lt_iff_toInt_lt.mp herror).le
  rw [total_append, (inOrder_full (by decide) 1).2, total_singleton, hmoved]
  decide

end PfsShell.Pfsd
