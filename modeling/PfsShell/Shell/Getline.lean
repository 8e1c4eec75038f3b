/-
# `getline`

The function of `src/shell.c` that stands in for the one of the C library when there is none
(`NEED_GETLINE`).  It reads a line into the buffer the caller has from the call before, or into a
new one of 128 bytes, and makes the buffer longer by 128 bytes at a time.

When `realloc` has moved the buffer, the running pointer still points into the old one; and the
terminator is stored without a look at the size.  So a line has to be shorter than the buffer.

* `loop_line`, `loop_long`: the loop, for a line that fits and for one that does not;
* `reads_iff`: one call;
* `getline_iff`: any sequence of calls;
* `getline_library_iff`: and when its lines are those that `getline` of the C library reads;
* `getline_long_line`: a first line of 128 bytes or more.
-/
import PfsShell.Lib.Heap
import PfsShell.Lib.Run
import PfsShell.Shell.ParseLine

namespace PfsShell.Shell.Bundled

open PfsShell.Lib

/-! ## 1. The function -/

/-- `'\n'`. -/
def newline : UInt8 := 10

/-- The variables of the loop. -/
structure Filling where
  heap : Heap UInt8
  bufptr : ℕ
  p : Ptr
  size : ℕ

/-- `if ((p - bufptr) > (size - 1))`, which is a comparison of `size_t`, and the `realloc` behind
it; the flag says that there is memory. -/
def Filling.makeRoom (f : Filling) : Bool × Filling :=
  if (f.size + (2 ^ 64 - 1)) % 2 ^ 64 < f.p.index then
    match f.heap.realloc f.bufptr ((f.size + 128) % 2 ^ 64) with
    | (some b, heap) =>
      -- `p` stays where it was
      (true, { f with heap := heap, bufptr := b, size := (f.size + 128) % 2 ^ 64 })
    | (none, heap) => (false, { f with heap := heap })
  else (true, f)

/-- `*p++ = c`. -/
def Filling.put (f : Filling) (c : UInt8) : Option Filling :=
  (f.heap.store f.p c).map fun heap =>
    { f with heap := heap, p := { f.p with index := f.p.index + 1 } }

/-- How the loop ends: with a line, or without memory; and what is left of the stream. -/
inductive LoopEnd
  | line (f : Filling) (rest : List UInt8)
  | noMemory (heap : Heap UInt8) (rest : List UInt8)

/-- `while (c != EOF)`, with `c` in front of the rest of the stream.  `p - bufptr` has no value
when the two are in different buffers. -/
def getlineLoop : List UInt8 → Filling → Option LoopEnd
  | [], f => some (.line f [])
  | c :: s, f =>
    if f.p.block ≠ f.bufptr then none
    else if f.makeRoom.1 then
      (f.makeRoom.2.put c).bind fun f => if c = newline then some (.line f s) else getlineLoop s f
    else some (.noMemory f.makeRoom.2.heap s)

/-- The variables that callers pass, the streams, and memory.  `lineptr` is what `malloc` or
`realloc` has returned. -/
structure Lines where
  heap : Heap UInt8
  lineptr : ℕ → Option ℕ := fun _ => none
  n : ℕ → ℕ := fun _ => 0
  streams : ℕ → List UInt8

/-- A call with `&line` and `&len` of one caller, unless they are `NULL`, and a stream. -/
structure GetlineCall where
  caller : ℕ := 0
  lineptr : Bool := true
  n : Bool := true
  stream : Option ℕ

/-- What is behind the loop. -/
def Lines.finish (l : Lines) (caller file : ℕ) : LoopEnd → Option (ℤ × Lines)
  | .line f rest =>
    (f.put 0).map fun f =>
      (f.p.index - 1,
        { heap := f.heap
          lineptr := Function.update l.lineptr caller (some f.bufptr)
          n := Function.update l.n caller f.size
          streams := Function.update l.streams file rest })
  | .noMemory heap rest =>
    some (-1, { l with heap := heap, streams := Function.update l.streams file rest })

/-- `getline`. -/
def getline (call : GetlineCall) (l : Lines) : Option (ℤ × Lines) :=
  match call.stream with
  | none => some (-1, l)
  | some file =>
    if call.lineptr = false ∨ call.n = false then some (-1, l)
    else
      match l.streams file, l.lineptr call.caller with
      | [], _ => some (-1, l)
      | c :: s, none =>
        match l.heap.malloc 128 with
        | (none, heap) =>
          some (-1, { l with heap := heap, streams := Function.update l.streams file s })
        | (some b, heap) =>
          (getlineLoop (c :: s) { heap := heap, bufptr := b, p := ⟨b, 0⟩, size := 128 }).bind
            (l.finish call.caller file)
      | c :: s, some b =>
        (getlineLoop (c :: s)
          { heap := l.heap, bufptr := b, p := ⟨b, 0⟩, size := l.n call.caller }).bind
            (l.finish call.caller file)

/-! ## 2. The loop -/

/-- The next line of a stream, up to and including the newline. -/
def wholeLine (s : List UInt8) : List UInt8 :=
  s.takeWhile (· ≠ newline) ++ (s.dropWhile (· ≠ newline)).take 1

@[simp] theorem wholeLine_nil : wholeLine [] = [] := rfl

theorem wholeLine_cons (c : UInt8) (s : List UInt8) :
    wholeLine (c :: s) = if c = newline then [c] else c :: wholeLine s := by
  unfold wholeLine
  split
  · rename_i hc
    simp [hc]
  · rename_i hc
    simp [hc]

/-- A line with its newline. -/
theorem wholeLine_append {xs : List UInt8} (h : newline ∉ xs) (rest : List UInt8) :
    wholeLine (xs ++ newline :: rest) = xs ++ [newline] := by
  induction xs with
  | nil => exact (wholeLine_cons _ _).trans (if_pos rfl)
  | cons c xs ih =>
    obtain ⟨hc, hxs⟩ := not_or.mp (fun hmem => h (List.mem_cons.mpr hmem))
    rw [List.cons_append, wholeLine_cons, if_neg (Ne.symm hc), ih hxs]
    rfl

/-- `bytes` are in the buffer, and `p` is at `i`. -/
structure Filling.At (f : Filling) (bytes : List UInt8) (i : ℕ) : Prop where
  ptr : f.p = ⟨f.bufptr, i⟩
  buffer : f.heap.blocks f.bufptr = some bytes
  size : f.size = bytes.length
  small : bytes.length < 2 ^ 64
  le : i ≤ bytes.length

namespace Filling.At

variable {f : Filling} {bytes : List UInt8} {i : ℕ}

theorem block (h : f.At bytes i) : f.p.block = f.bufptr := by rw [h.ptr]

theorem index (h : f.At bytes i) : f.p.index = i := by rw [h.ptr]

theorem pointed (h : f.At bytes i) : f.heap.blocks f.p.block = some bytes := by
  rw [h.block]
  exact h.buffer

end Filling.At

/-- What a store leaves. -/
structure Filling.Goes (f f' : Filling) : Prop where
  bufptr : f'.bufptr = f.bufptr
  size : f'.size = f.size
  sizes : f.heap.SizesKept f'.heap
  next : f'.heap.next = f.heap.next
  grants : f'.heap.grants = f.heap.grants
  fresh : f.heap.Fresh → f'.heap.Fresh

theorem Filling.Goes.refl (f : Filling) : f.Goes f := ⟨rfl, rfl, .refl _, rfl, rfl, id⟩

theorem Filling.Goes.trans {f g k : Filling} (h₁ : f.Goes g) (h₂ : g.Goes k) : f.Goes k where
  bufptr := h₂.bufptr.trans h₁.bufptr
  size := h₂.size.trans h₁.size
  sizes := h₁.sizes.trans h₂.sizes
  next := h₂.next.trans h₁.next
  grants := h₂.grants.trans h₁.grants
  fresh h := h₂.fresh (h₁.fresh h)

section Loop

variable {f : Filling} {bytes s : List UInt8} {i : ℕ} {c : UInt8}

/-- A store below the size. -/
theorem put_at (h : f.At bytes i) (hi : i < bytes.length) :
    ∃ f', f.put c = some f' ∧ f'.At (bytes.set i c) (i + 1) ∧ f.Goes f' := by
  have hstore := Heap.store_eq (v := c) h.pointed (by rw [h.index]; exact hi)
  obtain ⟨hsizes, hnext, hgrants, hfresh⟩ := Heap.store_keeps hstore
  have hput : f.put c = some _ := congrArg (Option.map _) hstore
  refine ⟨_, hput, ⟨?_, ?_, ?_, ?_, ?_⟩, rfl, rfl, hsizes, hnext, hgrants, hfresh⟩
  · rw [h.ptr]
  · rw [h.ptr]
    exact Function.update_self _ _ _
  · rw [List.length_set]
    exact h.size
  · rw [List.length_set]
    exact h.small
  · rw [List.length_set]
    exact hi

/-- A store behind the buffer. -/
theorem put_outside (h : f.At bytes i) (hi : i = bytes.length) : f.put c = none := by
  rw [Filling.put, Heap.store_outside h.pointed (by rw [h.index]; exact Nat.le_of_eq hi.symm)]
  rfl

/-- Below the size there is room, and at index 0 there always seems to be. -/
theorem makeRoom_inside (h : f.At bytes i) (hi : i < bytes.length ∨ i = 0) :
    f.makeRoom = (true, f) := by
  have hsize := h.size
  have hsmall := h.small
  have hindex := h.index
  rw [Filling.makeRoom, if_neg (by omega)]

theorem loop_cons (h : f.At bytes i) (hi : i < bytes.length ∨ i = 0) :
    getlineLoop (c :: s) f = (f.put c).bind fun f =>
      if c = newline then some (.line f s) else getlineLoop s f := by
  rw [getlineLoop, if_neg (not_not.mpr h.block), makeRoom_inside h hi, if_pos rfl]

/-- **A line that fits** is put behind what is there.  The induction is on the stream. -/
theorem loop_line : ∀ (s : List UInt8) (f : Filling) (bytes : List UInt8) (i : ℕ), f.At bytes i →
    i + (wholeLine s).length ≤ bytes.length →
    ∃ f' bytes', getlineLoop s f = some (.line f' (s.drop (wholeLine s).length)) ∧
      f'.At bytes' (i + (wholeLine s).length) ∧ bytes'.length = bytes.length ∧
      bytes'.take (i + (wholeLine s).length) = bytes.take i ++ wholeLine s ∧ f.Goes f' := by
  intro s
  induction s with
  | nil =>
    intro f bytes i h hfits
    exact ⟨f, bytes, rfl, h, rfl, by simp, .refl f⟩
  | cons c s ih =>
    intro f bytes i h hfits
    rw [wholeLine_cons] at hfits ⊢
    have hi : i < bytes.length := by
      split at hfits <;> simp only [List.length_cons] at hfits <;> omega
    obtain ⟨g, hput, hg, hgoes⟩ := put_at (c := c) h hi
    have htake : (bytes.set i c).take (i + 1) = bytes.take i ++ [c] := by
      rw [List.take_succ_eq_append_getElem (by rw [List.length_set]; exact hi),
        List.getElem_set_self, List.take_set_of_le (Nat.le_refl i)]
    rw [loop_cons h (.inl hi), hput, Option.bind_some]
    split
    · exact ⟨g, bytes.set i c, rfl, hg, List.length_set, htake, hgoes⟩
    · rename_i hc
      rw [if_neg hc, List.length_cons] at hfits
      obtain ⟨f', bytes', hloop, hat, hlen, hbytes, hgoes'⟩ := ih g (bytes.set i c) (i + 1) hg
        (by rw [List.length_set]; omega)
      have hend : i + 1 + (wholeLine s).length = i + (c :: wholeLine s).length := by
        rw [List.length_cons]
        omega
      rw [hend] at hat hbytes
      refine ⟨f', bytes', hloop, hat, hlen.trans List.length_set, ?_, hgoes.trans hgoes'⟩
      rw [hbytes, htake, List.append_assoc]
      rfl

/-- **A line that does not fit**: the character behind the buffer is stored where the buffer was,
unless `realloc` has no memory. -/
theorem loop_long : ∀ (s : List UInt8) (f : Filling) (bytes : List UInt8) (i : ℕ), f.At bytes i →
    f.heap.Fresh → 0 < bytes.length → bytes.length < i + (wholeLine s).length →
    (f.heap.grants f.heap.next = true → getlineLoop s f = none) ∧
    (f.heap.grants f.heap.next = false → ∃ heap rest,
      getlineLoop s f = some (.noMemory heap rest) ∧ f.heap.SizesKept heap ∧ heap.Fresh) := by
  intro s
  induction s with
  | nil =>
    intro f bytes i h _ _ hlong
    have hle := h.le
    rw [wholeLine_nil, List.length_nil] at hlong
    omega
  | cons c s ih =>
    intro f bytes i h hfresh hpos hlong
    by_cases hi : i < bytes.length
    · obtain ⟨g, hput, hg, hgoes⟩ := put_at (c := c) h hi
      rw [wholeLine_cons] at hlong
      rw [loop_cons h (.inl hi), hput, Option.bind_some]
      split at hlong
      · rw [List.length_singleton] at hlong
        omega
      · rename_i hc
        rw [List.length_cons] at hlong
        obtain ⟨hgranted, hrefused⟩ := ih g (bytes.set i c) (i + 1) hg (hgoes.fresh hfresh)
          (by rw [List.length_set]; exact hpos) (by rw [List.length_set]; omega)
        rw [hgoes.grants, hgoes.next] at hgranted hrefused
        rw [if_neg hc]
        refine ⟨hgranted, fun hno => ?_⟩
        obtain ⟨heap, rest, hloop, hsizes, hheap⟩ := hrefused hno
        exact ⟨heap, rest, hloop, hgoes.sizes.trans hsizes, hheap⟩
    · -- the buffer is full
      have hfull : i = bytes.length := Nat.le_antisymm h.le (Nat.le_of_not_lt hi)
      have hindex := h.index
      have hsize := h.size
      have hsmall := h.small
      have hcheck : (f.size + (2 ^ 64 - 1)) % 2 ^ 64 < f.p.index := by omega
      rw [getlineLoop, if_neg (not_not.mpr h.block)]
      unfold Filling.makeRoom
      rw [if_pos hcheck]
      constructor
      · intro hgranted
        obtain ⟨heap, hrealloc, hgone⟩ : ∃ heap,
            f.heap.realloc f.bufptr ((f.size + 128) % 2 ^ 64) = (some f.heap.next, heap) ∧
              heap.blocks f.bufptr = none :=
          Heap.realloc_granted hfresh h.buffer hgranted
        rw [hrealloc]
        have hstore : heap.store f.p c = none := Heap.store_gone (by rw [h.block]; exact hgone)
        simp only [if_true, Filling.put, hstore, Option.map_none, Option.bind_none]
      · intro hno
        rw [Heap.realloc_refused hno]
        exact ⟨_, s, rfl, .refl _, hfresh.skip⟩

/-- A buffer of no bytes: the first one is stored outside. -/
theorem loop_empty (h : f.At [] 0) : getlineLoop (c :: s) f = none := by
  rw [loop_cons h (.inr rfl), put_outside h rfl]
  rfl

end Loop

/-! ## 3. One call -/

/-- Every line variable that is not `NULL` has a buffer, with the size that goes with it. -/
structure Lines.Valid (l : Lines) : Prop where
  fresh : l.heap.Fresh
  buffer : ∀ k b, l.lineptr k = some b →
    ∃ bytes, l.heap.blocks b = some bytes ∧ bytes.length = l.n k
  small : ∀ k b, l.lineptr k = some b → l.n k < 2 ^ 64

/-- What a call that returns `ret` bytes leaves: the next line of the stream and a NUL, in a buffer
whose size is in `n`. -/
structure Lines.Read (l l' : Lines) (caller file : ℕ) (ret : ℤ) : Prop where
  length : ret = (wholeLine (l.streams file)).length
  streams : l'.streams = Function.update l.streams file
    ((l.streams file).drop (wholeLine (l.streams file)).length)
  buffer : ∃ b bytes, l'.lineptr caller = some b ∧ l'.heap.blocks b = some bytes ∧
    l'.n caller = bytes.length ∧
    bytes.take ((wholeLine (l.streams file)).length + 1) = wholeLine (l.streams file) ++ [0]

/-- Every store of the call goes into its buffer, and when it returns a length, it has read a
line. -/
def Reads (call : GetlineCall) (l : Lines) : Prop :=
  ∃ ret l', getline call l = some (ret, l') ∧
    (0 ≤ ret → ∃ file, call.stream = some file ∧ l.Read l' call.caller file ret)

section Calls

variable {l : Lines} {f : Filling} {bytes : List UInt8} {caller file : ℕ}

/-- The line variables stay valid when buffers keep their sizes and one gets a buffer. -/
theorem Lines.Valid.update (hl : l.Valid) {heap : Heap UInt8} {b : ℕ}
    {streams : ℕ → List UInt8} (hsizes : l.heap.SizesKept heap) (hfresh : heap.Fresh)
    (hb : heap.blocks b = some bytes) (hsmall : bytes.length < 2 ^ 64) :
    Lines.Valid
      { heap := heap
        lineptr := Function.update l.lineptr caller (some b)
        n := Function.update l.n caller bytes.length
        streams := streams } where
  fresh := hfresh
  buffer := by
    intro k c hc
    by_cases hk : k = caller
    · subst hk
      simp only [Function.update_self] at hc ⊢
      obtain rfl := Option.some.inj hc
      exact ⟨bytes, hb, rfl⟩
    · simp only [Function.update_of_ne hk] at hc ⊢
      obtain ⟨bytes₀, hb₀, hlen⟩ := hl.buffer k c hc
      obtain ⟨bytes', hb', hlen'⟩ := hsizes c bytes₀ hb₀
      exact ⟨bytes', hb', hlen'.trans hlen⟩
  small := by
    intro k c hc
    by_cases hk : k = caller
    · subst hk
      simp only [Function.update_self]
      exact hsmall
    · simp only [Function.update_of_ne hk] at hc ⊢
      exact hl.small k c hc

theorem Lines.Valid.heap (hl : l.Valid) {heap : Heap UInt8} {streams : ℕ → List UInt8}
    (hsizes : l.heap.SizesKept heap) (hfresh : heap.Fresh) :
    Lines.Valid { l with heap := heap, streams := streams } where
  fresh := hfresh
  buffer := by
    intro k b hb
    obtain ⟨bytes, hbytes, hlen⟩ := hl.buffer k b hb
    obtain ⟨bytes', hbytes', hlen'⟩ := hsizes b bytes hbytes
    exact ⟨bytes', hbytes', hlen'.trans hlen⟩
  small := hl.small

/-- **The line is shorter than the buffer.** -/
theorem finish_line (caller : ℕ) (hl : l.Valid) (hsizes : l.heap.SizesKept f.heap)
    (hfresh : f.heap.Fresh) (h : f.At bytes 0)
    (hroom : (wholeLine (l.streams file)).length < bytes.length) :
    ∃ ret l', (getlineLoop (l.streams file) f).bind (l.finish caller file) = some (ret, l') ∧
      l.Read l' caller file ret ∧ l'.Valid := by
  obtain ⟨g, bytes', hloop, hat, hlen, hbytes, hgoes⟩ :=
    loop_line (l.streams file) f bytes 0 h (by omega)
  rw [Nat.zero_add] at hat hbytes
  obtain ⟨k, hput, hk, hgoes'⟩ := put_at (c := 0) hat (by omega)
  have hall := hgoes.trans hgoes'
  have hsize : k.size = (bytes'.set (wholeLine (l.streams file)).length 0).length := hk.size
  have hindex : k.p.index = (wholeLine (l.streams file)).length + 1 := hk.index
  refine ⟨_, _, by rw [hloop, Option.bind_some, Lines.finish, hput]; rfl, ⟨?_, rfl, ?_⟩, ?_⟩
  · rw [hindex]
    omega
  · refine ⟨k.bufptr, _, Function.update_self _ _ _, hk.buffer, ?_, ?_⟩
    · rw [← hsize]
      exact Function.update_self _ _ _
    · rw [List.take_succ_eq_append_getElem (by rw [List.length_set]; omega),
        List.getElem_set_self, List.take_set_of_le (Nat.le_refl _), hbytes]
      rfl
  · rw [hsize]
    exact hl.update (hsizes.trans hall.sizes) (hall.fresh hfresh) hk.buffer hk.small

/-- **The line is not shorter than the buffer**: a store outside, or no memory. -/
theorem finish_long (caller : ℕ) (hl : l.Valid) (hsizes : l.heap.SizesKept f.heap)
    (hfresh : f.heap.Fresh) (h : f.At bytes 0) (hs : l.streams file ≠ [])
    (hlong : ¬ (wholeLine (l.streams file)).length < bytes.length) :
    (0 < bytes.length ∧ bytes.length < (wholeLine (l.streams file)).length ∧
        f.heap.grants f.heap.next = false →
      ∃ l', (getlineLoop (l.streams file) f).bind (l.finish caller file) = some (-1, l') ∧
        l'.Valid) ∧
    (¬ (0 < bytes.length ∧ bytes.length < (wholeLine (l.streams file)).length ∧
        f.heap.grants f.heap.next = false) →
      (getlineLoop (l.streams file) f).bind (l.finish caller file) = none) := by
  constructor
  · rintro ⟨hpos, hlt, hno⟩
    obtain ⟨heap, rest, hloop, hkept, hheap⟩ :=
      (loop_long (l.streams file) f bytes 0 h hfresh hpos (by omega)).2 hno
    rw [hloop]
    exact ⟨_, rfl, hl.heap (hsizes.trans hkept) hheap⟩
  · intro hno
    by_cases hpos : 0 < bytes.length
    · by_cases hlt : bytes.length < (wholeLine (l.streams file)).length
      · have hgranted : f.heap.grants f.heap.next = true := by
          by_contra hrefused
          exact hno ⟨hpos, hlt, Bool.eq_false_iff.mpr hrefused⟩
        rw [(loop_long (l.streams file) f bytes 0 h hfresh hpos (by omega)).1 hgranted]
        rfl
      · -- the line fills the buffer, and the terminator is stored behind it
        obtain ⟨g, bytes', hloop, hat, hlen, -, -⟩ :=
          loop_line (l.streams file) f bytes 0 h (by omega)
        rw [hloop, Option.bind_some, Lines.finish, put_outside hat (by omega)]
        rfl
    · obtain rfl := List.eq_nil_of_length_eq_zero (show bytes.length = 0 by omega)
      obtain ⟨c, s, hcs⟩ := List.exists_cons_of_ne_nil hs
      rw [hcs, loop_empty h]
      rfl

/-- The size of the buffer that a call begins with. -/
def Lines.sizeFor (l : Lines) (caller : ℕ) : ℕ :=
  if l.lineptr caller = none then 128 else l.n caller

/-- The number of the first allocation behind the one of that buffer. -/
def Lines.reallocNumber (l : Lines) (caller : ℕ) : ℕ :=
  if l.lineptr caller = none then l.heap.next + 1 else l.heap.next

/-- The condition of one call.  The stream is at its end, or there is no memory for the first
buffer, or the line is shorter than the buffer, or it is longer and there is no memory for a longer
buffer. -/
def Fits (call : GetlineCall) (l : Lines) : Prop :=
  ∀ file, call.stream = some file → call.lineptr = true → call.n = true → l.streams file ≠ [] →
    (l.lineptr call.caller = none ∧ l.heap.grants l.heap.next = false) ∨
    (wholeLine (l.streams file)).length < l.sizeFor call.caller ∨
    (0 < l.sizeFor call.caller ∧
      l.sizeFor call.caller < (wholeLine (l.streams file)).length ∧
      l.heap.grants (l.reallocNumber call.caller) = false)

variable {call : GetlineCall}

/-- **The buffer a call begins with.** -/
theorem getline_begins (hl : l.Valid) (hfile : call.stream = some file)
    (hlineptr : call.lineptr = true) (hn : call.n = true) (hs : l.streams file ≠ [])
    (hmem : ¬ (l.lineptr call.caller = none ∧ l.heap.grants l.heap.next = false)) :
    ∃ f bytes, getline call l =
        (getlineLoop (l.streams file) f).bind (l.finish call.caller file) ∧
      f.At bytes 0 ∧ bytes.length = l.sizeFor call.caller ∧ l.heap.SizesKept f.heap ∧
      f.heap.Fresh ∧ f.heap.grants f.heap.next = l.heap.grants (l.reallocNumber call.caller) := by
  obtain ⟨c, s, hcs⟩ := List.exists_cons_of_ne_nil hs
  have hgiven : ¬ (call.lineptr = false ∨ call.n = false) := by simp [hlineptr, hn]
  unfold getline Lines.sizeFor Lines.reallocNumber
  simp only [hfile, if_neg hgiven, hcs]
  cases hptr : l.lineptr call.caller with
  | none =>
    have hgranted : l.heap.grants l.heap.next = true := by
      by_contra hrefused
      exact hmem ⟨hptr, Bool.eq_false_iff.mpr hrefused⟩
    obtain ⟨heap, hmalloc, hbuffer, hsizes, hfresh, hnext, hgrants⟩ :=
      Heap.malloc_granted 128 hl.fresh hgranted
    rw [hmalloc]
    refine ⟨_, _, rfl, ⟨rfl, hbuffer, ?_, ?_, Nat.zero_le _⟩, ?_, hsizes, hfresh, ?_⟩
    · exact List.length_replicate.symm
    · rw [List.length_replicate]
      decide
    · rw [List.length_replicate, if_pos rfl]
    · rw [hnext, hgrants, if_pos rfl]
  | some b =>
    obtain ⟨bytes, hbytes, hlen⟩ := hl.buffer call.caller b hptr
    have hsmall := hl.small call.caller b hptr
    have hne : ¬ some b = none := fun h => by cases h
    refine ⟨_, bytes, rfl, ⟨rfl, hbytes, hlen.symm, ?_, Nat.zero_le _⟩, ?_, .refl _, hl.fresh, ?_⟩
    · rw [hlen]
      exact hsmall
    · rw [if_neg hne]
      exact hlen
    · rw [if_neg hne]

/-- **One call**: it has a result exactly when the condition holds, and then a line when it returns
a length. -/
theorem getline_spec (hl : l.Valid) (call : GetlineCall) :
    (Fits call l → ∃ ret l', getline call l = some (ret, l') ∧
      (0 ≤ ret → ∃ file, call.stream = some file ∧ l.Read l' call.caller file ret) ∧ l'.Valid) ∧
    (¬ Fits call l → getline call l = none) := by
  have hminus : ¬ (0 : ℤ) ≤ -1 := by decide
  by_cases hcall : ∃ file, call.stream = some file ∧ call.lineptr = true ∧ call.n = true ∧
      l.streams file ≠ []
  · obtain ⟨file, hfile, hlineptr, hn, hs⟩ := hcall
    have hfits : Fits call l ↔ _ :=
      ⟨fun h => h file hfile hlineptr hn hs, fun h file' hfile' _ _ _ => by
        obtain rfl := Option.some.inj (hfile.symm.trans hfile')
        exact h⟩
    by_cases hmem : l.lineptr call.caller = none ∧ l.heap.grants l.heap.next = false
    · refine ⟨fun _ => ?_, fun hno => absurd (hfits.mpr (.inl hmem)) hno⟩
      obtain ⟨c, s, hcs⟩ := List.exists_cons_of_ne_nil hs
      have hgiven : ¬ (call.lineptr = false ∨ call.n = false) := by simp [hlineptr, hn]
      unfold getline
      simp only [hfile, if_neg hgiven, hcs, hmem.1, Heap.malloc_refused hmem.2]
      exact ⟨_, _, rfl, fun h => absurd h hminus, hl.heap (.refl _) hl.fresh.skip⟩
    · obtain ⟨f, bytes, heq, hat, hsize, hsizes, hfresh, hgrants⟩ :=
        getline_begins hl hfile hlineptr hn hs hmem
      rw [hfits, heq, ← hsize, ← hgrants]
      by_cases hroom : (wholeLine (l.streams file)).length < bytes.length
      · refine ⟨fun _ => ?_, fun hno => absurd (.inr (.inl hroom)) hno⟩
        obtain ⟨ret, l', hline, hread, hvalid⟩ :=
          finish_line call.caller hl hsizes hfresh hat hroom
        exact ⟨ret, l', hline, fun _ => ⟨file, hfile, hread⟩, hvalid⟩
      · obtain ⟨hrefused, hfaults⟩ :=
          finish_long call.caller hl hsizes hfresh hat hs hroom
        refine ⟨fun h => ?_, fun hno => hfaults fun h => hno (.inr (.inr h))⟩
        obtain ⟨l', hend, hvalid⟩ := hrefused ((h.resolve_left hmem).resolve_left hroom)
        exact ⟨-1, l', hend, fun h => absurd h hminus, hvalid⟩
  · -- a pointer that is `NULL`, or the end of the stream
    have hfits : Fits call l := fun file hfile hlineptr hn hs =>
      absurd ⟨file, hfile, hlineptr, hn, hs⟩ hcall
    have hend : getline call l = some (-1, l) := by
      unfold getline
      split
      · rfl
      · rename_i file hfile
        split
        · rfl
        · rename_i hgiven
          have hs : l.streams file = [] := by
            by_contra hs
            exact hcall ⟨file, hfile, by simpa using fun h => hgiven (.inl h), by
              simpa using fun h => hgiven (.inr h), hs⟩
          rw [hs]
    exact ⟨fun _ => ⟨-1, l, hend, fun h => absurd h hminus, hl⟩, fun hno => absurd hfits hno⟩

theorem fits_of_some (hl : l.Valid) {r : ℤ × Lines} (h : getline call l = some r) :
    Fits call l := by
  by_contra hno
  rw [(getline_spec hl call).2 hno] at h
  cases h

theorem reads_iff (hl : l.Valid) : Reads call l ↔ Fits call l := by
  constructor
  · rintro ⟨ret, l', hget, -⟩
    exact fits_of_some hl hget
  · intro h
    obtain ⟨ret, l', hget, hread, -⟩ := (getline_spec hl call).1 h
    exact ⟨ret, l', hget, hread⟩

end Calls

/-! ## 4. Sequences of calls -/

/-- The state after a call. -/
def GetlineCall.step (call : GetlineCall) (l : Lines) : Option Lines :=
  (getline call l).map Prod.snd

theorem valid_step {l l' : Lines} {call : GetlineCall} (hl : l.Valid)
    (h : call.step l = some l') : l'.Valid := by
  obtain ⟨r, hget, rfl⟩ := Option.map_eq_some_iff.mp h
  obtain ⟨ret, k, hget', -, hvalid⟩ := (getline_spec hl call).1 (fits_of_some hl hget)
  obtain rfl := Option.some.inj (hget.symm.trans hget')
  exact hvalid

/-- What is the condition of one call, in any valid state, is that of any sequence of calls. -/
theorem along_fits_iff {C : GetlineCall → Lines → Prop}
    (hC : ∀ {call l}, Lines.Valid l → (C call l ↔ Fits call l)) {l : Lines} (hl : l.Valid)
    (calls : List GetlineCall) :
    Along GetlineCall.step C calls l ↔ Along GetlineCall.step Fits calls l := by
  constructor
  · refine along_of_along (I := Lines.Valid) (fun call _ k hk hcall => ?_) hl
    exact ⟨(hC hk).mp hcall, fun k' hk' => valid_step hk hk'⟩
  · refine along_of_along (I := Lines.Valid) (fun call _ k hk hfits => ?_) hl
    exact ⟨(hC hk).mpr hfits, fun k' hk' => valid_step hk hk'⟩

/-- **Any sequence of calls** reads whole lines and stays in its buffers exactly when each call
meets the condition. -/
theorem getline_iff {l : Lines} (hl : l.Valid) (calls : List GetlineCall) :
    Along GetlineCall.step Reads calls l ↔ Along GetlineCall.step Fits calls l :=
  along_fits_iff reads_iff hl calls

/-- The line that the library's `getline` takes from a stream. -/
theorem splitLine_eq (s : List UInt8) :
    splitLine s = (wholeLine s, s.drop (wholeLine s).length) := by
  induction s with
  | nil => rfl
  | cons c s ih =>
    rw [splitLine, wholeLine_cons, ih]
    by_cases hc : c = newline
    · rw [if_pos hc, if_pos (show c = 10 from hc)]
      rfl
    · rw [if_neg hc, if_neg (show ¬ c = 10 from hc)]
      rfl

theorem read_library {l l' : Lines} {caller file : ℕ} {ret : ℤ}
    (h : l.Read l' caller file ret) (hs : l.streams file ≠ []) :
    ∃ b bytes, l'.lineptr caller = some b ∧ l'.heap.blocks b = some bytes ∧
      Shell.getline (l.streams file) =
        some (bytes.take (ret.toNat + 1), l'.streams file) := by
  obtain ⟨b, bytes, hptr, hbytes, -, htake⟩ := h.buffer
  refine ⟨b, bytes, hptr, hbytes, ?_⟩
  rw [Shell.getline, if_neg hs, splitLine_eq, h.streams, Function.update_self, h.length,
    Int.toNat_natCast, htake]

/-- The call has a result, and when that is a length, the caller's buffer holds the line that the
library reads from the stream, and the rest of the stream is left. -/
def LikeLibrary (call : GetlineCall) (l : Lines) : Prop :=
  ∃ ret l', getline call l = some (ret, l') ∧
    (0 ≤ ret → ∃ file, call.stream = some file ∧ ∃ b bytes, l'.lineptr call.caller = some b ∧
      l'.heap.blocks b = some bytes ∧
      Shell.getline (l.streams file) = some (bytes.take (ret.toNat + 1), l'.streams file))

/-- At the end of a stream there is no line. -/
theorem getline_end {call : GetlineCall} {l : Lines} {file : ℕ} (hfile : call.stream = some file)
    (hs : l.streams file = []) : getline call l = some (-1, l) := by
  unfold getline
  simp only [hfile, hs]
  split <;> rfl

theorem likeLibrary_iff {call : GetlineCall} {l : Lines} (hl : l.Valid) :
    LikeLibrary call l ↔ Fits call l := by
  constructor
  · rintro ⟨ret, l', hget, -⟩
    exact fits_of_some hl hget
  · intro hfits
    obtain ⟨ret, l', hget, hread⟩ := (reads_iff hl).mpr hfits
    refine ⟨ret, l', hget, fun hret => ?_⟩
    obtain ⟨file, hfile, hline⟩ := hread hret
    refine ⟨file, hfile, read_library hline fun hs => ?_⟩
    rw [getline_end hfile hs] at hget
    obtain ⟨rfl, -⟩ := Prod.mk.inj (Option.some.inj hget)
    exact absurd hret (by decide)

/-- **The same lines as from the library**: in any sequence of calls, each that returns a length has
the library's line in its buffer, exactly when each meets the condition. -/
theorem getline_library_iff {l : Lines} (hl : l.Valid) (calls : List GetlineCall) :
    Along GetlineCall.step LikeLibrary calls l ↔ Along GetlineCall.step Fits calls l :=
  along_fits_iff likeLibrary_iff hl calls

/-- Memory without buffers. -/
def noBuffers : Heap UInt8 where
  blocks _ := none
  next := 0
  grants _ := true
  fill := 0

theorem valid_noBuffers (streams : ℕ → List UInt8) :
    Lines.Valid { heap := noBuffers, streams := streams } where
  fresh _ _ := rfl
  buffer _ _ h := by cases h
  small _ _ h := by cases h

theorem fits_twoBytes : Along GetlineCall.step Fits [{ stream := some 0 }]
    { heap := noBuffers, streams := fun _ => [97, newline] } :=
  ⟨fun _ _ _ _ _ => .inr (.inl (show 2 < 128 by decide)), fun _ _ => trivial⟩

/-- One line is read, -/
theorem getline_iff_twoBytes : Reads { stream := some 0 }
    { heap := noBuffers, streams := fun _ => [97, newline] } :=
  ((getline_iff (valid_noBuffers _) _).mpr fits_twoBytes).1

/-- the one of the library. -/
theorem getline_library_iff_twoBytes : LikeLibrary { stream := some 0 }
    { heap := noBuffers, streams := fun _ => [97, newline] } :=
  ((getline_library_iff (valid_noBuffers _) _).mpr fits_twoBytes).1

/-- **A first line of 128 bytes or more** is stored outside its buffer: when it has 128 bytes, the
terminator is, and otherwise the byte behind them. -/
theorem getline_long_line {xs : List UInt8} (h : newline ∉ xs) (hlen : 127 ≤ xs.length)
    (rest : List UInt8) :
    getline { stream := some 0 }
      { heap := noBuffers, streams := fun _ => xs ++ newline :: rest } = none := by
  refine (getline_spec (valid_noBuffers _) _).2 fun hfits => ?_
  have hlong : (wholeLine (xs ++ newline :: rest)).length = xs.length + 1 := by
    rw [wholeLine_append h, List.length_append]
    rfl
  have hne : xs ++ newline :: rest ≠ [] :=
    List.append_ne_nil_of_right_ne_nil _ (List.cons_ne_nil _ _)
  rcases hfits 0 rfl rfl rfl hne with ⟨-, hrefused⟩ | hroom | ⟨-, -, hrefused⟩
  · cases hrefused
  · have hlt : (wholeLine (xs ++ newline :: rest)).length < 128 := hroom
    omega
  · cases hrefused

/-- **Two calls that leave their buffers**: the line has 128 bytes with its newline, or 129. -/
theorem getline_faults :
    ¬ Reads { stream := some 0 }
        { heap := noBuffers, streams := fun _ => List.replicate 127 97 ++ [newline] } ∧
      ¬ Reads { stream := some 0 }
        { heap := noBuffers, streams := fun _ => List.replicate 128 97 ++ [newline] } := by
  have hnone : ∀ k, newline ∉ List.replicate k (97 : UInt8) := fun k hmem =>
    absurd (List.eq_of_mem_replicate hmem) (by decide)
  constructor
  · rintro ⟨ret, l', hget, -⟩
    rw [getline_long_line (hnone 127) (by rw [List.length_replicate]) []] at hget
    cases hget
  · rintro ⟨ret, l', hget, -⟩
    rw [getline_long_line (hnone 128) (by rw [List.length_replicate]; decide) []] at hget
    cases hget

end PfsShell.Shell.Bundled
