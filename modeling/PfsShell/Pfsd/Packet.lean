/-
# Requests as bytes

A client function fills a structure of `pfsd_common.h`, `SendRequest` puts a header of eight bytes
in front of it, and `event_handler_func` reads the bytes into a union of all the structures.
`Request.fields` are the fields a client writes, each at its offset, and `Packet.request` what the
daemon reads; what no field covers is whatever the memory held before (`Junk`).

* `request_received`: the daemon reads the request that was sent.

The daemon translates most names where they lie in the union.  `Tables.rpcRemapNameIn` is
`rpc_remap_name` on that memory, and `eventHandlerFuncIn` is `event_handler_func` with it: a
translation that is longer than the name goes over what follows it.  C does not say in which order
the arguments of a call are evaluated, so the order is a parameter.

* `rpcRemapNameIn_eq`: the bytes that the translation writes;
* `translated_eq`, `translatedBoth_first`, `translatedBoth_second`: the calls of the arms that
  translate one name and two names;
* `eventHandlerFuncIn_pair`: the latter are those of `eventHandlerFunc`.
-/
import PfsShell.Lib.Layout
import PfsShell.Pfsd.Tables

namespace PfsShell.Pfsd

open PfsShell.Lib

/-! ## 1. The structures of `pfsd_common.h` -/

/-- `PFSD_REQ_*`. -/
def Request.command : Request → CInt
  | .pfsdReqOpen .. => 0
  | .pfsdReqLseek .. => 1
  | .pfsdReqLseek64 .. => 2
  | .pfsdReqRead .. => 3
  | .pfsdReqWrite .. => 4
  | .pfsdReqClose _ => 5
  | .pfsdReqDopen _ => 6
  | .pfsdReqDread .. => 7
  | .pfsdReqDclose _ => 8
  | .pfsdReqChstat .. => 9
  | .pfsdReqGetstat .. => 10
  | .pfsdReqMkdir .. => 11
  | .pfsdReqRmdir _ => 12
  | .pfsdReqChdir _ => 13
  | .pfsdReqRemove _ => 14
  | .pfsdReqRename .. => 15
  | .pfsdReqIoctl .. => 16
  | .pfsdReqIoctl2 .. => 17
  | .pfsdReqSymlink .. => 18
  | .pfsdReqReadlink .. => 19
  | .pfsdReqSync .. => 20
  | .pfsdReqFormat .. => 21
  | .pfsdReqMount .. => 22
  | .pfsdReqUmount _ => 23
  | .pfsdReqDevctl .. => 24
  | .pfsdReqSetreadahead _ => 25
  | .pfsdReqGetreadahead => 26
  | .pfsdReqGetmountpoint _ => 27
  | .pfsdReqIoctl2Hioctransfer .. => 28
  | .unknown mCommand => mCommand

/-- A `char[1024]` that a string is copied to. -/
def nameField (offset : ℕ) (name : CStr) : ℕ × List UInt8 := (offset, name ++ [0])

/-- An `int`. -/
def intField (offset : ℕ) (v : CInt) : ℕ × List UInt8 := (offset, int32Bytes v)

/-- The fields that a client writes, each at its offset in the structure. -/
def Request.fields : Request → List (ℕ × List UInt8)
  | .pfsdReqOpen mName mFlags mMode =>
    [nameField 0 mName, intField 1024 mFlags, intField 1028 mMode]
  | .pfsdReqLseek mFd mOffset mWhence =>
    [intField 0 mFd, intField 4 mOffset, intField 8 mWhence]
  -- `m_pad1` and `m_pad2` are not written
  | .pfsdReqLseek64 mFd mOffset mWhence =>
    [intField 0 mFd, (8, int64Bytes mOffset), intField 16 mWhence]
  | .pfsdReqRead mFd mPtrUseshmptr mSize | .pfsdReqWrite mFd mPtrUseshmptr mSize =>
    [intField 0 mFd, intField 4 mPtrUseshmptr, intField 8 mSize]
  | .pfsdReqClose mFd | .pfsdReqDclose mFd => [intField 0 mFd]
  | .pfsdReqDopen mName | .pfsdReqRmdir mName | .pfsdReqChdir mName | .pfsdReqRemove mName
  | .pfsdReqUmount mName | .pfsdReqGetmountpoint mName => [nameField 0 mName]
  | .pfsdReqDread mFd mIoxDirentUseshmptr => [intField 0 mFd, intField 4 mIoxDirentUseshmptr]
  | .pfsdReqChstat mName mStatUseshmptr mMask =>
    [nameField 0 mName, intField 1024 mStatUseshmptr, intField 1028 mMask]
  | .pfsdReqGetstat mName v | .pfsdReqMkdir mName v | .pfsdReqSync mName v =>
    [nameField 0 mName, intField 1024 v]
  | .pfsdReqRename mOld mNew | .pfsdReqSymlink mOld mNew =>
    [nameField 0 mOld, nameField 1024 mNew]
  | .pfsdReqIoctl mFd mCmd mArgUseshmptr =>
    [intField 0 mFd, intField 4 mCmd, intField 8 mArgUseshmptr]
  | .pfsdReqIoctl2 mFd mCmd mArgUseshmptr mArglen mBufUseshmptr mBuflen =>
    [intField 0 mFd, intField 4 mCmd, intField 8 mArgUseshmptr, intField 12 mArglen,
      intField 16 mBufUseshmptr, intField 20 mBuflen]
  | .pfsdReqReadlink mName mBufUseshmptr mBuflen =>
    [nameField 0 mName, intField 1024 mBufUseshmptr, intField 1028 mBuflen]
  | .pfsdReqFormat mDev mBlockdev mArgUseshmptr mArglen =>
    [nameField 0 mDev, nameField 1024 mBlockdev, intField 2048 mArgUseshmptr,
      intField 2052 mArglen]
  | .pfsdReqMount mFsname mDevname mFlag mArgUseshmptr mArglen =>
    [nameField 0 mFsname, nameField 1024 mDevname, intField 2048 mFlag,
      intField 2052 mArgUseshmptr, intField 2056 mArglen]
  | .pfsdReqDevctl mName mCmd mArgUseshmptr mArglen mBufUseshmptr mBuflen =>
    [nameField 0 mName, intField 1024 mCmd, intField 1028 mArgUseshmptr, intField 1032 mArglen,
      intField 1036 mBufUseshmptr, intField 1040 mBuflen]
  | .pfsdReqSetreadahead mEnabled => [intField 0 mEnabled]
  | .pfsdReqGetreadahead => []
  | .pfsdReqIoctl2Hioctransfer mFd mSub mSector mSize mMode mBufferUseshmptr =>
    [intField 0 mFd, intField 4 mSub.toInt32, intField 8 mSector.toInt32,
      intField 12 mSize.toInt32, intField 16 mMode.toInt32, intField 20 mBufferUseshmptr]
  | .unknown _ => []

/-- `sizeof(rpc_struct)`: what the client passes to `SendRequest`. -/
def Request.size : Request → ℕ
  | .pfsdReqLseek .. | .pfsdReqRead .. | .pfsdReqWrite .. | .pfsdReqIoctl .. => 12
  | .pfsdReqLseek64 .. | .pfsdReqIoctl2 .. | .pfsdReqIoctl2Hioctransfer .. => 24
  | .pfsdReqClose _ | .pfsdReqDclose _ | .pfsdReqSetreadahead _ => 4
  | .pfsdReqDread .. => 8
  | .pfsdReqDopen _ | .pfsdReqRmdir _ | .pfsdReqChdir _ | .pfsdReqRemove _ | .pfsdReqUmount _
  | .pfsdReqGetmountpoint _ => 1024
  | .pfsdReqGetstat .. | .pfsdReqMkdir .. | .pfsdReqSync .. => 1028
  | .pfsdReqOpen .. | .pfsdReqChstat .. | .pfsdReqReadlink .. => 1032
  | .pfsdReqDevctl .. => 1044
  | .pfsdReqRename .. | .pfsdReqSymlink .. => 2048
  | .pfsdReqFormat .. => 2056
  | .pfsdReqMount .. => 2060
  | .pfsdReqGetreadahead | .unknown _ => 0

/-- The names in a request. -/
def Request.names : Request → List CStr
  | .pfsdReqOpen n _ _ | .pfsdReqDopen n | .pfsdReqChstat n _ _ | .pfsdReqGetstat n _
  | .pfsdReqMkdir n _ | .pfsdReqRmdir n | .pfsdReqChdir n | .pfsdReqRemove n
  | .pfsdReqReadlink n _ _ | .pfsdReqSync n _ | .pfsdReqUmount n | .pfsdReqDevctl n _ _ _ _ _
  | .pfsdReqGetmountpoint n => [n]
  | .pfsdReqRename n n' | .pfsdReqSymlink n n' | .pfsdReqFormat n n' _ _
  | .pfsdReqMount n n' _ _ _ => [n, n']
  | _ => []

/-- The names are C strings that fit into their fields. -/
def Request.Fits (r : Request) : Prop := ∀ n ∈ r.names, n.length < 1024 ∧ 0 ∉ n

/-- What the memory of a request holds before it is written: the client's structure, the message
that is allocated for it, and the daemon's `rpc_struct_common`. -/
structure Junk where
  rpcStruct : ℕ → UInt8 := fun _ => 0
  message : ℕ → UInt8 := fun _ => 0
  common : ℕ → UInt8 := fun _ => 0

/-- `SendRequest`: the bytes that go to the socket.  `m_unused` is not written. -/
def Request.message (junk : Junk) (r : Request) : List UInt8 :=
  let rpcBuf := window (store junk.rpcStruct r.fields) 0 r.size
  window (store junk.message [(4, int32Bytes r.command), (8, rpcBuf)]) 0 (8 + r.size)

/-! ## 2. The union -/

/-- `m_opu`, from its first byte on. -/
abbrev Packet := ℕ → UInt8

/-- `sizeof(m_opu)`: `pfsd_rpc_mount_struct_t`, and the alignment of `int64_t`. -/
def opuSize : ℕ := 2064

namespace Packet

def text (m : Packet) (a : ℕ) : CStr := cText m a opuSize

def int (m : Packet) (a : ℕ) : CInt := int32OfBytes (window m a 4)

def uint (m : Packet) (a : ℕ) : UInt32 := (m.int a).toUInt32

def int64 (m : Packet) (a : ℕ) : Int64 := int64OfBytes (window m a 8)

/-- The member of the union that the command selects. -/
def request (m : Packet) (command : CInt) : Request :=
  match command.toInt with
  | 0 => .pfsdReqOpen (m.text 0) (m.int 1024) (m.int 1028)
  | 1 => .pfsdReqLseek (m.int 0) (m.int 4) (m.int 8)
  | 2 => .pfsdReqLseek64 (m.int 0) (m.int64 8) (m.int 16)
  | 3 => .pfsdReqRead (m.int 0) (m.int 4) (m.int 8)
  | 4 => .pfsdReqWrite (m.int 0) (m.int 4) (m.int 8)
  | 5 => .pfsdReqClose (m.int 0)
  | 6 => .pfsdReqDopen (m.text 0)
  | 7 => .pfsdReqDread (m.int 0) (m.int 4)
  | 8 => .pfsdReqDclose (m.int 0)
  | 9 => .pfsdReqChstat (m.text 0) (m.int 1024) (m.int 1028)
  | 10 => .pfsdReqGetstat (m.text 0) (m.int 1024)
  | 11 => .pfsdReqMkdir (m.text 0) (m.int 1024)
  | 12 => .pfsdReqRmdir (m.text 0)
  | 13 => .pfsdReqChdir (m.text 0)
  | 14 => .pfsdReqRemove (m.text 0)
  | 15 => .pfsdReqRename (m.text 0) (m.text 1024)
  | 16 => .pfsdReqIoctl (m.int 0) (m.int 4) (m.int 8)
  | 17 => .pfsdReqIoctl2 (m.int 0) (m.int 4) (m.int 8) (m.int 12) (m.int 16) (m.int 20)
  | 18 => .pfsdReqSymlink (m.text 0) (m.text 1024)
  | 19 => .pfsdReqReadlink (m.text 0) (m.int 1024) (m.int 1028)
  | 20 => .pfsdReqSync (m.text 0) (m.int 1024)
  | 21 => .pfsdReqFormat (m.text 0) (m.text 1024) (m.int 2048) (m.int 2052)
  | 22 => .pfsdReqMount (m.text 0) (m.text 1024) (m.int 2048) (m.int 2052) (m.int 2056)
  | 23 => .pfsdReqUmount (m.text 0)
  | 24 =>
    .pfsdReqDevctl (m.text 0) (m.int 1024) (m.int 1028) (m.int 1032) (m.int 1036) (m.int 1040)
  | 25 => .pfsdReqSetreadahead (m.int 0)
  | 26 => .pfsdReqGetreadahead
  | 27 => .pfsdReqGetmountpoint (m.text 0)
  | 28 =>
    .pfsdReqIoctl2Hioctransfer (m.int 0) (m.uint 4) (m.uint 8) (m.uint 12) (m.uint 16) (m.int 20)
  | _ => .unknown command

end Packet

/-! ## 3. What is received -/

/-- The bytes `read` puts into `rpc_struct_common`. -/
def Request.received (junk : Junk) (r : Request) : ℕ → UInt8 :=
  overlay junk.common 0 (r.message junk)

/-- `m_command`, at its offset in `rpc_struct_common`. -/
def receivedCommand (mem : ℕ → UInt8) : CInt := int32OfBytes (window mem 4 4)

/-- `m_opu`, at its offset. -/
def receivedOpu (mem : ℕ → UInt8) : Packet := fun i => mem (8 + i)

section Received

variable {r : Request} {m : Packet}

/-- The fields lie one behind the other. -/
theorem fields_before (hr : r.Fits) : r.fields.Pairwise Before := by
  cases r <;> simp [Request.fields, Before, nameField, intField] <;>
    simp [Request.Fits, Request.names] at hr <;> omega

/-- They end within the structure. -/
theorem fields_le_size (hr : r.Fits) : ∀ f ∈ r.fields, f.1 + f.2.length ≤ r.size := by
  cases r <;> simp [Request.fields, Request.size, nameField, intField] <;>
    simp [Request.Fits, Request.names] at hr <;> omega

/-- The header and the structure arrive as they were sent. -/
theorem laid_received (junk : Junk) (r : Request) :
    Laid (r.received junk)
      [(4, int32Bytes r.command), (8, window (store junk.rpcStruct r.fields) 0 r.size)] := by
  refine Laid.mono (n := 8 + r.size) (laid_store junk.message ?_) (fun i hi => ?_) ?_
  · simp [Before]
  · rw [Request.received, overlay_of_mem (Nat.zero_le i) (by simpa [Request.message] using hi)]
    simp [Request.message, window, live]
  · simp

theorem receivedCommand_received (junk : Junk) (r : Request) :
    receivedCommand (r.received junk) = r.command := by
  have hcommand := laid_received junk r (4, int32Bytes r.command) (by simp)
  rw [length_int32Bytes] at hcommand
  rw [receivedCommand, hcommand, int32OfBytes_int32Bytes]

/-- The fields arrive as the client wrote them. -/
theorem laid_receivedOpu (junk : Junk) (hr : r.Fits) :
    Laid (receivedOpu (r.received junk)) r.fields := by
  have hopu := laid_received junk r (8, window (store junk.rpcStruct r.fields) 0 r.size) (by simp)
  rw [length_window] at hopu
  refine (laid_store junk.rpcStruct (fields_before hr)).mono (fun i hi => ?_) (fields_le_size hr)
  have hi' := congrArg (·[i]?) hopu
  simpa [receivedOpu, window, live, hi] using hi'

theorem int_eq_iff {a : ℕ} {v : CInt} :
    m.int a = v ↔ window m a (int32Bytes v).length = int32Bytes v := by
  rw [length_int32Bytes]
  constructor
  · rintro rfl
    exact (int32Bytes_int32OfBytes (length_window m a 4)).symm
  · intro h
    rw [Packet.int, h, int32OfBytes_int32Bytes]

theorem int64_eq_iff {a : ℕ} {v : Int64} :
    m.int64 a = v ↔ window m a (int64Bytes v).length = int64Bytes v := by
  rw [length_int64Bytes]
  constructor
  · rintro rfl
    exact (int64Bytes_int64OfBytes (length_window m a 8)).symm
  · intro h
    rw [Packet.int64, h, int64OfBytes_int64Bytes]

theorem text_of_laid {a : ℕ} {s : CStr} (h : window m a (s ++ [0]).length = s ++ [0])
    (hs : s.length < 1024 ∧ 0 ∉ s) (ha : a ≤ 1024) : m.text a = s :=
  cText_of_window h hs.2 (by have := hs.1; rw [opuSize]; omega)

theorem request_of_laid (hr : r.Fits) (hknown : ∀ c, r ≠ .unknown c) (h : Laid m r.fields) :
    m.request r.command = r := by
  cases r with
  | unknown c => exact absurd rfl (hknown c)
  | pfsdReqRename _ _ | pfsdReqSymlink _ _ | pfsdReqFormat _ _ _ _ | pfsdReqMount _ _ _ _ _ =>
    simp only [Request.Fits, Request.names, List.forall_mem_cons] at hr
    simp only [Laid, Request.fields, nameField, intField, List.forall_mem_cons, ← int_eq_iff] at h
    simp [Request.command, Packet.request, h, text_of_laid h.1 hr.1 (Nat.zero_le _),
      text_of_laid h.2.1 hr.2.1 (Nat.le_refl _)]
  | _ =>
    simp only [Request.Fits, Request.names, List.forall_mem_cons] at hr
    simp only [Laid, Request.fields, nameField, intField, List.forall_mem_cons, ← int_eq_iff,
      ← int64_eq_iff] at h
    simp [Request.command, Packet.request, Packet.uint, h]
    try exact text_of_laid h.1 hr.1 (Nat.zero_le _)

/-- **The daemon reads the request that was sent.** -/
theorem request_received (junk : Junk) (hr : r.Fits) (hknown : ∀ c, r ≠ .unknown c) :
    (receivedOpu (r.received junk)).request (receivedCommand (r.received junk)) = r := by
  rw [receivedCommand_received, request_of_laid hr hknown (laid_receivedOpu junk hr)]

end Received

/-! ## 4. Translation in place -/

/-- The containers are C strings. -/
def Tables.CStrings (t : Tables) : Prop := ∀ i, 0 ∉ (t.gMountlistItems i).mStrContainerPath

/-- `rpc_remap_name` on the name at `o`, in a memory of `bound` bytes.  There is no saying what a
write behind its end does. -/
def Tables.rpcRemapNameIn (t : Tables) (bound : ℕ) (m : ℕ → UInt8) (o : ℕ) (inPid : CInt) :
    Option (ℕ → UInt8) :=
  let inName := cText m o bound
  let i := t.remapSlot inName inPid
  if i < 32 then
    let fsprefix := (t.gMountlistItems i).mStrFsPrefix
    let containerpath := (t.gMountlistItems i).mStrContainerPath
    -- `strlen(in_name) - (strlen(fsprefix) - 1)`
    let n := inName.length + 1 - fsprefix.length
    if o + containerpath.length + n ≤ bound then
      some (overlay (overlay m (o + containerpath.length) (window m (o + fsprefix.length) n)) o
        containerpath)
    else none
  else
    some ((List.range 32).foldl (fun m i =>
      if (t.gMountlistItems i).mPid ≠ 0 ∧
          (t.gMountlistItems i).mStrContainerPath <+: cText m o bound
      then overlay m o [0] else m) m)

section Translation

variable {t : Tables} {bound o : ℕ} {name : CStr} {m : ℕ → UInt8}

theorem notMem_rpcRemapName (ht : t.CStrings) (hname : 0 ∉ name) (p : CInt) :
    0 ∉ t.rpcRemapName name p := by
  by_cases hi : t.remapSlot name p < 32
  · rw [Tables.rpcRemapName_of_lt hi, List.mem_append, not_or]
    exact ⟨ht _, fun h => hname (List.mem_of_mem_drop h)⟩
  · rw [Tables.rpcRemapName_of_not_lt hi]
    rcases t.rejectContainers_cases name with ⟨h, -⟩ | h
    · rwa [h]
    · rw [h]
      exact List.not_mem_nil

/-- The loop over the containers cuts the name in the memory. -/
theorem foldl_rejectContainers (hname : 0 ∉ name)
    (hm : window m o (name ++ [0]).length = name ++ [0]) (ho : o + name.length < bound) :
    ∀ (l : List ℕ) (acc : CStr), acc = name ∨ acc = [] →
      l.foldl (fun m i =>
        if (t.gMountlistItems i).mPid ≠ 0 ∧
            (t.gMountlistItems i).mStrContainerPath <+: cText m o bound
        then overlay m o [0] else m) (overlay m o (acc ++ [0])) =
      overlay m o (l.foldl (fun name i =>
        if (t.gMountlistItems i).mPid ≠ 0 ∧ (t.gMountlistItems i).mStrContainerPath <+: name
        then [] else name) acc ++ [0]) := by
  intro l
  induction l with
  | nil => exact fun _ _ => rfl
  | cons i l ih =>
    intro acc hacc
    have htext : cText (overlay m o (acc ++ [0])) o bound = acc := by
      rcases hacc with rfl | rfl
      · exact cText_overlay m hname ho
      · exact cText_overlay m List.not_mem_nil (by simp only [List.length_nil]; omega)
    -- over the name that was there, or over the NUL that was written before
    have hzero : overlay (overlay m o (acc ++ [0])) o [0] = overlay m o [0] := by
      rcases hacc with rfl | rfl
      · rw [overlay_eq_self hm]
      · exact overlay_eq_self (window_overlay_self m o [0])
    rw [List.foldl_cons, List.foldl_cons, htext]
    split
    · rw [hzero]
      exact ih [] (.inr rfl)
    · exact ih acc hacc

/-- **What `rpc_remap_name` writes** is the translation and its NUL, where the name was, as long as
the memory holds it. -/
theorem rpcRemapNameIn_eq (hname : 0 ∉ name)
    (hm : window m o (name ++ [0]).length = name ++ [0]) (ho : o + name.length < bound) (p : CInt) :
    t.rpcRemapNameIn bound m o p =
      if o + (t.rpcRemapName name p).length < bound then
        some (overlay m o (t.rpcRemapName name p ++ [0]))
      else none := by
  have htext : cText m o bound = name := cText_of_window hm hname ho
  simp only [Tables.rpcRemapNameIn, htext]
  by_cases hi : t.remapSlot name p < 32
  · have hle := (Tables.remapSlot_spec hi).2.length_le
    have hmoved : window m (o + (t.gMountlistItems (t.remapSlot name p)).mStrFsPrefix.length)
        (name.length + 1 - (t.gMountlistItems (t.remapSlot name p)).mStrFsPrefix.length) =
          name.drop (t.gMountlistItems (t.remapSlot name p)).mStrFsPrefix.length ++ [0] := by
      rw [← take_drop_window m o (n := (name ++ [0]).length), hm, List.drop_append_of_le_length hle,
        List.take_of_length_le]
      · simp
        omega
      · simp
        omega
    rw [if_pos hi, Tables.rpcRemapName_of_lt hi, hmoved]
    rw [overlay_comm m (Nat.le_refl _), ← overlay_append, ← List.append_assoc]
    congr 1
    simp only [List.length_append, List.length_drop, eq_iff_iff]
    omega
  · have hfold := foldl_rejectContainers (t := t) hname hm ho (List.range 32) name (.inl rfl)
    rw [overlay_eq_self hm] at hfold
    have hle : (t.rejectContainers name).length ≤ name.length := by
      rcases t.rejectContainers_cases name with ⟨h, -⟩ | h
      · rw [h]
      · rw [h]
        exact Nat.zero_le _
    rw [if_neg hi, Tables.rpcRemapName_of_not_lt hi, if_pos (by omega), hfold]
    rfl

end Translation

/-! ## 5. The dispatch on the union -/

section Dispatch

variable {σ : Type} (io : IomanX σ)

/-- The arms that translate one name where it lies, and set `rpcret` to the result of one call.
`v i` is the `i`th `int` behind the name, and `order i` that C reads it after the translation. -/
def translated (order : ℕ → Bool) (mk : CStr → (ℕ → CInt) → Call) (fd : CInt) (m : Packet)
    (s : Daemon σ) : Option (Option ℤ × Daemon σ) :=
  (s.rpcRemapNameIn opuSize m 0 fd).map fun m' =>
    let v := fun i => (if order i then m' else m).int (1024 + 4 * i)
    broke fd (call io fd (mk (Packet.text m' 0) v) s)

/-- The arms that translate two names, the first of them first if `order 0`. -/
def translatedBoth (order : ℕ → Bool) (mk : CStr → CStr → Call) (fd : CInt) (m : Packet)
    (s : Daemon σ) : Option (Option ℤ × Daemon σ) :=
  let m' :=
    if order 0 then
      (s.rpcRemapNameIn opuSize m 0 fd).bind fun m => s.rpcRemapNameIn opuSize m 1024 fd
    else (s.rpcRemapNameIn opuSize m 1024 fd).bind fun m => s.rpcRemapNameIn opuSize m 0 fd
  m'.map fun m' => broke fd (call io fd (mk (Packet.text m' 0) (Packet.text m' 1024)) s)

/-- `name_buf` of `rpc_command_open` and `rpc_command_dopen` holds the name, and its translation
where there is one. -/
def nameBufHolds (name : CStr) (fd : CInt) (s : Daemon σ) : Bool :=
  name.length < 1200 ∧ (s.gOpenfileCount < 32 →
    (s.rpcRemapNameIn 1200 (overlay (fun _ => 0) 0 (name ++ [0])) 0 fd).isSome)

/-- The switch of `event_handler_func`, on the request that the union `m` holds.  `none` is a write
behind the end of a variable. -/
def dispatchIn (order : ℕ → Bool) (pfd : ℕ) (rpcret : CInt) (req : Request) (m : Packet)
    (s : Daemon σ) : Option (Option ℤ × Daemon σ) :=
  let fd := s.gConnectionPollfds pfd
  match req with
  | .pfsdReqOpen name _ _ | .pfsdReqDopen name =>
    if nameBufHolds name fd s then
      some (eventHandlerFunc io pfd { rpcret, oldFirst := order 0 } (some req) s)
    else none
  | .pfsdReqChstat .. =>
    translated io order (fun name v => .scepfsChstat name (shmPtr (v 0) s) (v 1)) fd m s
  | .pfsdReqGetstat .. =>
    translated io order (fun name v => .scepfsGetstat name (shmPtr (v 0) s)) fd m s
  | .pfsdReqMkdir .. => translated io order (fun name v => .scepfsMkdir name (v 0)) fd m s
  | .pfsdReqRmdir _ => translated io order (fun name _ => .scepfsRmdir name) fd m s
  | .pfsdReqChdir _ => translated io order (fun name _ => .scepfsChdir name) fd m s
  | .pfsdReqRemove _ => translated io order (fun name _ => .scepfsRemove name) fd m s
  | .pfsdReqRename .. => translatedBoth io order .scepfsRename fd m s
  | .pfsdReqSymlink .. => translatedBoth io order .scepfsSymlink fd m s
  | .pfsdReqReadlink .. =>
    translated io order (fun name v => .scepfsReadlink name (shmPtr (v 0) s) (v 1)) fd m s
  | .pfsdReqSync .. => translated io order (fun name v => .scepfsSync name (v 0)) fd m s
  | .pfsdReqDevctl .. =>
    translated io order (fun name v =>
      .scepfsDevctl name (v 0) (shmPtr (v 1) s) (v 2) (shmPtr (v 3) s) (v 4)) fd m s
  | req => some (eventHandlerFunc io pfd { rpcret, oldFirst := order 0 } (some req) s)

/-- `event_handler_func`, on the bytes that `read` delivered. -/
def eventHandlerFuncIn (order : ℕ → Bool) (pfd : ℕ) (rpcret : CInt) (mem : ℕ → UInt8)
    (s : Daemon σ) : Option (Option ℤ × Daemon σ) :=
  let m := receivedOpu mem
  dispatchIn io order pfd rpcret (m.request (receivedCommand mem)) m s

end Dispatch

/-- The `int` at `a` that held `v`, after `data` was written from the first byte on. -/
def spilled (data : List UInt8) (a : ℕ) (v : CInt) : CInt :=
  Packet.int (overlay (overlay (fun _ => 0) a (int32Bytes v)) 0 data) a

section Translated

variable {σ : Type} {io : IomanX σ} {s : Daemon σ} {m : Packet} {name : CStr}

/-- What is read behind the name after the translation. -/
theorem int_overlay {a : ℕ} {v : CInt} (hv : m.int a = v) (data : List UInt8) :
    Packet.int (overlay m 0 data) a = spilled data a v := by
  have hself := window_overlay_self (fun _ => 0) a (int32Bytes v)
  rw [int_eq_iff, length_int32Bytes] at hv
  rw [length_int32Bytes] at hself
  rw [spilled, Packet.int, Packet.int, window_overlay_congr (hv.trans hself.symm)]

/-- A translation that fits into the field leaves what is behind it alone. -/
theorem spilled_of_le {data : List UInt8} {a : ℕ} (h : data.length ≤ a) (v : CInt) :
    spilled data a v = v := by
  have hself := window_overlay_self (fun _ => 0) a (int32Bytes v)
  rw [length_int32Bytes] at hself
  rw [spilled, Packet.int, window_overlay_of_disjoint _ (.inr (by omega)), hself,
    int32OfBytes_int32Bytes]

variable (io) in
/-- **An arm that translates a name where it lies** makes the call with the translation and, where
C reads them late, with the `int`s that it left. -/
theorem translated_eq (order : ℕ → Bool) (mk : CStr → (ℕ → CInt) → Call) (fd : CInt)
    (hs : s.CStrings) (hname : name.length < 1024 ∧ 0 ∉ name)
    (hm : window m 0 (name ++ [0]).length = name ++ [0]) :
    translated io order mk fd m s =
      if (s.rpcRemapName name fd).length < opuSize then
        some (broke fd (call io fd (mk (s.rpcRemapName name fd) fun i =>
          Packet.int (if order i then overlay m 0 (s.rpcRemapName name fd ++ [0]) else m)
            (1024 + 4 * i)) s))
      else none := by
  have hopu : 0 + name.length < opuSize := by
    have := hname.1
    rw [opuSize]
    omega
  have heq := rpcRemapNameIn_eq (t := s.toTables) hname.2 hm hopu fd
  simp only [Nat.zero_add] at heq
  rw [translated, heq]
  split
  · rename_i hlt
    have htext : Packet.text (overlay m 0 (s.rpcRemapName name fd ++ [0])) 0 =
        s.rpcRemapName name fd :=
      cText_overlay m (notMem_rpcRemapName hs hname.2 fd) (by omega)
    simp only [Option.map_some, htext]
  · rfl

end Translated

section Both

variable {σ : Type} {io : IomanX σ} {s : Daemon σ} {m : Packet} {old new : CStr}

theorem notMem_secondName {first second : CStr} (hfirst : 0 ∉ first) (hsecond : 0 ∉ second) :
    0 ∉ secondName first second := by
  unfold secondName
  split
  · exact hsecond
  · exact fun h => hfirst (List.mem_of_mem_drop h)

theorem secondName_lt_opuSize {first second : CStr} (hfirst : first.length < opuSize)
    (hsecond : 1024 + second.length < opuSize) :
    1024 + (secondName first second).length < opuSize := by
  unfold secondName
  split
  · exact hsecond
  · rw [List.length_drop]
    omega

theorem window_secondName {first second : CStr}
    (hm : window m 1024 (second ++ [0]).length = second ++ [0]) :
    window (overlay m 0 (first ++ [0])) 1024 (secondName first second ++ [0]).length =
      secondName first second ++ [0] := by
  unfold secondName
  split
  · rename_i hlt
    rw [window_overlay_of_disjoint m (.inr (by simp; omega)), hm]
  · rename_i hge
    have hle : 1024 ≤ first.length := Nat.not_lt.mp hge
    have hdrop := take_drop_window (overlay m 0 (first ++ [0])) 0 (k := 1024)
      (m := (first.drop 1024 ++ [0]).length) (n := (first ++ [0]).length) (by simp; omega)
    rw [window_overlay_self, List.drop_append_of_le_length hle, List.take_length] at hdrop
    exact hdrop.symm

theorem text_firstName {first second : CStr} (hfirst : 0 ∉ first) (hsecond : 0 ∉ second)
    (hlt : first.length < opuSize) (hlt' : 1024 + second.length < opuSize) :
    Packet.text (overlay (overlay m 0 (first ++ [0])) 1024 (second ++ [0])) 0 =
      firstName first second := by
  unfold firstName
  split
  · rename_i hshort
    refine cText_of_window ?_ hfirst (by omega)
    rw [window_overlay_of_disjoint _ (.inl (by simp; omega)), window_overlay_self]
  · rename_i hge
    have htake : (first.take 1024).length = 1024 := by
      rw [List.length_take]
      omega
    refine cText_of_window ?_ (fun h => ?_) (by simp only [List.length_append, htake]; omega)
    · rw [List.append_assoc, List.length_append, htake, window_add, Nat.zero_add,
        window_overlay_self, window_overlay_of_disjoint _ (.inl (by omega)),
        window_overlay_take m 0 (by simp; omega), List.take_append_of_le_length (by omega)]
    · rcases List.mem_append.mp h with h | h
      · exact hfirst (List.mem_of_mem_take h)
      · exact hsecond h

section Orders

variable (io) {order : ℕ → Bool} (mk : CStr → CStr → Call) (fd : CInt) (hs : s.CStrings)
  (hold : old.length < 1024 ∧ 0 ∉ old) (hnew : new.length < 1024 ∧ 0 ∉ new)
  (hmold : window m 0 (old ++ [0]).length = old ++ [0])
  (hmnew : window m 1024 (new ++ [0]).length = new ++ [0])
include hs hold hnew hmold hmnew

/-- The first name is translated first: the second one is then translated as it reads. -/
theorem translatedBoth_first (horder : order 0 = true) :
    translatedBoth io order mk fd m s =
      let old' := s.rpcRemapName old fd
      let new' := s.rpcRemapName (secondName old' new) fd
      if old'.length < opuSize ∧ 1024 + new'.length < opuSize then
        some (broke fd (call io fd (mk (firstName old' new') new') s))
      else none := by
  have hopu : 0 + old.length < opuSize := by
    have := hold.1
    rw [opuSize]
    omega
  have hopu' : 1024 + new.length < opuSize := by
    have := hnew.1
    rw [opuSize]
    omega
  have hfirst := rpcRemapNameIn_eq (t := s.toTables) hold.2 hmold hopu fd
  have hnul := notMem_rpcRemapName hs hold.2 fd
  simp only [Nat.zero_add] at hfirst
  simp only [translatedBoth, horder, if_true, hfirst]
  by_cases hlt : (s.rpcRemapName old fd).length < opuSize
  · have hnul' := notMem_secondName hnul hnew.2
    have hsecond := rpcRemapNameIn_eq (t := s.toTables) hnul' (window_secondName hmnew)
      (secondName_lt_opuSize hlt hopu') fd
    rw [if_pos hlt, Option.bind_some, hsecond]
    by_cases hlt' : 1024 +
        (s.rpcRemapName (secondName (s.rpcRemapName old fd) new) fd).length < opuSize
    · have hnul'' := notMem_rpcRemapName hs hnul' fd
      have htext : Packet.text (overlay (overlay m 0 (s.rpcRemapName old fd ++ [0])) 1024
          (s.rpcRemapName (secondName (s.rpcRemapName old fd) new) fd ++ [0])) 1024 =
            s.rpcRemapName (secondName (s.rpcRemapName old fd) new) fd :=
        cText_overlay _ hnul'' hlt'
      rw [if_pos hlt', if_pos ⟨hlt, hlt'⟩, Option.map_some, htext,
        text_firstName hnul hnul'' hlt hlt']
    · rw [if_neg hlt', if_neg fun h => hlt' h.2, Option.map_none]
  · rw [if_neg hlt, if_neg fun h => hlt h.1, Option.bind_none, Option.map_none]

/-- The second name is translated first: the first one may go over its translation. -/
theorem translatedBoth_second (horder : order 0 = false) :
    translatedBoth io order mk fd m s =
      let old' := s.rpcRemapName old fd
      let new' := s.rpcRemapName new fd
      if old'.length < opuSize ∧ 1024 + new'.length < opuSize then
        some (broke fd (call io fd (mk old' (secondName old' new')) s))
      else none := by
  have hopu : 0 + old.length < opuSize := by
    have := hold.1
    rw [opuSize]
    omega
  have hopu' : 1024 + new.length < opuSize := by
    have := hnew.1
    rw [opuSize]
    omega
  have hsecond := rpcRemapNameIn_eq (t := s.toTables) hnew.2 hmnew hopu' fd
  have hnul := notMem_rpcRemapName hs hold.2 fd
  have hnul' := notMem_rpcRemapName hs hnew.2 fd
  simp only [translatedBoth, horder, Bool.false_eq_true, if_false, hsecond]
  by_cases hlt' : 1024 + (s.rpcRemapName new fd).length < opuSize
  · have hmold' : window (overlay m 1024 (s.rpcRemapName new fd ++ [0])) 0 (old ++ [0]).length =
        old ++ [0] := by
      have := hold.1
      rw [window_overlay_of_disjoint m (.inl (by simp; omega)), hmold]
    have hfirst := rpcRemapNameIn_eq (t := s.toTables) hold.2 hmold' hopu fd
    simp only [Nat.zero_add] at hfirst
    rw [if_pos hlt', Option.bind_some, hfirst]
    by_cases hlt : (s.rpcRemapName old fd).length < opuSize
    · have htext : Packet.text (overlay (overlay m 1024 (s.rpcRemapName new fd ++ [0])) 0
          (s.rpcRemapName old fd ++ [0])) 0 = s.rpcRemapName old fd :=
        cText_overlay _ hnul (by omega)
      have htext' : Packet.text (overlay (overlay m 1024 (s.rpcRemapName new fd ++ [0])) 0
          (s.rpcRemapName old fd ++ [0])) 1024 =
            secondName (s.rpcRemapName old fd) (s.rpcRemapName new fd) :=
        cText_of_window (window_secondName (window_overlay_self m 1024 _))
          (notMem_secondName hnul hnul') (secondName_lt_opuSize hlt hlt')
      rw [if_pos hlt, if_pos ⟨hlt, hlt'⟩, Option.map_some, htext, htext']
    · rw [if_neg hlt, if_neg fun h => hlt h.1, Option.map_none]
  · rw [if_neg hlt', if_neg fun h => hlt' h.2, Option.bind_none, Option.map_none]

/-- **The two names that the arm passes on**, when it stays within the union. -/
theorem translatedBoth_eq_some {r : Option ℤ × Daemon σ}
    (h : translatedBoth io order mk fd m s = some r) :
    r = broke fd (call io fd (mk (s.rpcRemapNames (order 0) old new fd).1
      (s.rpcRemapNames (order 0) old new fd).2) s) := by
  have hkept : ∀ second, firstName old second = old := fun second => if_pos hold.1
  cases horder : order 0 with
  | true =>
    rw [translatedBoth_first io mk fd hs hold hnew hmold hmnew horder] at h
    exact (Option.some.inj (Option.ite_none_right_eq_some.mp h).2).symm
  | false =>
    rw [translatedBoth_second io mk fd hs hold hnew hmold hmnew horder] at h
    simp only [Tables.rpcRemapNames, Bool.false_eq_true, if_false, hkept]
    exact (Option.some.inj (Option.ite_none_right_eq_some.mp h).2).symm

end Orders

variable {req : Request} {mk : CStr → CStr → Call}

variable (io) in
/-- **RENAME and SYMLINK on the bytes of the packet** are what `eventHandlerFunc` says of the
request, for either order, when the translations stay within the union. -/
theorem eventHandlerFuncIn_pair (hs : s.CStrings) (hpair : PairCall req old new mk)
    (hr : req.Fits) (junk : Junk) {order : ℕ → Bool} {pfd : ℕ} {rpcret : CInt}
    {r : Option ℤ × Daemon σ}
    (h : eventHandlerFuncIn io order pfd rpcret (req.received junk) s = some r) :
    r = eventHandlerFunc io pfd ⟨rpcret, order 0⟩ (some req) s := by
  have hknown : ∀ c, req ≠ .unknown c := by
    cases hpair <;> rintro _ ⟨⟩
  have hlaid := laid_receivedOpu junk hr
  rw [eventHandlerFuncIn, request_received junk hr hknown] at h
  cases hpair with
  | rename =>
    exact translatedBoth_eq_some io _ _ hs (hr old (by simp [Request.names]))
      (hr new (by simp [Request.names])) (hlaid (nameField 0 old) (by simp [Request.fields]))
      (hlaid (nameField 1024 new) (by simp [Request.fields])) h
  | symlink =>
    exact translatedBoth_eq_some io _ _ hs (hr old (by simp [Request.names]))
      (hr new (by simp [Request.names])) (hlaid (nameField 0 old) (by simp [Request.fields]))
      (hlaid (nameField 1024 new) (by simp [Request.fields])) h

end Both

end PfsShell.Pfsd
